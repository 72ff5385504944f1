import ShardCounter.Bytes
import ShardCounter.Bytes.Lemmas
import ShardCounter.Cell.Basic
import ShardCounter.Cell.Codec
import ShardCounter.Cell.Digest
import ShardCounter.Cell.Error
import ShardCounter.Cell.Name
import ShardCounter.Cell.Reconcile
import ShardCounter.Cluster.Basic
import ShardCounter.Cluster.Exchange
import ShardCounter.Cluster.Options
import ShardCounter.Cluster.Random
import ShardCounter.Cluster.Report
import ShardCounter.Cluster.Workload
import ShardCounter.Context.Basic
import ShardCounter.Context.Build
import ShardCounter.Context.Codec
import ShardCounter.Context.Dominance
import ShardCounter.Context.Error
import ShardCounter.Context.Merge
import ShardCounter.Decimal.Digits
import ShardCounter.Decimal.Fixed
import ShardCounter.Decimal.Reading
import ShardCounter.Hash.Digest
import ShardCounter.Hash.Sha256
import ShardCounter.Json.Form
import ShardCounter.Json.Number
import ShardCounter.Json.Printer
import ShardCounter.Json.Records
import ShardCounter.Json.Token
import ShardCounter.Json.Value
import ShardCounter.Main
import ShardCounter.Proofs.Bytes
import ShardCounter.Proofs.Cell.Alike
import ShardCounter.Proofs.Cell.Associativity
import ShardCounter.Proofs.Cell.Canonical
import ShardCounter.Proofs.Cell.Codec
import ShardCounter.Proofs.Cell.Decoding
import ShardCounter.Proofs.Cell.Delimiting
import ShardCounter.Proofs.Cell.Digest
import ShardCounter.Proofs.Cell.Dominance
import ShardCounter.Proofs.Cell.History
import ShardCounter.Proofs.Cell.Origin
import ShardCounter.Proofs.Cell.Pending
import ShardCounter.Proofs.Cell.Reconcile
import ShardCounter.Proofs.Cell.SeenDelete
import ShardCounter.Proofs.Cell.Transitivity
import ShardCounter.Proofs.Clearing
import ShardCounter.Proofs.Cluster.Convergence
import ShardCounter.Proofs.Cluster.Delivery
import ShardCounter.Proofs.Cluster.Exchange
import ShardCounter.Proofs.Cluster.Gossip
import ShardCounter.Proofs.Cluster.Ledger
import ShardCounter.Proofs.Cluster.Ownership
import ShardCounter.Proofs.Cluster.Replication
import ShardCounter.Proofs.Cluster.Schedule
import ShardCounter.Proofs.Cluster.Skipping
import ShardCounter.Proofs.Cluster.Slot
import ShardCounter.Proofs.Cluster.Stamps
import ShardCounter.Proofs.Context.Alike
import ShardCounter.Proofs.Context.Bulk
import ShardCounter.Proofs.Context.Canonical
import ShardCounter.Proofs.Context.Clearing
import ShardCounter.Proofs.Context.Codec
import ShardCounter.Proofs.Context.Conservation
import ShardCounter.Proofs.Context.Containment
import ShardCounter.Proofs.Context.Decoding
import ShardCounter.Proofs.Context.Dominance
import ShardCounter.Proofs.Context.Grouping
import ShardCounter.Proofs.Context.Join
import ShardCounter.Proofs.Context.Lookup
import ShardCounter.Proofs.Context.Merge
import ShardCounter.Proofs.Context.Pointwise
import ShardCounter.Proofs.Context.Positions
import ShardCounter.Proofs.Context.Production
import ShardCounter.Proofs.Context.Stable
import ShardCounter.Proofs.Context.Staging
import ShardCounter.Proofs.Context.Total
import ShardCounter.Proofs.Context.Truncation
import ShardCounter.Proofs.Except
import ShardCounter.Proofs.LeastUpperBound
import ShardCounter.Proofs.MergeOrder
import ShardCounter.Proofs.MergeTree
import ShardCounter.Proofs.Mirror
import ShardCounter.Proofs.Mismatch
import ShardCounter.Proofs.Replica.Minter
import ShardCounter.Proofs.Replica.Minting
import ShardCounter.Proofs.Replica.Order
import ShardCounter.Proofs.Shard.Ascending
import ShardCounter.Proofs.Shard.Version
import ShardCounter.Proofs.Timestamp
import ShardCounter.Proofs.Transfer
import ShardCounter.Reconcile
import ShardCounter.Replica.Id
import ShardCounter.Replica.Minter
import ShardCounter.Shard
import ShardCounter.Text.Base32
import ShardCounter.Text.Hex
import ShardCounter.Text.Quoted
import ShardCounter.Text.Utf8
