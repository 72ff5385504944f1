import ShardCounter.Cell.Codec
import ShardCounter.Context.Build
import ShardCounter.Context.Dominance
import ShardCounter.Hash.Digest
import ShardCounter.Json.Form
/-! The JSON forms of ids, shards, contexts and cells. A context is the list of its shards, which
may be read in any order and must make a context. -/
namespace ShardCounter
open JsonForm

instance : JsonForm Digest where
  toJson d := toJson d.bytes
  ofJson j := Digest.mk <$> ofJson j

instance : JsonForm CellName where
  toJson name := toJson name.bytes
  ofJson j := CellName.mk <$> ofJson j

instance : JsonForm ReplicaId where
  toJson id := .object [("bytes", toJson id.bytes), ("local", toJson id.isPending)]
  ofJson
    | .object fields => return ⟨← field fields "bytes", ← field fields "local"⟩
    | .array items => do
      let (bytes, items) ← next items
      let (isPending, items) ← next items
      noMore items
      return ⟨bytes, isPending⟩
    | _ => throw .mismatch

instance : JsonForm Shard where
  toJson s :=
    .object [("id", toJson s.id), ("clock", toJson s.clock), ("count", toJson s.count)]
  ofJson
    | .object fields => return ⟨← field fields "id", ← field fields "clock", ← field fields "count"⟩
    | .array items => do
      let (id, items) ← next items
      let (clock, items) ← next items
      let (count, items) ← next items
      noMore items
      return ⟨id, clock, count⟩
    | _ => throw .mismatch

instance : JsonForm Context where
  toJson c := toJson c.shards.toList
  ofJson j := do
    match Context.ofShards (← ofJson j) with
    | .ok context => return context
    | .error e => throw (.context e)

/-- Of an object the context is read first, as its key comes before the others in their order. -/
instance : JsonForm Counter where
  toJson c :=
    .object [("name", toJson c.name), ("context", toJson c.context),
      ("write_timestamp", toJson c.writtenAt), ("timestamp_of_last_delete", toJson c.lastDelete)]
  ofJson
    | .object fields => do
      let context ← field fields "context"
      let name ← field fields "name"
      let lastDelete ← field fields "timestamp_of_last_delete"
      let writtenAt ← field fields "write_timestamp"
      return { name, context, writtenAt, lastDelete }
    | .array items => do
      let (name, items) ← next items
      let (context, items) ← next items
      let (writtenAt, items) ← next items
      let (lastDelete, items) ← next items
      noMore items
      return { name, context, writtenAt, lastDelete }
    | _ => throw .mismatch

instance : JsonForm Tombstone where
  toJson t :=
    .object [("name", toJson t.name), ("local_deletion_time", toJson t.localTime),
      ("marked_for_delete_at", toJson t.deletedAt)]
  ofJson
    | .object fields =>
      return ⟨← field fields "name", ← field fields "local_deletion_time",
        ← field fields "marked_for_delete_at"⟩
    | .array items => do
      let (name, items) ← next items
      let (localTime, items) ← next items
      let (deletedAt, items) ← next items
      noMore items
      return ⟨name, localTime, deletedAt⟩
    | _ => throw .mismatch

instance : JsonForm Cell where
  toJson
    | .counter c => .object [("Counter", toJson c)]
    | .tombstone t => .object [("Tombstone", toJson t)]
  ofJson
    | .object [("Counter", j)] => Cell.counter <$> ofJson j
    | .object [("Tombstone", j)] => Cell.tombstone <$> ofJson j
    | _ => throw .mismatch

instance : JsonForm MinterConfig where
  toJson config := .object [("node_id", toJson config.nodeId)]
  ofJson
    | .object fields =>
      match fields.lookup "node_id" with
      | some j => MinterConfig.mk <$> ofJson j
      | none => return {}
    | .array items => do
      let (nodeId, items) ← next items
      noMore items
      return ⟨nodeId⟩
    | _ => throw .mismatch

/-- The name of a value that has no parts: a string, or the only key of an object around nothing. -/
def variantName : Json → Except JsonError String
  | .string name => .ok name
  | .object [(name, .null)] => .ok name
  | _ => .error .mismatch

instance : JsonForm Relationship where
  toJson r := .string r.name
  ofJson j := do
    match ← variantName j with
    | "Equal" => return .equal
    | "GreaterThan" => return .greater
    | "LessThan" => return .less
    | "Disjoint" => return .disjoint
    | _ => throw .mismatch

instance : JsonForm Origin where
  toJson origin := .string origin.name
  ofJson j := do
    match ← variantName j with
    | "Local" => return .ownProcess
    | "FromRemote" => return .remote
    | _ => throw .mismatch

end ShardCounter
