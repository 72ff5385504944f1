import ShardCounter.Context.Build
import ShardCounter.Proofs.Context.Decoding
import ShardCounter.Proofs.Context.Join
import ShardCounter.Proofs.Context.Stable
/-! Every context there can be is canonical. Contexts are produced by a handful of operations, from
any arguments and from each other's results; each of them yields ascending ids and checks, or keeps,
what the wire header has room for. -/
namespace ShardCounter.Context

theorem order_lt_of_isLE {a b : Shard} (hle : (a.id.order b.id).isLE)
    (hne : ¬ a.id.sameShard b.id = true) : a.id.order b.id = .lt := by
  rcases Ordering.isLE_iff_eq_lt_or_eq_eq.mp hle with hlt | heq
  · exact hlt
  · exact absurd (beq_iff_eq.mpr (ReplicaId.order_eq_iff.mp heq)) hne

theorem ascending_of_firstRepeated? {shards : List Shard}
    (hsorted : shards.Pairwise fun a b => (a.id.order b.id).isLE)
    (h : firstRepeated? shards = none) : Ascending shards := by
  fun_induction firstRepeated? shards with
  | case1 => contradiction
  | case2 a b rest hne ih =>
    have hrest := ih hsorted.of_cons h
    have hle : (a.id.order b.id).isLE := List.rel_of_pairwise_cons hsorted List.mem_cons_self
    have hlt := order_lt_of_isLE hle hne
    refine List.pairwise_cons.mpr ⟨List.forall_mem_cons.mpr ⟨hlt, fun s hs => ?_⟩, hrest⟩
    exact ReplicaId.order_lt_trans hlt (List.rel_of_pairwise_cons hrest hs)
  | case3 shards hshort =>
    match shards, hshort with
    | [], _ => exact .nil
    | [s], _ => exact List.pairwise_singleton _ s
    | a :: b :: rest, hshort => exact absurd rfl (hshort a b rest)

theorem pairwise_sortShards (shards : List Shard) :
    (sortShards shards).Pairwise fun a b => (a.id.order b.id).isLE := by
  apply List.pairwise_mergeSort
  · intro a b c
    exact Std.TransCmp.isLE_trans (α := Vector UInt8 16)
  · intro a b
    cases h : a.id.order b.id with
    | lt => rfl
    | eq => rfl
    | gt => simp [ReplicaId.order_gt_iff.mp h]

theorem ascending_sortShards {shards : List Shard} (h : firstRepeated? (sortShards shards) = none) :
    Ascending (sortShards shards) :=
  ascending_of_firstRepeated? (pairwise_sortShards shards) h

theorem canonical_ofShards {shards : List Shard} {c : Context} (h : ofShards shards = .ok c) :
    c.Canonical := by
  unfold ofShards at h
  dsimp only at h
  split at h
  · contradiction
  · rename_i hnone
    obtain ⟨hfit, rfl⟩ := ofSorted?_eq_ok h
    exact canonical_ofSorted (ascending_sortShards hnone) hfit

theorem ascending_mergeInto {left right : List Shard} {merged : Array Shard} {capacity : Nat}
    (hl : Ascending left) (hr : Ascending right)
    (h : mergeInto (Array.emptyWithCapacity capacity) left right = .ok merged) :
    Ascending merged.toList := by
  rw [mergeInto_eq] at h
  obtain ⟨shards, hshards, rfl⟩ := Except.map_eq_ok_iff.mp h
  have hasc := ascending_mergeLists hl hr hshards
  simpa [Array.emptyWithCapacity] using hasc

theorem canonical_empty : empty.Canonical :=
  canonical_ofSorted .nil (positionsFit_of_size_le (Nat.zero_le _))

/-- The ways to stage a shard: as its id is spelled, or as one or the other whatever its spelling. -/
inductive Staging where
  | push (s : Shard)
  | pushPending (s : Shard)
  | pushStable (s : Shard)

def Builder.stage (b : Builder) : Staging → Builder
  | .push s => b.push s
  | .pushPending s => b.pushPending s
  | .pushStable s => b.pushStable s

def Builder.stageAll (stagings : List Staging) : Builder := stagings.foldl Builder.stage {}

/-- An operation that produces a context. The contexts among its arguments are those produced before,
each given by its position. -/
inductive Production where
  | empty
  | increment (m : Minter) (delta : Int64)
  | single (s : Shard)
  /-- Shards that are pending as their flags say, and not as their ids are spelled. -/
  | ofEntries (entries : List (Shard × Bool))
  | build (stagings : List Staging)
  | ofShards (shards : List Shard)
  | decode (bytes : Bytes)
  | merge (left right : Nat)
  | clearPending (source : Nat)

namespace Production

def staging : Shard × Bool → Staging
  | (s, true) => .pushPending s
  | (s, false) => .pushStable s

def perform (produced : List Context) : Production → Option Context
  | .empty => some .empty
  | .increment m delta => some (Context.increment m delta).1
  | .single s => some (.single s)
  | .ofEntries entries => (Builder.stageAll (entries.map staging)).build.toOption
  | .build stagings => (Builder.stageAll stagings).build.toOption
  | .ofShards shards => (Context.ofShards shards).toOption
  | .decode bytes => (Context.decode bytes).toOption
  | .merge left right => do ((← produced[left]?).merge (← produced[right]?)).toOption
  | .clearPending source => produced[source]?.map .clearPending

def run (operations : List Production) : List Context :=
  operations.foldl (fun produced operation => produced ++ (operation.perform produced).toList) []

theorem run_concat (operations : List Production) (operation : Production) :
    run (operations ++ [operation]) =
      run operations ++ (operation.perform (run operations)).toList := by
  rw [run, List.foldl_append]
  rfl

theorem ok_of_toOption {x : Except ContextError Context} {c : Context} (h : x.toOption = some c) :
    x = .ok c := by
  cases x with
  | error e => contradiction
  | ok a => exact congrArg Except.ok (Option.some.inj h)

theorem canonical_perform {produced : List Context} (hproduced : ∀ c ∈ produced, c.Canonical)
    (operation : Production) {c : Context} (h : operation.perform produced = some c) :
    c.Canonical := by
  cases operation with
  | empty =>
    cases h
    exact canonical_empty
  | increment m delta =>
    cases h
    exact canonical_ofSorted_singleton _
  | single s =>
    cases h
    exact canonical_ofSorted_singleton _
  | ofEntries entries => exact canonical_ofShards (ok_of_toOption h)
  | build stagings => exact canonical_ofShards (ok_of_toOption h)
  | ofShards shards => exact canonical_ofShards (ok_of_toOption h)
  | decode bytes => exact canonical_of_decode (ok_of_toOption h)
  | merge left right =>
    obtain ⟨a, ha, h⟩ := Option.bind_eq_some_iff.mp h
    obtain ⟨b, hb, h⟩ := Option.bind_eq_some_iff.mp h
    exact canonical_merge (hproduced a (List.mem_of_getElem? ha))
      (hproduced b (List.mem_of_getElem? hb)) (ok_of_toOption h)
  | clearPending source =>
    obtain ⟨a, ha, rfl⟩ := Option.map_eq_some_iff.mp h
    exact (hproduced a (List.mem_of_getElem? ha)).clearPending

theorem canonical_run (operations : List Production) : ∀ c ∈ run operations, c.Canonical := by
  induction operations using List.reverseRecOn with
  | nil => exact fun _ h => nomatch h
  | append_singleton operations operation ih =>
    intro c hc
    rw [run_concat, List.mem_append, Option.mem_toList] at hc
    rcases hc with hc | hc
    · exact ih c hc
    · exact canonical_perform ih operation hc

/-- Whatever is produced, from whatever, is canonical and has no two shards of one replica. The header
words that it is written with are the numbers they stand for, and what a build or a merge takes to be
ascending is. -/
theorem run_canonical (operations : List Production) :
    (∀ c ∈ run operations, c.Canonical ∧ (c.shards.toList.map (·.id.bytes)).Nodup ∧
      (Bytes.toInt16 (Bytes.bigEndian 2 c.pendingCount)).toInt = c.pendingCount ∧
      ∀ i ∈ pendingIndices c.shards, (Bytes.toInt16 (Bytes.bigEndian 2 i)).toInt = i) ∧
    (∀ shards, firstRepeated? (sortShards shards) = none → Ascending (sortShards shards)) ∧
    ∀ left ∈ run operations, ∀ right ∈ run operations, ∀ merged,
      mergeInto (Array.emptyWithCapacity (left.size + right.size)) left.shards.toList
        right.shards.toList = .ok merged → Ascending merged.toList := by
  have hcanonical := canonical_run operations
  refine ⟨fun c hc => ?_, fun _ => ascending_sortShards, fun left hl right hr _ =>
    ascending_mergeInto (hcanonical left hl).ascending (hcanonical right hr).ascending⟩
  have hc := hcanonical c hc
  refine ⟨hc, Ascending.nodup_bytes hc.ascending, Bytes.toInt_toInt16_bigEndian hc.pendingCount_le,
    fun i hi => Bytes.toInt_toInt16_bigEndian ?_⟩
  obtain ⟨hsize, hpending⟩ := mem_pendingIndices hi
  exact hc.index_le i hsize hpending

def workshop : List Production :=
  [.increment ⟨2, 9⟩ 5, .increment ⟨1, 9⟩ (-3), .merge 0 1, .decode mixedBytes, .merge 3 2,
    .ofEntries [(⟨.stable (.replicate 16 2), 2, 8⟩, true)],
    .build [.pushStable ⟨.pending (.replicate 16 0), 1, 1⟩], .merge 5 6, .merge 4 7, .clearPending 8]

def workpiece : Context :=
  .ofSorted #[⟨.stable (.replicate 16 0), 1, 1⟩,
    ⟨.pending (Bytes.toVector 16 (Minter.idBytes 1 9)), 1, -3⟩,
    ⟨.pending (Bytes.toVector 16 (Minter.idBytes 2 9)), 1, 5⟩,
    ⟨.stable (.replicate 16 1), 3, -1⟩, ⟨.pending (.replicate 16 2), 2, 8⟩]

theorem run_canonical_workpiece : workpiece ∈ run workshop ∧ workpiece.Canonical ∧
    pendingIndices workpiece.shards = [1, 2, 4] ∧
    ∀ i ∈ [1, 2, 4], (Bytes.toInt16 (Bytes.bigEndian 2 i)).toInt = i := by
  have hworkpiece : (run workshop)[8]? = some workpiece := by decide +kernel
  have hmem := List.mem_of_getElem? hworkpiece
  obtain ⟨hcanonical, -, -, hindices⟩ := (run_canonical workshop).1 workpiece hmem
  exact ⟨hmem, hcanonical, rfl, hindices⟩

end Production
end ShardCounter.Context
