import ShardCounter.Proofs.Context.Production
/-! Bisection finds what a scan would: the shard of the replica that is asked for, if there is one. That
it finds no other needs no order; that it does not miss the one needs ascending ids. Where ids ascend
there is one answer only, so any other search by halves finds the same. -/
namespace ShardCounter.Context

section search

variable {shards : Array Shard} {id : ReplicaId} {low high i j : Nat} {s t : Shard}

theorem lt_of_order_lt (hasc : Ascending shards.toList) (hs : shards[i]? = some s)
    (ht : shards[j]? = some t) (horder : s.id.order t.id = .lt) : i < j := by
  obtain ⟨hi, rfl⟩ := Array.getElem?_eq_some_iff.mp hs
  obtain ⟨hj, rfl⟩ := Array.getElem?_eq_some_iff.mp ht
  refine Nat.lt_of_not_le fun hle => ?_
  rcases Nat.lt_or_eq_of_le hle with hlt | rfl
  · have hback := List.pairwise_iff_getElem.mp hasc j i hj hi hlt
    have hself := ReplicaId.order_lt_trans horder hback
    exact ReplicaId.bytes_ne_of_order_lt hself rfl
  · exact ReplicaId.bytes_ne_of_order_lt horder rfl

theorem mem_of_search (h : search shards id low high = some s) :
    s ∈ shards ∧ s.id.bytes = id.bytes := by
  fun_induction search shards id low high with
  | case1 => contradiction
  | case2 low high _ middle t hmiddle horder =>
    cases h
    exact ⟨Array.mem_of_getElem? hmiddle, (ReplicaId.order_eq_iff.mp horder).symm⟩
  | case3 low high _ middle t _ _ ih => exact ih h
  | case4 low high _ middle t _ _ ih => exact ih h
  | case5 => contradiction

theorem search_of_getElem? (hasc : Ascending shards.toList) (hs : shards[i]? = some s)
    (hbytes : s.id.bytes = id.bytes) (hhigh : high ≤ shards.size) (hlow : low ≤ i)
    (hi : i < high) : search shards id low high = some s := by
  have hid (t : Shard) : id.order t.id = s.id.order t.id := ReplicaId.order_congr_left hbytes.symm
  -- The bounds close in on `i` from both sides and it never falls out of them.
  fun_induction search shards id low high with
  | case1 low high _ middle hnone =>
    rw [Array.getElem?_eq_none_iff] at hnone
    omega
  | case2 low high _ middle t hmiddle horder =>
    have hts := (ReplicaId.order_eq_iff.mp horder).symm.trans hbytes.symm
    rw [Ascending.eq_of_bytes_eq hasc (Array.mem_toList_iff.mpr (Array.mem_of_getElem? hmiddle))
      (Array.mem_toList_iff.mpr (Array.mem_of_getElem? hs)) hts]
  | case3 low high _ middle t hmiddle horder ih =>
    rw [hid] at horder
    exact ih (by omega) hlow (lt_of_order_lt hasc hs hmiddle horder)
  | case4 low high _ middle t hmiddle horder ih =>
    rw [hid] at horder
    exact ih hhigh (lt_of_order_lt hasc hmiddle hs (ReplicaId.order_gt_iff.mp horder)) hi
  | case5 => omega

end search

namespace Canonical

variable {c : Context} {id : ReplicaId} {s : Shard}

theorem get?_eq_some_iff (h : c.Canonical) :
    c.get? id = some s ↔ s ∈ c.shards ∧ s.id.bytes = id.bytes := by
  constructor
  · exact mem_of_search
  · rintro ⟨hs, hbytes⟩
    obtain ⟨i, hi, rfl⟩ := Array.getElem_of_mem hs
    exact search_of_getElem? h.ascending (Array.getElem?_eq_getElem hi) hbytes (Nat.le_refl _)
      (Nat.zero_le i) hi

theorem get?_eq_none_iff (h : c.Canonical) :
    c.get? id = none ↔ ∀ s ∈ c.shards, s.id.bytes ≠ id.bytes := by
  simp only [Option.eq_none_iff_forall_ne_some, ne_eq, h.get?_eq_some_iff, not_and]

theorem clock?_of_mem (h : c.Canonical) (hs : s ∈ c.shards) (hbytes : s.id.bytes = id.bytes) :
    c.clock? id = some s.clock := by
  rw [clock?, h.get?_eq_some_iff.mpr ⟨hs, hbytes⟩, Option.map_some]

theorem clock?_eq_none (h : c.Canonical) (hnone : ∀ s ∈ c.shards, s.id.bytes ≠ id.bytes) :
    c.clock? id = none := by
  rw [clock?, h.get?_eq_none_iff.mpr hnone, Option.map_none]

end Canonical

/-- What can be said of a replica: a shard of it, or that there is none. -/
inductive Answers (shards : Array Shard) (id : ReplicaId) : Option Shard → Prop where
  | found (s : Shard) (hs : s ∈ shards) (hbytes : s.id.bytes = id.bytes) : Answers shards id (some s)
  | missing (hnone : ∀ s ∈ shards, s.id.bytes ≠ id.bytes) : Answers shards id none

section Answers

variable {shards : Array Shard} {id : ReplicaId} {answer answer' : Option Shard} {c : Context}

theorem Answers.unique (hasc : Ascending shards.toList) (h : Answers shards id answer)
    (h' : Answers shards id answer') : answer = answer' := by
  cases h with
  | found s hs hbytes =>
    cases h' with
    | found t ht hbytes' =>
      rw [Ascending.eq_of_bytes_eq hasc (Array.mem_toList_iff.mpr hs) (Array.mem_toList_iff.mpr ht)
        (hbytes.trans hbytes'.symm)]
    | missing hnone => exact absurd hbytes (hnone s hs)
  | missing hnone =>
    cases h' with
    | found t ht hbytes => exact absurd hbytes (hnone t ht)
    | missing => rfl

theorem answers_find? (shards : Array Shard) (id : ReplicaId) :
    Answers shards id (shards.find? (·.id.sameShard id)) := by
  cases h : shards.find? (·.id.sameShard id) with
  | none => exact .missing fun s hs hbytes => Array.find?_eq_none.mp h s hs (beq_iff_eq.mpr hbytes)
  | some s =>
    obtain ⟨hsame, -⟩ := Array.find?_eq_some_iff_append.mp h
    exact .found s (Array.mem_of_find?_eq_some h) (beq_iff_eq.mp hsame)

theorem Canonical.answers_get? (h : c.Canonical) (id : ReplicaId) :
    Answers c.shards id (c.get? id) := by
  cases hget : c.get? id with
  | none => exact .missing (h.get?_eq_none_iff.mp hget)
  | some s =>
    obtain ⟨hs, hbytes⟩ := h.get?_eq_some_iff.mp hget
    exact .found s hs hbytes

theorem Answers.map_toStable (h : Answers shards id answer) :
    Answers (shards.map Shard.toStable) id (answer.map Shard.toStable) := by
  cases h with
  | found s hs hbytes => exact .found s.toStable (Array.mem_map_of_mem hs) hbytes
  | missing hnone => exact .missing (Array.forall_mem_map.mpr hnone)

theorem Canonical.get?_eq_find? (h : c.Canonical) (id : ReplicaId) :
    c.get? id = c.shards.find? (·.id.sameShard id) :=
  (h.answers_get? id).unique h.ascending (answers_find? c.shards id)

theorem Canonical.get?_clearPending (h : c.Canonical) (id : ReplicaId) :
    c.clearPending.get? id = (c.get? id).map Shard.toStable := by
  have hanswer := (h.answers_get? id).map_toStable
  rw [← h.shards_clearPending] at hanswer
  exact (h.clearPending.answers_get? id).unique h.clearPending.ascending hanswer

end Answers

/-- Shards in the order of a comparison with a target: those below it, those equal to it, those above. -/
def InOrder (shards : Array Shard) (comparison : Shard → Ordering) : Prop :=
  shards.toList.Pairwise fun a b =>
    (comparison b = .lt → comparison a = .lt) ∧ (comparison a = .gt → comparison b = .gt)

/-- A search for the position of a shard that is equal to the target. It can be relied on where the
comparison is in order; elsewhere it may miss the shard, or point anywhere. -/
structure Locates (locate : Array Shard → (Shard → Ordering) → Option Nat) : Prop where
  found : ∀ shards comparison i, InOrder shards comparison → locate shards comparison = some i →
    ∃ s, shards[i]? = some s ∧ comparison s = .eq
  missing : ∀ shards comparison, InOrder shards comparison → locate shards comparison = none →
    ∀ s ∈ shards, comparison s ≠ .eq

section Locates

variable {shards : Array Shard} {locate : Array Shard → (Shard → Ordering) → Option Nat}

theorem inOrder_of_ascending (hasc : Ascending shards.toList) (id : ReplicaId) :
    InOrder shards (·.id.order id) := by
  refine hasc.imp fun {a b} hab => ⟨ReplicaId.order_lt_trans hab, fun hgt => ?_⟩
  have hlt := ReplicaId.order_lt_trans (ReplicaId.order_gt_iff.mp hgt) hab
  exact ReplicaId.order_gt_iff.mpr hlt

theorem Locates.answers (h : Locates locate) (hasc : Ascending shards.toList) (id : ReplicaId) :
    Answers shards id ((locate shards (·.id.order id)).bind (shards[·]?)) := by
  have horder := inOrder_of_ascending hasc id
  cases hlocate : locate shards (·.id.order id) with
  | none =>
    refine .missing fun s hs hbytes => ?_
    exact h.missing _ _ horder hlocate s hs (ReplicaId.order_eq_iff.mpr hbytes)
  | some i =>
    obtain ⟨s, hs, heq⟩ := h.found _ _ i horder hlocate
    rw [Option.bind_some, hs]
    exact .found s (Array.mem_of_getElem? hs) (ReplicaId.order_eq_iff.mp heq)

theorem locates_findIdx? :
    Locates fun shards comparison => shards.findIdx? fun s => comparison s == .eq where
  found shards comparison i _ h := by
    obtain ⟨hi, heq, -⟩ := Array.findIdx?_eq_some_iff_getElem.mp h
    exact ⟨shards[i], Array.getElem?_eq_getElem hi, beq_iff_eq.mp heq⟩
  missing shards comparison _ h s hs heq := by
    have hne := Array.findIdx?_eq_none_iff.mp h s hs
    exact absurd (beq_iff_eq.mpr heq) (ne_true_of_eq_false hne)

end Locates

/-- Every context there is has its shards in ascending order. So to look up a replica, under either
spelling of its id, finds its one shard as a scan would, and so does any search that can be relied on
in order; clearing changes what is found in its mark alone. -/
theorem lookup_eq_scan :
    (∀ operations, ∀ c ∈ Production.run operations, c.Canonical) ∧
    ∀ c : Context, c.Canonical → ∀ id : ReplicaId,
      c.get? id = c.shards.find? (·.id.sameShard id) ∧
      (∀ s, c.get? id = some s ↔ s ∈ c.shards ∧ s.id.bytes = id.bytes) ∧
      (c.get? id = none ↔ ∀ s ∈ c.shards, s.id.bytes ≠ id.bytes) ∧
      c.clock? id = (c.shards.find? (·.id.sameShard id)).map Shard.clock ∧
      c.clearPending.get? id = (c.get? id).map Shard.toStable ∧
      ∀ locate, Locates locate →
        (locate c.shards (·.id.order id)).bind (c.shards[·]?) = c.get? id := by
  refine ⟨Production.canonical_run, fun c h id => ?_⟩
  refine ⟨h.get?_eq_find? id, fun s => h.get?_eq_some_iff, h.get?_eq_none_iff, ?_,
    h.get?_clearPending id, fun locate hlocate => ?_⟩
  · rw [clock?, h.get?_eq_find?]
  · exact (hlocate.answers h.ascending id).unique h.ascending (h.answers_get? id)

namespace Lookup

def shard (n : UInt8) (isPending : Bool) : Shard := ⟨⟨Bytes.toVector 16 [n], isPending⟩, 4, -1⟩

def alternating : Context :=
  .ofSorted #[shard 1 false, shard 2 true, shard 3 false, shard 4 true]

def productions : List Production :=
  [.single (shard 3 true), .ofEntries [(shard 2 false, true)], .merge 0 1, .ofShards [shard 4 true],
    .merge 3 2, .single (shard 1 false), .merge 4 5]

end Lookup

open Lookup in
theorem lookup_eq_scan_of_alternating :
    alternating ∈ Production.run productions ∧ alternating.Canonical ∧
    alternating.get? (shard 2 false).id = some (shard 2 true) ∧
    alternating.get? (shard 9 true).id = none ∧
    alternating.clock? (shard 3 true).id = some 4 ∧
    alternating.clearPending.get? (shard 2 true).id = some (shard 2 false) ∧
    (alternating.shards.findIdx? fun s => s.id.order (shard 4 false).id == .eq) = some 3 ∧
    alternating.get? (shard 4 false).id = some (shard 4 true) := by
  obtain ⟨hproduced, hlookup⟩ := lookup_eq_scan
  have hlast : (Production.run productions)[6]? = some alternating := by decide +kernel
  have hmem := List.mem_of_getElem? hlast
  have h := hproduced _ alternating hmem
  obtain ⟨-, hfound, -, -, hclear, -⟩ := hlookup alternating h (shard 2 true).id
  obtain ⟨-, hfound', -⟩ := hlookup alternating h (shard 2 false).id
  obtain ⟨-, -, hmissing, -⟩ := hlookup alternating h (shard 9 true).id
  obtain ⟨-, -, -, hclock, -⟩ := hlookup alternating h (shard 3 true).id
  obtain ⟨-, -, -, -, -, hlocate⟩ := hlookup alternating h (shard 4 false).id
  refine ⟨hmem, h, (hfound' _).mpr (by decide +kernel), hmissing.mpr (by decide +kernel), ?_, ?_,
    by decide +kernel, ?_⟩
  · rw [hclock]
    decide +kernel
  · rw [hclear, (hfound (shard 2 true)).mpr (by decide +kernel)]
    rfl
  · rw [← hlocate _ locates_findIdx?]
    decide +kernel

open Lookup in
/-- Two spellings of one id, in the order that compares flags: bisection and a scan do not agree. -/
example :
    search #[shard 1 false, shard 1 true] (shard 1 false).id 0 2 = some (shard 1 true) ∧
    #[shard 1 false, shard 1 true].find? (·.id.sameShard (shard 1 false).id) =
      some (shard 1 false) := by
  decide +kernel

end ShardCounter.Context
