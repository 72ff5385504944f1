import ShardCounter.Proofs.Context.Grouping
import ShardCounter.Proofs.Context.Lookup
import ShardCounter.Proofs.Context.Stable
/-! What a merge comes to, replica by replica and without the walk over both sides. Of the conflicts the
one of the smallest id is reported. If there is none the survivors of all replicas, in the order of
ids, are the merged context, or are refused because the header cannot point to the pending ones. -/
namespace ShardCounter

namespace Shard

variable {s t u : Shard}

/-- Of two records of one replica the one of the higher clock. A record of one clock on both sides is
pending if both copies are. -/
def newest (s t : Shard) : Shard :=
  if t.clock < s.clock then s
  else if s.clock < t.clock then t
  else { s with id.isPending := s.isPending && t.isPending }

theorem eq_newest (hs : s ≤ u) (ht : t ≤ u) (h : u = s ∨ u = t) : u = s.newest t := by
  unfold newest
  split
  · rename_i hlt
    refine h.resolve_right fun hut => ?_
    subst hut
    exact absurd (clock_le_of_le hs) (UInt64.not_le.mpr hlt)
  split
  · rename_i hlt
    refine h.resolve_left fun hus => ?_
    subst hus
    exact absurd (clock_le_of_le ht) (UInt64.not_le.mpr hlt)
  · rename_i hnlt hnlt'
    have hclock : s.clock = t.clock :=
      UInt64.le_antisymm (UInt64.not_lt.mp hnlt) (UInt64.not_lt.mp hnlt')
    have hsu : s.clock = u.clock := by
      rcases h with rfl | rfl
      · rfl
      · exact hclock
    have htu : t.clock = u.clock := hclock.symm.trans hsu
    obtain ⟨-, hcount, hpending⟩ := hs.2.resolve_left (hsu ▸ UInt64.lt_irrefl _)
    obtain ⟨-, -, hpending'⟩ := ht.2.resolve_left (htu ▸ UInt64.lt_irrefl _)
    refine le_antisymm (le_iff.mpr ⟨hs.1.symm, .inr ⟨hsu.symm, hcount.symm, fun hboth => ?_⟩⟩)
      (le_iff.mpr ⟨hs.1, .inr ⟨hsu, hcount, fun hu => ?_⟩⟩)
    · obtain ⟨hs, ht⟩ := Bool.and_eq_true_iff.mp hboth
      rcases h with rfl | rfl <;> assumption
    · exact Bool.and_eq_true_iff.mpr ⟨hpending hu, hpending' hu⟩

theorem bytes_newest (hbytes : s.id.bytes = t.id.bytes) : (s.newest t).id.bytes = s.id.bytes := by
  unfold newest
  split
  · rfl
  split
  · exact hbytes.symm
  · rfl

theorem max_clock (s t : Shard) : max (some s.clock) (some t.clock) = some (s.newest t).clock := by
  rw [Option.max_some_some]
  show some (if s.clock ≤ t.clock then t.clock else s.clock) = some (s.newest t).clock
  unfold newest
  by_cases hle : s.clock ≤ t.clock
  · rw [if_pos hle, if_neg (UInt64.not_lt.mpr hle)]
    split
    · rfl
    · rename_i hnlt
      exact congrArg some (UInt64.le_antisymm (UInt64.not_lt.mp hnlt) hle)
  · rw [if_neg hle, if_pos (UInt64.not_le.mp hle)]

theorem not_conflicts_of_resolve (hbytes : s.id.bytes = t.id.bytes) (h : s.resolve t = .ok u) :
    ¬ s.Conflicts t := by
  obtain ⟨hu, hs, ht⟩ := resolve_eq_ok hbytes h
  rcases hu with rfl | rfl
  · exact fun hconflict => not_conflicts_of_le ht hconflict.symm
  · exact not_conflicts_of_le hs

end Shard

namespace Context

structure FirstConflict (left right : List Shard) (s t : Shard) : Prop where
  mem_left : s ∈ left
  mem_right : t ∈ right
  conflicts : s.Conflicts t
  first : ∀ s' ∈ left, ∀ t' ∈ right, s'.Conflicts t' → (s.id.order s'.id).isLE

namespace FirstConflict

variable {left right : List Shard} {a b s t : Shard}

theorem cons_left (h : FirstConflict left right s t) (ha : ∀ t ∈ right, ¬ a.Conflicts t) :
    FirstConflict (a :: left) right s t where
  mem_left := List.mem_cons_of_mem a h.mem_left
  mem_right := h.mem_right
  conflicts := h.conflicts
  first := List.forall_mem_cons.mpr ⟨fun t ht hconflict => absurd hconflict (ha t ht), h.first⟩

theorem cons_right (h : FirstConflict left right s t) (hb : ∀ s ∈ left, ¬ s.Conflicts b) :
    FirstConflict left (b :: right) s t where
  mem_left := h.mem_left
  mem_right := List.mem_cons_of_mem b h.mem_right
  conflicts := h.conflicts
  first s' hs' := List.forall_mem_cons.mpr
    ⟨fun hconflict => absurd hconflict (hb s' hs'), h.first s' hs'⟩

end FirstConflict

theorem firstConflict_of_mergeLists {left right : List Shard} {e : ContextError}
    (hl : Ascending left) (hr : Ascending right) (h : mergeLists left right = .error e) :
    ∃ s t, FirstConflict left right s t ∧
      e = .clockCountMismatch s.id.toStable s.clock s.count t.count := by
  fun_induction mergeLists left right with
  | case1 => contradiction
  | case2 => contradiction
  | case3 a left b right horder ih =>
    obtain ⟨s, t, hfirst, he⟩ := ih hl.of_cons hr (Except.map_eq_error_iff.mp h)
    have hne := bytes_ne_of_lt_head horder hr
    exact ⟨s, t, hfirst.cons_left fun t ht hconflict => hne t ht hconflict.1, he⟩
  | case4 a left b right horder ih =>
    obtain ⟨s, t, hfirst, he⟩ := ih hl hr.of_cons (Except.map_eq_error_iff.mp h)
    have hne := bytes_ne_of_lt_head (ReplicaId.order_gt_iff.mp horder) hl
    exact ⟨s, t, hfirst.cons_right fun s hs hconflict => hne s hs hconflict.1.symm, he⟩
  | case5 a left b right horder r hresolve ih =>
    obtain ⟨s, t, hfirst, he⟩ := ih hl.of_cons hr.of_cons (Except.map_eq_error_iff.mp h)
    have hbytes := ReplicaId.order_eq_iff.mp horder
    refine ⟨s, t, (hfirst.cons_right (b := b) ?_).cons_left ?_, he⟩
    · intro s hs hconflict
      have hlt := List.rel_of_pairwise_cons hl hs
      exact ReplicaId.bytes_ne_of_order_lt hlt (hbytes.trans hconflict.1.symm)
    · refine List.forall_mem_cons.mpr ⟨Shard.not_conflicts_of_resolve hbytes hresolve, ?_⟩
      intro t ht hconflict
      have hlt := List.rel_of_pairwise_cons hr ht
      exact ReplicaId.bytes_ne_of_order_lt hlt (hbytes.symm.trans hconflict.1)
  | case6 a left b right horder e' hresolve =>
    cases h
    obtain ⟨hconflict, he⟩ := Shard.resolve_eq_error (ReplicaId.order_eq_iff.mp horder) hresolve
    refine ⟨a, b, ⟨List.mem_cons_self, List.mem_cons_self, hconflict, ?_⟩, he⟩
    intro s hs t _ _
    rcases List.mem_cons.mp hs with rfl | hs
    · rw [ReplicaId.order_eq_iff.mpr rfl]
      rfl
    · rw [List.rel_of_pairwise_cons hl hs]
      rfl

variable {a b m : Context}

/-- The record of a replica that a merge keeps: the only one there is, or the newest of the two. -/
inductive Survives (a b : Context) : Shard → Prop where
  | onlyLeft (s : Shard) (hs : s ∈ a.shards) (honly : ∀ t ∈ b.shards, t.id.bytes ≠ s.id.bytes) :
    Survives a b s
  | onlyRight (t : Shard) (ht : t ∈ b.shards) (honly : ∀ s ∈ a.shards, s.id.bytes ≠ t.id.bytes) :
    Survives a b t
  | newest (s t : Shard) (hs : s ∈ a.shards) (ht : t ∈ b.shards) (hbytes : s.id.bytes = t.id.bytes) :
    Survives a b (s.newest t)

section IsJoin

variable {s t u : Shard} (ha : a.Canonical) (hb : b.Canonical) (hm : Ascending m.shards.toList)
  (hjoin : m.IsJoin (a.records ∪ b.records))

include ha hb hm hjoin

theorem eq_newest_of_mem (hs : s ∈ a.shards) (ht : t ∈ b.shards) (hbytes : s.id.bytes = t.id.bytes)
    (hu : u ∈ m.shards) (hsu : s.id.bytes = u.id.bytes) : u = s.newest t := by
  refine Shard.eq_newest (hjoin.le_of_bytes_eq hm hu (.inl hs) hsu)
    (hjoin.le_of_bytes_eq hm hu (.inr ht) (hbytes.symm.trans hsu)) ?_
  rcases hjoin.mem u hu with hu | hu
  · exact .inl (ha.eq_of_bytes_eq hu hs hsu.symm)
  · exact .inr (hb.eq_of_bytes_eq hu ht (hsu.symm.trans hbytes))

theorem survives_of_mem (hu : u ∈ m.shards) : Survives a b u := by
  rcases hjoin.mem u hu with hs | ht
  · by_cases hother : ∃ t ∈ b.shards, t.id.bytes = u.id.bytes
    · obtain ⟨t, ht, hbytes⟩ := hother
      rw [eq_newest_of_mem ha hb hm hjoin hs ht hbytes.symm hu rfl]
      exact .newest u t hs ht hbytes.symm
    · exact .onlyLeft u hs fun t ht hbytes => hother ⟨t, ht, hbytes⟩
  · by_cases hother : ∃ s ∈ a.shards, s.id.bytes = u.id.bytes
    · obtain ⟨s, hs, hbytes⟩ := hother
      rw [eq_newest_of_mem ha hb hm hjoin hs ht hbytes hu hbytes]
      exact .newest s u hs ht hbytes
    · exact .onlyRight u ht fun s hs hbytes => hother ⟨s, hs, hbytes⟩

theorem mem_of_survives (h : Survives a b s) : s ∈ m.shards := by
  cases h with
  | onlyLeft _ hs honly =>
    obtain ⟨u, hu, hsu⟩ := hjoin.le s (.inl hs)
    rcases hjoin.mem u hu with hua | hub
    · rwa [ha.eq_of_bytes_eq hs hua hsu.1]
    · exact absurd hsu.1.symm (honly u hub)
  | onlyRight _ ht honly =>
    obtain ⟨u, hu, htu⟩ := hjoin.le s (.inr ht)
    rcases hjoin.mem u hu with hua | hub
    · exact absurd htu.1.symm (honly u hua)
    · rwa [hb.eq_of_bytes_eq ht hub htu.1]
  | newest s t hs ht hbytes =>
    obtain ⟨u, hu, hsu⟩ := hjoin.le s (.inl hs)
    rwa [← eq_newest_of_mem ha hb hm hjoin hs ht hbytes hu hsu.1]

end IsJoin

/-- The survivors of all replicas, in the order of ids. There is no more than one such list. -/
structure Pointwise (a b : Context) (merged : List Shard) : Prop where
  ascending : Ascending merged
  mem_iff : ∀ s, s ∈ merged ↔ Survives a b s

theorem pointwise_mergeLists (ha : a.Canonical) (hb : b.Canonical) {merged : List Shard}
    (h : mergeLists a.shards.toList b.shards.toList = .ok merged) : Pointwise a b merged := by
  have hasc := ascending_mergeLists ha.ascending hb.ascending h
  have hjoin := isJoin_mergeLists h
  refine ⟨hasc, fun s => ⟨fun hs => ?_, fun hs => ?_⟩⟩
  · exact survives_of_mem ha hb hasc hjoin (List.mem_toArray.mpr hs)
  · exact List.mem_toArray.mp (mem_of_survives ha hb hasc hjoin hs)

theorem clock?_merge (ha : a.Canonical) (hb : b.Canonical) (h : a.merge b = .ok m) (id : ReplicaId) :
    m.clock? id = max (a.clock? id) (b.clock? id) := by
  have hm := canonical_merge ha hb h
  have hjoin := isJoin_merge ha hb h
  by_cases hheld : ∃ u ∈ m.shards, u.id.bytes = id.bytes
  · obtain ⟨u, hu, hbytes⟩ := hheld
    rw [hm.clock?_of_mem hu hbytes]
    cases survives_of_mem ha hb hm.ascending hjoin hu with
    | onlyLeft _ hs honly =>
      rw [ha.clock?_of_mem hs hbytes, hb.clock?_eq_none fun t ht => hbytes ▸ honly t ht,
        Option.max_none_right]
    | onlyRight _ ht honly =>
      rw [hb.clock?_of_mem ht hbytes, ha.clock?_eq_none fun s hs => hbytes ▸ honly s hs,
        Option.max_none_left]
    | newest s t hs ht hst =>
      have hsid : s.id.bytes = id.bytes := (Shard.bytes_newest hst).symm.trans hbytes
      rw [ha.clock?_of_mem hs hsid, hb.clock?_of_mem ht (hst.symm.trans hsid), Shard.max_clock]
  · have hnone : ∀ s ∈ a.records ∪ b.records, s.id.bytes ≠ id.bytes := by
      intro s hs hbytes
      obtain ⟨u, hu, hsu⟩ := hjoin.le s hs
      exact hheld ⟨u, hu, hsu.1.symm.trans hbytes⟩
    rw [hm.clock?_eq_none fun u hu hbytes => hheld ⟨u, hu, hbytes⟩,
      ha.clock?_eq_none fun s hs => hnone s (.inl hs),
      hb.clock?_eq_none fun t ht => hnone t (.inr ht), Option.max_none_left]

/-- Conflicts apart, a merge comes to the survivors of all replicas; what fails it is the first conflict,
or else the header's limits, and those only where there are pending shards. No clock is lost. -/
theorem merge_pointwise (ha : a.Canonical) (hb : b.Canonical) :
    (¬ a.Compatible b → ∃ s t, FirstConflict a.shards.toList b.shards.toList s t ∧
      a.merge b = .error (.clockCountMismatch s.id.toStable s.clock s.count t.count)) ∧
    (a.Compatible b → ∃ merged, Pointwise a b merged ∧
      (PositionsFit merged.toArray → a.merge b = .ok (ofSorted merged.toArray)) ∧
      (¬ PositionsFit merged.toArray →
        ∃ reason : Malformation, reason.OverLimit ∧ a.merge b = .error (.malformed reason))) ∧
    (a.hasPending = false → b.hasPending = false → ∀ e, a.merge b = .error e →
      ∃ replica clock left right, e = .clockCountMismatch replica clock left right) ∧
    ∀ m, a.merge b = .ok m → ∀ id, m.clock? id = max (a.clock? id) (b.clock? id) := by
  refine ⟨?_, ?_, ?_, fun m => clock?_merge ha hb⟩
  · intro hconflict
    rw [merge_eq ha hb]
    cases hmerged : mergeLists a.shards.toList b.shards.toList with
    | ok merged => exact absurd (compatible_of_mergeLists ha hb hmerged) hconflict
    | error e =>
      obtain ⟨s, t, hfirst, rfl⟩ := firstConflict_of_mergeLists ha.ascending hb.ascending hmerged
      exact ⟨s, t, hfirst, rfl⟩
  · intro hcompat
    obtain ⟨merged, hmerged⟩ := exists_mergeLists_of_compatible hcompat
    refine ⟨merged, pointwise_mergeLists ha hb hmerged, ?_⟩
    rw [merge_eq ha hb, hmerged, Except.ok_bind]
    exact ⟨ofSorted?_of_fit, ofSorted?_of_not_fit⟩
  · intro hleft hright e h
    rcases merge_eq_error ha hb h with ⟨s, -, t, -, -, rfl⟩ | ⟨merged, -, hmerged, hfit, -⟩
    · exact ⟨_, _, _, _, rfl⟩
    · refine absurd (positionsFit_of_stable fun s hs => ?_) hfit
      rcases mem_of_mergeLists hmerged (List.mem_toArray.mp hs) with hs | hs
      · exact ha.isPending_eq_false hleft s (Array.mem_toList_iff.mp hs)
      · exact hb.isPending_eq_false hright s (Array.mem_toList_iff.mp hs)

namespace Pointwise

def ours : Context :=
  .ofSorted #[⟨.stable (Bytes.toVector 16 [1]), 1, 5⟩, ⟨.stable (Bytes.toVector 16 [2]), 2, 3⟩,
    ⟨.stable (Bytes.toVector 16 [3]), 4, 1⟩]

def theirs : Context :=
  .ofSorted #[⟨.pending (Bytes.toVector 16 [2]), 2, 3⟩, ⟨.pending (Bytes.toVector 16 [3]), 5, 9⟩]

def joined : Context :=
  .ofSorted #[⟨.stable (Bytes.toVector 16 [1]), 1, 5⟩, ⟨.stable (Bytes.toVector 16 [2]), 2, 3⟩,
    ⟨.pending (Bytes.toVector 16 [3]), 5, 9⟩]

def torn : Context :=
  .ofSorted #[⟨.stable (Bytes.toVector 16 [2]), 2, 4⟩, ⟨.stable (Bytes.toVector 16 [3]), 4, 0⟩]

end Pointwise

open Context.Pointwise Grouping in
theorem merge_pointwise_of_torn :
    (∃ s t, FirstConflict ours.shards.toList torn.shards.toList s t ∧
      ours.merge torn = .error (.clockCountMismatch s.id.toStable s.clock s.count t.count)) ∧
    (∃ replica clock left right,
      ContextError.clockCountMismatch (.stable (Bytes.toVector 16 [2])) 2 3 4 =
        .clockCountMismatch replica clock left right) ∧
    (∃ merged, Pointwise ours theirs merged ∧ ours.merge theirs = .ok (ofSorted merged.toArray)) ∧
    joined.clock? (.pending (Bytes.toVector 16 [3])) = some 5 ∧
    ∃ reason : Malformation, reason.OverLimit ∧ crowded.merge minted = .error (.malformed reason) := by
  have hours : ours.Canonical := by decide +kernel
  have htorn : torn.Canonical := by decide +kernel
  have htheirs : theirs.Canonical := by decide +kernel
  have hminted : minted.Canonical := canonical_ofSorted_singleton _
  have hmerge : ours.merge theirs = .ok joined := by decide +kernel
  obtain ⟨hconflict, -, hstable, -⟩ := merge_pointwise hours htorn
  obtain ⟨-, hcompatible, -, hclock⟩ := merge_pointwise hours htheirs
  obtain ⟨-, hcompatible', -⟩ := merge_pointwise canonical_crowded hminted
  refine ⟨hconflict (by decide +kernel), hstable (by decide +kernel) (by decide +kernel) _
    (by decide +kernel), ?_, ?_, ?_⟩
  · obtain ⟨merged, hmerged, hfit, hnotfit⟩ := hcompatible (by decide +kernel)
    refine ⟨merged, hmerged, hfit ?_⟩
    by_contra h
    obtain ⟨reason, -, herror⟩ := hnotfit h
    rw [hmerge] at herror
    contradiction
  · rw [hclock joined hmerge]
    decide +kernel
  · obtain ⟨merged, -, hfit, hnotfit⟩ := hcompatible' fun s hs t ht hconflict => by
      obtain ⟨n, -, rfl⟩ := List.mem_map.mp (List.mem_toArray.mp hs)
      rw [Array.mem_singleton.mp ht] at hconflict
      exact hconflict.2.2 rfl
    exact hnotfit fun h => not_merge_crowded_minted ⟨_, hfit h⟩

end Context
end ShardCounter
