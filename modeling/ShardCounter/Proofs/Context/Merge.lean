import ShardCounter.Context.Merge
import ShardCounter.Proofs.Except
import ShardCounter.Proofs.Context.Canonical
import ShardCounter.Proofs.Shard.Version
/-! What a merge keeps. The merged shards are records of either side, and no record of either side
is lost: a merged shard carries all that it does. Nothing but a conflict between the two sides, or a
pending shard past the header's reach, stops a merge. -/
namespace ShardCounter

namespace Shard

variable {a b s : Shard}

theorem resolve_eq_ok (hbytes : a.id.bytes = b.id.bytes) (h : a.resolve b = .ok s) :
    (s = a ∨ s = b) ∧ a ≤ s ∧ b ≤ s := by
  unfold resolve at h
  split at h
  · rename_i hlt
    cases h
    exact ⟨.inl rfl, le_refl a, hbytes.symm, .inl hlt⟩
  split at h
  · rename_i hlt
    cases h
    exact ⟨.inr rfl, ⟨hbytes, .inl hlt⟩, le_refl b⟩
  rename_i hnlt hnlt'
  have hclock : a.clock = b.clock :=
    UInt64.le_antisymm (UInt64.not_lt.mp hnlt) (UInt64.not_lt.mp hnlt')
  split at h
  · contradiction
  rename_i hcount
  have hcount : a.count = b.count := not_ne_iff.mp hcount
  split at h
  · rename_i hpending
    cases h
    rw [Bool.and_eq_true] at hpending
    exact ⟨.inl rfl, le_refl a, hbytes.symm, .inr ⟨hclock.symm, hcount.symm, fun _ => hpending.2⟩⟩
  · rename_i hpending
    cases h
    have ha : a ≤ a.toStable := ⟨rfl, .inr ⟨rfl, rfl, fun h => nomatch h⟩⟩
    have hb : b ≤ a.toStable :=
      ⟨hbytes.symm, .inr ⟨hclock.symm, hcount.symm, fun h => nomatch h⟩⟩
    refine ⟨?_, ha, hb⟩
    rw [Bool.and_eq_true, not_and_or, Bool.not_eq_true, Bool.not_eq_true] at hpending
    rcases hpending with hstable | hstable
    · exact .inl (toStable_eq_self hstable)
    · -- Between agreeing records the stable spelling of one is the other.
      have hab : a.toStable ≤ b :=
        le_iff.mpr ⟨hbytes, .inr ⟨hclock, hcount, fun hpending => ?_⟩⟩
      · exact .inr (le_antisymm hab hb)
      · rw [hstable] at hpending
        contradiction

theorem resolve_eq_error {e : ContextError} (hbytes : a.id.bytes = b.id.bytes)
    (h : a.resolve b = .error e) :
    a.Conflicts b ∧ e = .clockCountMismatch a.id.toStable a.clock a.count b.count := by
  unfold resolve at h
  split at h
  · contradiction
  split at h
  · contradiction
  rename_i hnlt hnlt'
  have hclock : a.clock = b.clock :=
    UInt64.le_antisymm (UInt64.not_lt.mp hnlt) (UInt64.not_lt.mp hnlt')
  split at h
  · rename_i hcount
    cases h
    exact ⟨⟨hbytes, hclock, hcount⟩, rfl⟩
  · split at h <;> contradiction

end Shard

namespace Context

def mergeLists : List Shard → List Shard → Except ContextError (List Shard)
  | [], right => .ok right
  | left, [] => .ok left
  | a :: left, b :: right =>
    match a.id.order b.id with
    | .lt => (a :: ·) <$> mergeLists left (b :: right)
    | .gt => (b :: ·) <$> mergeLists (a :: left) right
    | .eq =>
      match a.resolve b with
      | .ok s => (s :: ·) <$> mergeLists left right
      | .error e => .error e
termination_by left right => left.length + right.length

theorem mergeLists_nil_right (left : List Shard) : mergeLists left [] = .ok left := by
  cases left <;> rw [mergeLists]
  exact List.cons_ne_nil _ _

theorem mergeInto_eq (merged : Array Shard) (left right : List Shard) :
    mergeInto merged left right = merged.appendList <$> mergeLists left right := by
  fun_induction mergeLists left right generalizing merged with
  | case1 right => rw [mergeInto, Except.map_ok]
  | case2 left hleft =>
    rw [mergeInto, Except.map_ok]
    exact hleft
  | case3 a left b right horder ih =>
    rw [mergeInto, horder]
    dsimp only
    rw [ih]
    cases mergeLists left (b :: right) <;> simp
  | case4 a left b right horder ih =>
    rw [mergeInto, horder]
    dsimp only
    rw [ih]
    cases mergeLists (a :: left) right <;> simp
  | case5 a left b right horder s hresolve ih =>
    rw [mergeInto, horder]
    dsimp only
    rw [hresolve]
    dsimp only
    rw [ih]
    cases mergeLists left right <;> simp
  | case6 a left b right horder e hresolve =>
    rw [mergeInto, horder]
    dsimp only
    rw [hresolve, Except.map_error]

section mergeLists

variable {left right merged : List Shard} {s : Shard}

theorem mem_of_mergeLists (h : mergeLists left right = .ok merged) (hs : s ∈ merged) :
    s ∈ left ∨ s ∈ right := by
  fun_induction mergeLists left right generalizing merged with
  | case1 right =>
    cases h
    exact .inr hs
  | case2 left _ =>
    cases h
    exact .inl hs
  | case3 a left b right _ ih =>
    obtain ⟨rest, hrest, rfl⟩ := Except.map_eq_ok_iff.mp h
    rcases List.mem_cons.mp hs with rfl | hs
    · exact .inl List.mem_cons_self
    · exact (ih hrest hs).imp_left (List.mem_cons_of_mem a)
  | case4 a left b right _ ih =>
    obtain ⟨rest, hrest, rfl⟩ := Except.map_eq_ok_iff.mp h
    rcases List.mem_cons.mp hs with rfl | hs
    · exact .inr List.mem_cons_self
    · exact (ih hrest hs).imp_right (List.mem_cons_of_mem b)
  | case5 a left b right horder r hresolve ih =>
    obtain ⟨rest, hrest, rfl⟩ := Except.map_eq_ok_iff.mp h
    have hbytes := ReplicaId.order_eq_iff.mp horder
    rcases List.mem_cons.mp hs with rfl | hs
    · rcases (Shard.resolve_eq_ok hbytes hresolve).1 with rfl | rfl
      · exact .inl List.mem_cons_self
      · exact .inr List.mem_cons_self
    · exact (ih hrest hs).imp (List.mem_cons_of_mem a) (List.mem_cons_of_mem b)
  | case6 => contradiction

theorem le_of_mergeLists (h : mergeLists left right = .ok merged) (hs : s ∈ left ∨ s ∈ right) :
    ∃ t ∈ merged, s ≤ t := by
  fun_induction mergeLists left right generalizing merged with
  | case1 right =>
    cases h
    exact ⟨s, hs.resolve_left List.not_mem_nil, le_refl s⟩
  | case2 left _ =>
    cases h
    exact ⟨s, hs.resolve_right List.not_mem_nil, le_refl s⟩
  | case3 a left b right _ ih =>
    obtain ⟨rest, hrest, rfl⟩ := Except.map_eq_ok_iff.mp h
    rw [List.mem_cons, or_assoc] at hs
    rcases hs with rfl | hs
    · exact ⟨s, List.mem_cons_self, le_refl s⟩
    · obtain ⟨t, ht, hle⟩ := ih hrest hs
      exact ⟨t, List.mem_cons_of_mem a ht, hle⟩
  | case4 a left b right _ ih =>
    obtain ⟨rest, hrest, rfl⟩ := Except.map_eq_ok_iff.mp h
    rw [List.mem_cons (a := s) (b := b), or_left_comm] at hs
    rcases hs with rfl | hs
    · exact ⟨s, List.mem_cons_self, le_refl s⟩
    · obtain ⟨t, ht, hle⟩ := ih hrest hs
      exact ⟨t, List.mem_cons_of_mem b ht, hle⟩
  | case5 a left b right horder r hresolve ih =>
    obtain ⟨rest, hrest, rfl⟩ := Except.map_eq_ok_iff.mp h
    obtain ⟨-, hleft, hright⟩ := Shard.resolve_eq_ok (ReplicaId.order_eq_iff.mp horder) hresolve
    rw [List.mem_cons, List.mem_cons, or_or_or_comm] at hs
    rcases hs with hs | hs
    · refine ⟨r, List.mem_cons_self, ?_⟩
      rcases hs with rfl | rfl
      · exact hleft
      · exact hright
    · obtain ⟨t, ht, hle⟩ := ih hrest hs
      exact ⟨t, List.mem_cons_of_mem r ht, hle⟩
  | case6 => contradiction

theorem ascending_mergeLists (hl : Ascending left) (hr : Ascending right)
    (h : mergeLists left right = .ok merged) : Ascending merged := by
  fun_induction mergeLists left right generalizing merged with
  | case1 right =>
    cases h
    exact hr
  | case2 left _ =>
    cases h
    exact hl
  | case3 a left b right horder ih =>
    obtain ⟨rest, hrest, rfl⟩ := Except.map_eq_ok_iff.mp h
    obtain ⟨ha, hl⟩ := List.pairwise_cons.mp hl
    refine List.pairwise_cons.mpr ⟨fun s hs => ?_, ih hl hr hrest⟩
    rcases mem_of_mergeLists hrest hs with hs | hs
    · exact ha s hs
    · rcases List.mem_cons.mp hs with rfl | hs
      · exact horder
      · exact ReplicaId.order_lt_trans horder (List.rel_of_pairwise_cons hr hs)
  | case4 a left b right horder ih =>
    obtain ⟨rest, hrest, rfl⟩ := Except.map_eq_ok_iff.mp h
    have horder := ReplicaId.order_gt_iff.mp horder
    obtain ⟨hb, hr⟩ := List.pairwise_cons.mp hr
    refine List.pairwise_cons.mpr ⟨fun s hs => ?_, ih hl hr hrest⟩
    rcases mem_of_mergeLists hrest hs with hs | hs
    · rcases List.mem_cons.mp hs with rfl | hs
      · exact horder
      · exact ReplicaId.order_lt_trans horder (List.rel_of_pairwise_cons hl hs)
    · exact hb s hs
  | case5 a left b right horder r hresolve ih =>
    obtain ⟨rest, hrest, rfl⟩ := Except.map_eq_ok_iff.mp h
    obtain ⟨ha, hl⟩ := List.pairwise_cons.mp hl
    obtain ⟨hb, hr⟩ := List.pairwise_cons.mp hr
    have hbytes := ReplicaId.order_eq_iff.mp horder
    have hr_id : r.id.bytes = a.id.bytes := by
      rcases (Shard.resolve_eq_ok hbytes hresolve).1 with rfl | rfl
      · rfl
      · exact hbytes.symm
    refine List.pairwise_cons.mpr ⟨fun s hs => ?_, ih hl hr hrest⟩
    rcases mem_of_mergeLists hrest hs with hs | hs
    · rw [ReplicaId.order_congr_left hr_id]
      exact ha s hs
    · rw [ReplicaId.order_congr_left (hr_id.trans hbytes)]
      exact hb s hs
  | case6 => contradiction

theorem conflict_of_mergeLists {e : ContextError} (h : mergeLists left right = .error e) :
    ∃ a ∈ left, ∃ b ∈ right, a.Conflicts b ∧
      e = .clockCountMismatch a.id.toStable a.clock a.count b.count := by
  fun_induction mergeLists left right with
  | case1 => contradiction
  | case2 => contradiction
  | case3 a left b right _ ih =>
    obtain ⟨x, hx, y, hy, hxy⟩ := ih (Except.map_eq_error_iff.mp h)
    exact ⟨x, List.mem_cons_of_mem a hx, y, hy, hxy⟩
  | case4 a left b right _ ih =>
    obtain ⟨x, hx, y, hy, hxy⟩ := ih (Except.map_eq_error_iff.mp h)
    exact ⟨x, hx, y, List.mem_cons_of_mem b hy, hxy⟩
  | case5 a left b right _ r _ ih =>
    obtain ⟨x, hx, y, hy, hxy⟩ := ih (Except.map_eq_error_iff.mp h)
    exact ⟨x, List.mem_cons_of_mem a hx, y, List.mem_cons_of_mem b hy, hxy⟩
  | case6 a left b right horder e' hresolve =>
    cases h
    have hconflict := Shard.resolve_eq_error (ReplicaId.order_eq_iff.mp horder) hresolve
    exact ⟨a, List.mem_cons_self, b, List.mem_cons_self, hconflict⟩

end mergeLists

variable {a b c : Context}

theorem merge_eq (ha : a.Canonical) (hb : b.Canonical) :
    a.merge b =
      (do ofSorted? (← mergeLists a.shards.toList b.shards.toList).toArray) := by
  unfold merge
  split
  · rename_i hempty
    have hright : b.shards.toList = [] := by simpa [isEmpty] using hempty
    rw [hright, mergeLists_nil_right, Except.ok_bind, Array.toArray_toList, ha.ofSorted?_shards]
  split
  · rename_i hempty
    have hleft : a.shards.toList = [] := by simpa [isEmpty] using hempty
    rw [hleft, mergeLists, Except.ok_bind, Array.toArray_toList, hb.ofSorted?_shards]
  · rw [mergeInto_eq]
    cases mergeLists a.shards.toList b.shards.toList <;> simp [Array.emptyWithCapacity]

end Context
end ShardCounter
