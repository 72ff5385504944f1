import ShardCounter.Proofs.Context.Alike
import ShardCounter.Proofs.Context.Total
/-! A merge makes up no shard and loses none: what it keeps and what it drops is, marks apart, all that
either side held. So the merged total is that of both sides less the records that were dropped, one for
each replica on both sides. -/
namespace ShardCounter

/-- Picks of any two records one that is not the newer; at equal clocks either will do. -/
def Shard.IsOlder (older : Shard → Shard → Shard) : Prop :=
  ∀ s t, older s t = s ∧ s.clock ≤ t.clock ∨ older s t = t ∧ t.clock ≤ s.clock

def Shard.older (s t : Shard) : Shard := if t.clock < s.clock then t else s

theorem Shard.isOlder_older : IsOlder older := by
  intro s t
  unfold older
  split
  · rename_i hlt
    exact .inr ⟨rfl, UInt64.le_of_lt hlt⟩
  · rename_i hnlt
    exact .inl ⟨rfl, UInt64.not_lt.mp hnlt⟩

theorem Shard.perm_older {older : Shard → Shard → Shard} (holder : IsOlder older) {s t r : Shard}
    (hr : r = s ∨ r = t) (hs : s ≤ r) (ht : t ≤ r) :
    [r.toStable, (older s t).toStable].Perm [s.toStable, t.toStable] := by
  rcases hr with rfl | rfl
  · rcases holder r t with ⟨hpick, hclock⟩ | ⟨hpick, -⟩
    · rw [hpick, le_antisymm (toStable_le_of_clock_le ht hclock) (toStable_mono ht)]
    · rw [hpick]
  · rcases holder s r with ⟨hpick, -⟩ | ⟨hpick, hclock⟩
    · rw [hpick]
      exact .swap ..
    · rw [hpick, le_antisymm (toStable_le_of_clock_le hs hclock) (toStable_mono hs)]

namespace Context

section dropped

variable {older : Shard → Shard → Shard} {left right merged : List Shard} {a b : Shard}

/-- The records that a merge drops, one of each replica that is on both sides. -/
def dropped (older : Shard → Shard → Shard) (left right : List Shard) : List Shard :=
  left.filterMap fun s => (right.find? fun t => s.id.sameShard t.id).map (older s)

theorem dropped_nil_right (left : List Shard) : dropped older left [] = [] :=
  List.filterMap_eq_nil_iff.mpr fun _ _ => rfl

theorem dropped_cons_left (h : ∀ t ∈ right, a.id.bytes ≠ t.id.bytes) :
    dropped older (a :: left) right = dropped older left right := by
  have hnone : (right.find? fun t => a.id.sameShard t.id) = none := by
    simpa [ReplicaId.sameShard] using h
  rw [dropped, List.filterMap_cons, hnone]
  rfl

theorem dropped_cons_right (h : ∀ s ∈ left, s.id.bytes ≠ b.id.bytes) :
    dropped older left (b :: right) = dropped older left right := by
  refine List.filterMap_congr fun s hs => ?_
  rw [List.find?_cons_of_neg (by simpa [ReplicaId.sameShard] using h s hs)]

theorem dropped_cons_cons (h : a.id.bytes = b.id.bytes) :
    dropped older (a :: left) (b :: right) = older a b :: dropped older left (b :: right) := by
  rw [dropped, List.filterMap_cons, List.find?_cons_of_pos (by simpa [ReplicaId.sameShard] using h)]
  rfl

theorem perm_mergeLists (holder : Shard.IsOlder older) (hl : Ascending left) (hr : Ascending right)
    (h : mergeLists left right = .ok merged) :
    ((merged ++ dropped older left right).map Shard.toStable).Perm
      ((left ++ right).map Shard.toStable) := by
  -- Each step of the walk moves a shard of one side, or settles one of both and drops the older.
  fun_induction mergeLists left right generalizing merged with
  | case1 right =>
    cases h
    rw [dropped, List.filterMap_nil, List.append_nil, List.nil_append]
  | case2 left _ =>
    cases h
    rw [dropped_nil_right]
  | case3 a left b right horder ih =>
    obtain ⟨rest, hrest, rfl⟩ := Except.map_eq_ok_iff.mp h
    rw [dropped_cons_left (bytes_ne_of_lt_head horder hr)]
    exact (ih hl.of_cons hr hrest).cons a.toStable
  | case4 a left b right horder ih =>
    obtain ⟨rest, hrest, rfl⟩ := Except.map_eq_ok_iff.mp h
    have hne := bytes_ne_of_lt_head (ReplicaId.order_gt_iff.mp horder) hl
    rw [dropped_cons_right fun s hs => (hne s hs).symm]
    refine ((ih hl hr.of_cons hrest).cons b.toStable).trans ?_
    exact (List.perm_middle.symm).map Shard.toStable
  | case5 a left b right horder r hresolve ih =>
    obtain ⟨rest, hrest, rfl⟩ := Except.map_eq_ok_iff.mp h
    have hbytes := ReplicaId.order_eq_iff.mp horder
    have hne : ∀ s ∈ left, s.id.bytes ≠ b.id.bytes := fun s hs hsb =>
      ReplicaId.bytes_ne_of_order_lt (List.rel_of_pairwise_cons hl hs) (hbytes.trans hsb.symm)
    rw [dropped_cons_cons hbytes, dropped_cons_right hne]
    obtain ⟨hkept, hs, ht⟩ := Shard.resolve_eq_ok hbytes hresolve
    have hsettled := Shard.perm_older holder hkept hs ht
    refine ((List.perm_middle.cons r).map Shard.toStable).trans ?_
    refine (hsettled.append (ih hl.of_cons hr.of_cons hrest)).trans ?_
    exact ((List.perm_middle.cons a).map Shard.toStable).symm
  | case6 => contradiction

end dropped

def sumCounts (shards : List Shard) : Int64 := shards.foldl (fun sum s => sum + s.count) 0

theorem sumCounts_eq (shards : List Shard) :
    sumCounts shards = Int64.ofInt (shards.map (·.count.toInt)).sum := by
  have hfold := foldl_add_ofInt Shard.count shards 0
  rwa [Int.zero_add] at hfold

theorem total_eq_sumCounts (c : Context) : c.total = sumCounts c.shards.toList := by
  rw [total_eq, sumCounts_eq]

theorem sumCounts_append (left right : List Shard) :
    sumCounts (left ++ right) = sumCounts left + sumCounts right := by
  rw [sumCounts_eq, sumCounts_eq, sumCounts_eq, List.map_append, List.sum_append, Int64.ofInt_add]

theorem sumCounts_map_toStable (shards : List Shard) :
    sumCounts (shards.map Shard.toStable) = sumCounts shards :=
  List.foldl_map

theorem sumCounts_congr {left right : List Shard}
    (h : (left.map Shard.toStable).Perm (right.map Shard.toStable)) :
    sumCounts left = sumCounts right := by
  rw [← sumCounts_map_toStable left, ← sumCounts_map_toStable right, sumCounts_eq, sumCounts_eq,
    (h.map _).sum_eq]

variable {a b m : Context}

theorem perm_older_of_merge (ha : a.Canonical) (hb : b.Canonical) (h : a.merge b = .ok m)
    {older : Shard → Shard → Shard} (holder : Shard.IsOlder older) {s t u : Shard}
    (hs : s ∈ a.shards) (ht : t ∈ b.shards) (hu : u ∈ m.shards) (hsu : s.id.bytes = u.id.bytes)
    (htu : t.id.bytes = u.id.bytes) :
    [u.toStable, (older s t).toStable].Perm [s.toStable, t.toStable] := by
  have hasc := (canonical_merge ha hb h).ascending
  have hjoin := isJoin_merge ha hb h
  refine Shard.perm_older holder ?_ (hjoin.le_of_bytes_eq hasc hu (.inl hs) hsu)
    (hjoin.le_of_bytes_eq hasc hu (.inr ht) htu)
  rcases hjoin.mem u hu with hu | hu
  · exact .inl (ha.eq_of_bytes_eq hu hs hsu.symm)
  · exact .inr (hb.eq_of_bytes_eq hu ht htu.symm)

theorem add_dropped_merge (ha : a.Canonical) (hb : b.Canonical) (h : a.merge b = .ok m)
    {older : Shard → Shard → Shard} (holder : Shard.IsOlder older) :
    m.total + sumCounts (dropped older a.shards.toList b.shards.toList) = a.total + b.total ∧
      m.size + (dropped older a.shards.toList b.shards.toList).length = a.size + b.size := by
  obtain ⟨merged, hmerged, -, rfl⟩ := exists_mergeLists_of_merge ha hb h
  have hperm := perm_mergeLists holder ha.ascending hb.ascending hmerged
  constructor
  · rw [total_eq_sumCounts, total_eq_sumCounts, total_eq_sumCounts, ← sumCounts_append,
      ← sumCounts_append]
    exact sumCounts_congr hperm
  · simpa [size, ofSorted] using hperm.length_eq

theorem dropped_of_disjoint (older : Shard → Shard → Shard) (h : Disjoint a.replicas b.replicas) :
    dropped older a.shards.toList b.shards.toList = [] := by
  refine List.filterMap_eq_nil_iff.mpr fun s hs => ?_
  have hleft := mem_replicas.mpr ⟨s, Array.mem_toList_iff.mp hs, rfl⟩
  have hnone : (b.shards.toList.find? fun t => s.id.sameShard t.id) = none := by
    refine List.find?_eq_none.mpr fun t ht hst => ?_
    have hright := mem_replicas.mpr ⟨t, Array.mem_toList_iff.mp ht, rfl⟩
    rw [← beq_iff_eq.mp hst] at hright
    exact Finset.disjoint_left.mp h hleft hright
  rw [hnone]
  rfl

theorem total_clearPending (c : Context) : c.clearPending.total = c.total := by
  unfold clearPending
  split
  · rw [total_eq_sumCounts, total_eq_sumCounts, ofSorted, Array.toList_map, sumCounts_map_toStable]
  · rfl

theorem size_clearPending (c : Context) : c.clearPending.size = c.size := by
  unfold clearPending
  split
  · exact Array.size_map
  · rfl

/-- What a merge comes to has the total, and the size, of both sides less those of the dropped records,
whichever of two records at one clock is taken to be dropped: one record of each replica that is on both
sides, the other being kept. Marks count for nothing. -/
theorem total_merge_less_dropped (ha : a.Canonical) (hb : b.Canonical) (h : a.merge b = .ok m) :
    (∀ older, Shard.IsOlder older →
      m.total = a.total + b.total - sumCounts (dropped older a.shards.toList b.shards.toList) ∧
      m.size + (dropped older a.shards.toList b.shards.toList).length = a.size + b.size ∧
      ∀ s ∈ a.shards, ∀ t ∈ b.shards, ∀ u ∈ m.shards, s.id.bytes = u.id.bytes →
        t.id.bytes = u.id.bytes →
        [u.toStable, (older s t).toStable].Perm [s.toStable, t.toStable]) ∧
    (Disjoint a.replicas b.replicas → m.total = a.total + b.total ∧ m.size = a.size + b.size) ∧
    ∀ c : Context, c.clearPending.total = c.total ∧ c.clearPending.size = c.size := by
  refine ⟨fun older holder => ?_, fun hdisjoint => ?_,
    fun c => ⟨total_clearPending c, size_clearPending c⟩⟩
  · obtain ⟨htotal, hsize⟩ := add_dropped_merge ha hb h holder
    rw [← htotal, Int64.add_sub_cancel]
    exact ⟨rfl, hsize, fun s hs t ht u hu => perm_older_of_merge ha hb h holder hs ht hu⟩
  · have hmerge := add_dropped_merge ha hb h Shard.isOlder_older
    rw [dropped_of_disjoint Shard.older hdisjoint] at hmerge
    simpa [sumCounts] using hmerge

namespace Conservation

def brimming : Context :=
  .ofSorted #[⟨.stable (Bytes.toVector 16 [1]), 1, Int64.maxValue⟩,
    ⟨.pending (Bytes.toVector 16 [2]), 2, 3⟩, ⟨.stable (Bytes.toVector 16 [3]), 1, 2⟩]

def update : Context :=
  .ofSorted #[⟨.stable (Bytes.toVector 16 [2]), 2, 3⟩, ⟨.stable (Bytes.toVector 16 [3]), 2, -4⟩]

def updated : Context :=
  .ofSorted #[⟨.stable (Bytes.toVector 16 [1]), 1, Int64.maxValue⟩,
    ⟨.stable (Bytes.toVector 16 [2]), 2, 3⟩, ⟨.stable (Bytes.toVector 16 [3]), 2, -4⟩]

def apart : Context := .ofSorted #[⟨.pending (Bytes.toVector 16 [4]), 1, 1⟩]

def extended : Context :=
  .ofSorted #[⟨.stable (Bytes.toVector 16 [2]), 2, 3⟩, ⟨.stable (Bytes.toVector 16 [3]), 2, -4⟩,
    ⟨.pending (Bytes.toVector 16 [4]), 1, 1⟩]

end Conservation

open Conservation in
theorem total_merge_less_dropped_of_brimming :
    brimming.total < 0 ∧ updated.total = Int64.maxValue - 1 ∧
    updated.total = brimming.total + update.total -
      sumCounts (dropped Shard.older brimming.shards.toList update.shards.toList) ∧
    updated.total = brimming.total + update.total -
      sumCounts (dropped (fun s t => t.older s) brimming.shards.toList update.shards.toList) ∧
    extended.total = update.total + apart.total ∧ extended.size = update.size + apart.size := by
  have hbrimming : brimming.Canonical := by decide +kernel
  have hupdate : update.Canonical := by decide +kernel
  have hapart : apart.Canonical := by decide +kernel
  have hmerge : brimming.merge update = .ok updated := by decide +kernel
  have hmerge' : update.merge apart = .ok extended := by decide +kernel
  obtain ⟨hdropped, -, -⟩ := total_merge_less_dropped hbrimming hupdate hmerge
  obtain ⟨-, hdisjoint, -⟩ := total_merge_less_dropped hupdate hapart hmerge'
  refine ⟨by decide +kernel, by decide +kernel, ?_, ?_, hdisjoint (by decide +kernel)⟩
  · exact (hdropped Shard.older Shard.isOlder_older).1
  · exact (hdropped (fun s t => t.older s) fun s t => (Shard.isOlder_older t s).symm).1

end Context
end ShardCounter
