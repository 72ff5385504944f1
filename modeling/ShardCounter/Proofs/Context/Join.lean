import Mathlib.Data.Finset.Card
import Mathlib.Data.Set.Basic
import ShardCounter.Proofs.Context.Merge
/-! Canonical contexts as the join of the records they were made from. A merge joins the records of
both sides, so what a context holds depends on the set of records alone, and not on the order in
which they were merged. -/
namespace ShardCounter.Context

/-- `a ≤ b`: some shard of `b` carries all that any shard of `a` does. -/
instance : Preorder Context where
  le a b := ∀ s ∈ a.shards, ∃ t ∈ b.shards, s ≤ t
  le_refl _ s hs := ⟨s, hs, le_refl s⟩
  le_trans _ _ _ hab hbc s hs :=
    have ⟨t, ht, hst⟩ := hab s hs
    have ⟨u, hu, htu⟩ := hbc t ht
    ⟨u, hu, hst.trans htu⟩

def records (c : Context) : Set Shard := {s | s ∈ c.shards}

def replicas (c : Context) : Finset (Vector UInt8 16) :=
  (c.shards.toList.map (·.id.bytes)).toFinset

theorem mem_replicas {c : Context} {bytes : Vector UInt8 16} :
    bytes ∈ c.replicas ↔ ∃ s ∈ c.shards, s.id.bytes = bytes := by
  simp [replicas]

theorem card_replicas {c : Context} (h : c.Canonical) : c.replicas.card = c.size := by
  rw [replicas, List.toFinset_card_of_nodup (Ascending.nodup_bytes h.ascending), List.length_map]
  exact Array.length_toList

/-- No replica is on both sides at one clock with two counts. -/
def Compatible (a b : Context) : Prop := ∀ s ∈ a.shards, ∀ t ∈ b.shards, ¬ s.Conflicts t

instance (a b : Context) : Decidable (a.Compatible b) :=
  inferInstanceAs (Decidable (∀ s ∈ a.shards, ∀ t ∈ b.shards, ¬ s.Conflicts t))

theorem Compatible.symm {a b : Context} (h : a.Compatible b) : b.Compatible a :=
  fun s hs t ht hconflict => h t ht s hs hconflict.symm

/-- The context holds some of the records, and carries all that any of them does. -/
structure IsJoin (c : Context) (records : Set Shard) : Prop where
  mem : ∀ s ∈ c.shards, s ∈ records
  le : ∀ s ∈ records, ∃ t ∈ c.shards, s ≤ t

theorem isJoin_records (c : Context) : c.IsJoin c.records where
  mem _ hs := hs
  le s hs := ⟨s, hs, le_refl s⟩

variable {a b m : Context} {R S : Set Shard}

theorem IsJoin.le_of_bytes_eq {s t : Shard} (hm : Ascending m.shards.toList) (hjoin : m.IsJoin R)
    (ht : t ∈ m.shards) (hs : s ∈ R) (hbytes : s.id.bytes = t.id.bytes) : s ≤ t := by
  obtain ⟨u, hu, hsu⟩ := hjoin.le s hs
  have hut : u = t := hm.eq_of_bytes_eq (Array.mem_toList_iff.mpr hu) (Array.mem_toList_iff.mpr ht)
    (hsu.1.symm.trans hbytes)
  exact hut ▸ hsu

theorem isJoin_union_of_le (h : b ≤ a) : a.IsJoin (a.records ∪ b.records) := by
  constructor
  · intro s hs
    exact .inl hs
  · rintro s (hs | hs)
    · exact ⟨s, hs, le_refl s⟩
    · exact h s hs

theorem IsJoin.mem_of_isJoin (ha : Ascending a.shards.toList) (hjoin : a.IsJoin R)
    (hjoin' : b.IsJoin R) {s : Shard} (hs : s ∈ a.shards.toList) : s ∈ b.shards.toList := by
  have hs := Array.mem_toList_iff.mp hs
  obtain ⟨t, ht, hst⟩ := hjoin'.le s (hjoin.mem s hs)
  have hts := hjoin.le_of_bytes_eq ha hs (hjoin'.mem t ht) hst.1.symm
  rw [le_antisymm hst hts]
  exact Array.mem_toList_iff.mpr ht

theorem IsJoin.shards_eq (ha : Ascending a.shards.toList) (hb : Ascending b.shards.toList)
    (hjoin : a.IsJoin R) (hjoin' : b.IsJoin R) : a.shards = b.shards :=
  Array.toList_inj.mp <| ha.eq_of_mem_iff hb fun _ =>
    ⟨mem_of_isJoin ha hjoin hjoin', mem_of_isJoin hb hjoin' hjoin⟩

theorem IsJoin.unique (ha : a.Canonical) (hb : b.Canonical) (hjoin : a.IsJoin R)
    (hjoin' : b.IsJoin R) : a = b := by
  rw [ha.eq_ofSorted, hb.eq_ofSorted, shards_eq ha.ascending hb.ascending hjoin hjoin']

/-- To join a join is to join what it was made from. -/
theorem IsJoin.union_iff (hm : m.Canonical) (ha : a.IsJoin R) :
    m.IsJoin (a.records ∪ S) ↔ m.IsJoin (R ∪ S) := by
  constructor
  · intro hjoin
    constructor
    · intro s hs
      exact (hjoin.mem s hs).imp_left (ha.mem s)
    · rintro s (hs | hs)
      · obtain ⟨t, ht, hst⟩ := ha.le s hs
        obtain ⟨u, hu, htu⟩ := hjoin.le t (.inl ht)
        exact ⟨u, hu, hst.trans htu⟩
      · exact hjoin.le s (.inr hs)
  · intro hjoin
    constructor
    · intro s hs
      rcases hjoin.mem s hs with hR | hS
      · obtain ⟨t, ht, hst⟩ := ha.le s hR
        have hts := hjoin.le_of_bytes_eq hm.ascending hs (.inl (ha.mem t ht)) hst.1.symm
        rw [le_antisymm hst hts]
        exact .inl ht
      · exact .inr hS
    · rintro s (hs | hs)
      · exact hjoin.le s (.inl (ha.mem s hs))
      · exact hjoin.le s (.inr hs)

/-- A join carries records in conflict by a newer one, which comes from elsewhere. -/
theorem IsJoin.exists_newer (ha : a.Canonical) (hb : b.Canonical) (hm : Ascending m.shards.toList)
    (hjoin : m.IsJoin (a.records ∪ b.records ∪ S)) {s t : Shard} (hs : s ∈ a.shards)
    (ht : t ∈ b.shards) (hconflict : s.Conflicts t) :
    ∃ u ∈ S, s.id.bytes = u.id.bytes ∧ s.clock < u.clock := by
  obtain ⟨u, hu, hsu⟩ := hjoin.le s (.inl (.inl hs))
  have htu := hjoin.le_of_bytes_eq hm hu (.inl (.inr ht)) (hconflict.1.symm.trans hsu.1)
  have hclock := hconflict.clock_lt hsu htu
  rcases hjoin.mem u hu with (hleft | hright) | hS
  · have hus := ha.eq_of_bytes_eq hleft hs hsu.1.symm
    exact absurd (hus ▸ hclock) (UInt64.lt_irrefl _)
  · have hut := hb.eq_of_bytes_eq hright ht htu.1.symm
    exact absurd (hut ▸ hconflict.2.1 ▸ hclock) (UInt64.lt_irrefl _)
  · exact ⟨u, hS, hsu.1, hclock⟩

theorem IsJoin.compatible (ha : a.Canonical) (hb : b.Canonical) (hm : Ascending m.shards.toList)
    (hjoin : m.IsJoin (a.records ∪ b.records)) : a.Compatible b := by
  intro s hs t ht hconflict
  rw [← Set.union_empty (a.records ∪ b.records)] at hjoin
  obtain ⟨u, hu, -⟩ := hjoin.exists_newer ha hb hm hs ht hconflict
  exact hu

theorem isJoin_mergeLists {merged : List Shard}
    (h : mergeLists a.shards.toList b.shards.toList = .ok merged) :
    (ofSorted merged.toArray).IsJoin (a.records ∪ b.records) := by
  constructor
  · intro s hs
    simpa [records] using mem_of_mergeLists h (List.mem_toArray.mp hs)
  · intro s hs
    obtain ⟨t, ht, hst⟩ := le_of_mergeLists h (s := s) (by simpa [records] using hs)
    exact ⟨t, List.mem_toArray.mpr ht, hst⟩

theorem exists_mergeLists_of_merge (ha : a.Canonical) (hb : b.Canonical) (h : a.merge b = .ok m) :
    ∃ merged, mergeLists a.shards.toList b.shards.toList = .ok merged ∧
      PositionsFit merged.toArray ∧ m = ofSorted merged.toArray := by
  rw [merge_eq ha hb] at h
  obtain ⟨merged, hmerged, h⟩ := Except.bind_eq_ok_iff.mp h
  exact ⟨merged, hmerged, ofSorted?_eq_ok h⟩

theorem canonical_merge (ha : a.Canonical) (hb : b.Canonical) (h : a.merge b = .ok m) :
    m.Canonical := by
  obtain ⟨merged, hmerged, hfit, rfl⟩ := exists_mergeLists_of_merge ha hb h
  exact canonical_ofSorted (ascending_mergeLists ha.ascending hb.ascending hmerged) hfit

theorem isJoin_merge (ha : a.Canonical) (hb : b.Canonical) (h : a.merge b = .ok m) :
    m.IsJoin (a.records ∪ b.records) := by
  obtain ⟨merged, hmerged, -, rfl⟩ := exists_mergeLists_of_merge ha hb h
  exact isJoin_mergeLists hmerged

theorem le_merge_left (ha : a.Canonical) (hb : b.Canonical) (h : a.merge b = .ok m) : a ≤ m :=
  fun s hs => (isJoin_merge ha hb h).le s (.inl hs)

theorem le_merge_right (ha : a.Canonical) (hb : b.Canonical) (h : a.merge b = .ok m) : b ≤ m :=
  fun s hs => (isJoin_merge ha hb h).le s (.inr hs)

theorem IsJoin.merge (ha : a.Canonical) (hb : b.Canonical) (hR : a.IsJoin R) (hS : b.IsJoin S)
    (h : a.merge b = .ok m) : m.IsJoin (R ∪ S) := by
  have hm := canonical_merge ha hb h
  have hleft := (IsJoin.union_iff hm hR).mp (isJoin_merge ha hb h)
  rw [Set.union_comm] at hleft ⊢
  exact (IsJoin.union_iff hm hS).mp hleft

theorem merge_eq_left_iff (ha : a.Canonical) (hb : b.Canonical) (h : a.merge b = .ok m) :
    m = a ↔ b ≤ a := by
  constructor
  · rintro rfl
    exact le_merge_right ha hb h
  · intro hle
    exact (isJoin_merge ha hb h).unique (canonical_merge ha hb h) ha (isJoin_union_of_le hle)

theorem merge_eq_right_iff (ha : a.Canonical) (hb : b.Canonical) (h : a.merge b = .ok m) :
    m = b ↔ a ≤ b := by
  constructor
  · rintro rfl
    exact le_merge_left ha hb h
  · intro hle
    have hjoin := isJoin_union_of_le hle
    rw [Set.union_comm] at hjoin
    exact (isJoin_merge ha hb h).unique (canonical_merge ha hb h) hb hjoin

theorem merge_assoc {c ab bc left right : Context} (ha : a.Canonical) (hb : b.Canonical)
    (hc : c.Canonical) (hab : a.merge b = .ok ab) (hleft : ab.merge c = .ok left)
    (hbc : b.merge c = .ok bc) (hright : a.merge bc = .ok right) : left = right := by
  have hab' := canonical_merge ha hb hab
  have hbc' := canonical_merge hb hc hbc
  have hl := (isJoin_merge ha hb hab).merge hab' hc (isJoin_records c) hleft
  have hr := (isJoin_records a).merge ha hbc' (isJoin_merge hb hc hbc) hright
  rw [Set.union_assoc] at hl
  exact hl.unique (canonical_merge hab' hc hleft) (canonical_merge ha hbc' hright) hr

theorem exists_mergeLists_of_compatible (hcompat : a.Compatible b) :
    ∃ merged, mergeLists a.shards.toList b.shards.toList = .ok merged := by
  cases hmerged : mergeLists a.shards.toList b.shards.toList with
  | ok merged => exact ⟨merged, rfl⟩
  | error e =>
    obtain ⟨s, hs, t, ht, hconflict, -⟩ := conflict_of_mergeLists hmerged
    exact absurd hconflict
      (hcompat s (Array.mem_toList_iff.mp hs) t (Array.mem_toList_iff.mp ht))

theorem compatible_of_mergeLists (ha : a.Canonical) (hb : b.Canonical) {merged : List Shard}
    (h : mergeLists a.shards.toList b.shards.toList = .ok merged) : a.Compatible b :=
  (isJoin_mergeLists h).compatible ha hb (ascending_mergeLists ha.ascending hb.ascending h)

theorem compatible_of_merge (ha : a.Canonical) (hb : b.Canonical) (h : a.merge b = .ok m) :
    a.Compatible b :=
  (isJoin_merge ha hb h).compatible ha hb (canonical_merge ha hb h).ascending

/-- Two contexts merge whenever some context is their join, and they merge to that one. -/
theorem merge_eq_ok_iff (ha : a.Canonical) (hb : b.Canonical) :
    a.merge b = .ok m ↔ m.Canonical ∧ m.IsJoin (a.records ∪ b.records) := by
  constructor
  · intro h
    exact ⟨canonical_merge ha hb h, isJoin_merge ha hb h⟩
  · rintro ⟨hm, hjoin⟩
    obtain ⟨merged, hmerged⟩ :=
      exists_mergeLists_of_compatible (hjoin.compatible ha hb hm.ascending)
    have hasc := ascending_mergeLists ha.ascending hb.ascending hmerged
    have hshards : m.shards = merged.toArray :=
      hjoin.shards_eq hm.ascending hasc (isJoin_mergeLists hmerged)
    rw [merge_eq ha hb, hmerged, Except.ok_bind, ← hshards, hm.ofSorted?_shards]

/-- What stops a merge is a conflict between the two sides, which the refusal names, or else a pending
shard among all of them that the header cannot point to. -/
theorem merge_eq_error (ha : a.Canonical) (hb : b.Canonical) {e : ContextError}
    (h : a.merge b = .error e) :
    (∃ s ∈ a.shards, ∃ t ∈ b.shards, s.Conflicts t ∧
      e = .clockCountMismatch s.id.toStable s.clock s.count t.count) ∨
    ∃ (merged : List Shard) (reason : Malformation),
      mergeLists a.shards.toList b.shards.toList = .ok merged ∧ ¬ PositionsFit merged.toArray ∧
      reason.OverLimit ∧ e = .malformed reason := by
  rw [merge_eq ha hb] at h
  cases hmerged : mergeLists a.shards.toList b.shards.toList with
  | error e' =>
    rw [hmerged, Except.error_bind] at h
    cases h
    obtain ⟨s, hs, t, ht, hconflict⟩ := conflict_of_mergeLists hmerged
    exact .inl ⟨s, Array.mem_toList_iff.mp hs, t, Array.mem_toList_iff.mp ht, hconflict⟩
  | ok merged =>
    rw [hmerged, Except.ok_bind] at h
    by_cases hfit : PositionsFit merged.toArray
    · rw [ofSorted?_of_fit hfit] at h
      contradiction
    · obtain ⟨reason, hlimit, herror⟩ := ofSorted?_of_not_fit hfit
      rw [herror] at h
      cases h
      exact .inr ⟨merged, reason, rfl, hfit, hlimit, rfl⟩

theorem merge_of_compatible (ha : a.Canonical) (hb : b.Canonical)
    (hcompat : a.Compatible b) :
    (∃ m, a.merge b = .ok m) ∨ ∃ reason, a.merge b = .error (.malformed reason) := by
  obtain ⟨merged, hmerged⟩ := exists_mergeLists_of_compatible hcompat
  rw [merge_eq ha hb, hmerged, Except.ok_bind]
  by_cases hfit : PositionsFit merged.toArray
  · exact .inl ⟨_, ofSorted?_of_fit hfit⟩
  · obtain ⟨reason, -, herror⟩ := ofSorted?_of_not_fit hfit
    exact .inr ⟨reason, herror⟩

theorem merge_ok_of_card_le (ha : a.Canonical) (hb : b.Canonical)
    (hcompat : a.Compatible b)
    (hcard : (a.replicas ∪ b.replicas).card ≤ maxPendingIndex) : ∃ m, a.merge b = .ok m := by
  obtain ⟨merged, hmerged⟩ := exists_mergeLists_of_compatible hcompat
  have hnodup := (ascending_mergeLists ha.ascending hb.ascending hmerged).nodup_bytes
  have hsub : (merged.map (·.id.bytes)).toFinset ⊆ a.replicas ∪ b.replicas := by
    intro bytes hbytes
    obtain ⟨s, hs, rfl⟩ := List.mem_map.mp (List.mem_toFinset.mp hbytes)
    rw [Finset.mem_union, mem_replicas, mem_replicas]
    rcases mem_of_mergeLists hmerged hs with hs | hs
    · exact .inl ⟨s, Array.mem_toList_iff.mp hs, rfl⟩
    · exact .inr ⟨s, Array.mem_toList_iff.mp hs, rfl⟩
  have hlength : merged.length ≤ maxPendingIndex := by
    calc merged.length = (merged.map (·.id.bytes)).toFinset.card := by
          rw [List.toFinset_card_of_nodup hnodup, List.length_map]
      _ ≤ (a.replicas ∪ b.replicas).card := Finset.card_le_card hsub
      _ ≤ maxPendingIndex := hcard
  rw [merge_eq ha hb, hmerged, Except.ok_bind]
  exact ⟨_, ofSorted?_of_fit (positionsFit_of_size_le (by simpa using hlength))⟩

end ShardCounter.Context
