import ShardCounter.Proofs.Context.Production
/-! Shards can be staged in any order. What a build comes to depends on which shards there are and on
nothing else: a replica that occurs twice is refused, the smallest one first, and otherwise the shards
have one ascending order. The sort may leave repeated ids in any order, since it is refused anyway. -/
namespace ShardCounter

theorem ReplicaId.order_lt_of_lt_of_isLE {a b c : ReplicaId} (hab : a.order b = .lt)
    (hbc : (b.order c).isLE) : a.order c = .lt :=
  Std.TransCmp.lt_of_lt_of_isLE (α := Vector UInt8 16) hab hbc

namespace Context

def Repeated (shards : List Shard) (bytes : Vector UInt8 16) : Prop :=
  2 ≤ (shards.map (·.id.bytes)).count bytes

instance (shards : List Shard) (bytes : Vector UInt8 16) : Decidable (Repeated shards bytes) :=
  inferInstanceAs (Decidable (2 ≤ _))

structure FirstRepeated (shards : List Shard) (bytes : Vector UInt8 16) : Prop where
  repeated : Repeated shards bytes
  first : ∀ bytes', Repeated shards bytes' → (compare bytes bytes').isLE

section Repeated

variable {shards shards' : List Shard} {bytes bytes' : Vector UInt8 16}

theorem Repeated.of_perm (hperm : shards.Perm shards') (h : Repeated shards bytes) :
    Repeated shards' bytes := by
  unfold Repeated at h ⊢
  rwa [(hperm.map _).count_eq] at h

theorem FirstRepeated.of_perm (hperm : shards.Perm shards') (h : FirstRepeated shards bytes) :
    FirstRepeated shards' bytes where
  repeated := h.repeated.of_perm hperm
  first bytes' h' := h.first bytes' (h'.of_perm hperm.symm)

theorem FirstRepeated.unique (h : FirstRepeated shards bytes) (h' : FirstRepeated shards bytes') :
    bytes = bytes' :=
  Std.LawfulEqOrd.compare_eq_iff_eq.mp
    (Std.OrientedCmp.isLE_antisymm (h.first bytes' h'.repeated) (h'.first bytes h.repeated))

theorem not_repeated_of_ascending (h : Ascending shards) : ¬ Repeated shards bytes := by
  have hcount := List.nodup_iff_count.mp h.nodup_bytes bytes
  unfold Repeated
  omega

theorem exists_mem_of_repeated (h : Repeated shards bytes) : ∃ s ∈ shards, s.id.bytes = bytes := by
  unfold Repeated at h
  exact List.mem_map.mp (List.one_le_count_iff.mp (by omega))

theorem repeated_cons_self {s : Shard} :
    Repeated (s :: shards) s.id.bytes ↔ ∃ t ∈ shards, t.id.bytes = s.id.bytes := by
  unfold Repeated
  rw [List.map_cons, List.count_cons_self, Nat.succ_le_succ_iff, List.one_le_count_iff,
    List.mem_map]

theorem repeated_cons_of_ne {s : Shard} (h : s.id.bytes ≠ bytes) :
    Repeated (s :: shards) bytes ↔ Repeated shards bytes := by
  unfold Repeated
  rw [List.map_cons, List.count_cons_of_ne h]

/-- Of sorted shards the first two neighbours of one replica are of the smallest that is repeated. -/
theorem firstRepeated_of_sorted {s : Shard}
    (hsorted : shards.Pairwise fun a b => (a.id.order b.id).isLE)
    (h : firstRepeated? shards = some s) : FirstRepeated shards s.id.bytes := by
  fun_induction firstRepeated? shards with
  | case1 a b rest hsame =>
    cases h
    refine ⟨repeated_cons_self.mpr ⟨b, List.mem_cons_self, (beq_iff_eq.mp hsame).symm⟩, ?_⟩
    intro bytes' hrepeated
    obtain ⟨t, ht, rfl⟩ := exists_mem_of_repeated hrepeated
    rcases List.mem_cons.mp ht with rfl | ht
    · exact Std.ReflCmp.isLE_rfl
    · exact List.rel_of_pairwise_cons hsorted ht
  | case2 a b rest hdiffer ih =>
    have hfirst := ih hsorted.of_cons h
    have hlt := order_lt_of_isLE (List.rel_of_pairwise_cons hsorted List.mem_cons_self) hdiffer
    have hne : ∀ t ∈ b :: rest, a.id.bytes ≠ t.id.bytes := by
      refine List.forall_mem_cons.mpr ⟨ReplicaId.bytes_ne_of_order_lt hlt, fun t ht => ?_⟩
      have hle : (b.id.order t.id).isLE := List.rel_of_pairwise_cons hsorted.of_cons ht
      exact ReplicaId.bytes_ne_of_order_lt (ReplicaId.order_lt_of_lt_of_isLE hlt hle)
    obtain ⟨t, ht, hts⟩ := exists_mem_of_repeated hfirst.repeated
    refine ⟨(repeated_cons_of_ne (hts ▸ hne t ht)).mpr hfirst.repeated, fun bytes' hrepeated => ?_⟩
    by_cases hbytes : a.id.bytes = bytes'
    · subst hbytes
      obtain ⟨u, hu, hua⟩ := repeated_cons_self.mp hrepeated
      exact absurd hua.symm (hne u hu)
    · exact hfirst.first bytes' ((repeated_cons_of_ne hbytes).mp hrepeated)
  | case3 => contradiction

end Repeated

/-- What comes of shards that are sorted already. -/
def ofOrdered (sorted : List Shard) : Except ContextError Context :=
  match firstRepeated? sorted with
  | some s => .error (.duplicateReplica s.id.toStable)
  | none => ofSorted? sorted.toArray

section ofOrdered

variable {shards sorted ascending : List Shard} {bytes : Vector UInt8 16}
  (hsorted : sorted.Pairwise fun a b => (a.id.order b.id).isLE)

include hsorted

theorem ofOrdered_of_firstRepeated (h : FirstRepeated sorted bytes) :
    ofOrdered sorted = .error (.duplicateReplica (.stable bytes)) := by
  unfold ofOrdered
  split
  · rename_i s hs
    have hbytes := (firstRepeated_of_sorted hsorted hs).unique h
    rw [ReplicaId.toStable, hbytes]
  · rename_i hnone
    exact absurd h.repeated (not_repeated_of_ascending (ascending_of_firstRepeated? hsorted hnone))

theorem ofOrdered_of_ascending (hperm : ascending.Perm sorted) (hasc : Ascending ascending) :
    ofOrdered sorted = ofSorted? ascending.toArray := by
  unfold ofOrdered
  split
  · rename_i s hs
    have hrepeated := (firstRepeated_of_sorted hsorted hs).repeated
    exact absurd (hrepeated.of_perm hperm.symm) (not_repeated_of_ascending hasc)
  · rename_i hnone
    have hasc' := ascending_of_firstRepeated? hsorted hnone
    rw [hasc.eq_of_mem_iff hasc' fun _ => hperm.mem_iff]

end ofOrdered

theorem perm_sortShards (shards : List Shard) : (sortShards shards).Perm shards :=
  List.mergeSort_perm ..

theorem firstRepeated_or_ascending (shards : List Shard) :
    (∃ bytes, FirstRepeated shards bytes) ∨ ∃ ascending, ascending.Perm shards ∧ Ascending ascending := by
  cases h : firstRepeated? (sortShards shards) with
  | some s =>
    have hfirst := firstRepeated_of_sorted (pairwise_sortShards shards) h
    exact .inl ⟨s.id.bytes, hfirst.of_perm (perm_sortShards shards)⟩
  | none => exact .inr ⟨sortShards shards, perm_sortShards shards, ascending_sortShards h⟩

def Staging.shard : Staging → Shard
  | .push s => s
  | .pushPending s => { s with id := s.id.toPending }
  | .pushStable s => s.toStable

theorem toList_foldl_stage (b : Builder) (stagings : List Staging) :
    (stagings.foldl Builder.stage b).staged.toList =
      b.staged.toList ++ stagings.map Staging.shard := by
  induction stagings generalizing b with
  | nil => exact (List.append_nil _).symm
  | cons staging rest ih =>
    have hstage : (b.stage staging).staged.toList = b.staged.toList ++ [staging.shard] := by
      cases staging <;> exact Array.toList_push
    rw [List.foldl_cons, ih, hstage, List.append_assoc, List.singleton_append, List.map_cons]

theorem build_stageAll (stagings : List Staging) :
    (Builder.stageAll stagings).build = ofShards (stagings.map Staging.shard) :=
  congrArg ofShards (toList_foldl_stage {} stagings)

/-- What a build comes to, in terms of which shards there are. -/
structure Builds (shards : List Shard) (outcome : Except ContextError Context) : Prop where
  refused : (∃ bytes, Repeated shards bytes) → ∃ bytes, FirstRepeated shards bytes ∧
    outcome = .error (.duplicateReplica (.stable bytes))
  ordered : (¬ ∃ bytes, Repeated shards bytes) → ∃ ascending,
    (∀ other, other.Perm shards ∧ Ascending other ↔ other = ascending) ∧
    (PositionsFit ascending.toArray → outcome = .ok (ofSorted ascending.toArray)) ∧
    (¬ PositionsFit ascending.toArray →
      ∃ reason : Malformation, reason.OverLimit ∧ outcome = .error (.malformed reason))

theorem builds_ofOrdered {shards sorted : List Shard} (hperm : sorted.Perm shards)
    (hsorted : sorted.Pairwise fun a b => (a.id.order b.id).isLE) :
    Builds shards (ofOrdered sorted) := by
  rcases firstRepeated_or_ascending shards with ⟨bytes, hfirst⟩ | ⟨ascending, hperm', hasc⟩
  · constructor
    · intro _
      exact ⟨bytes, hfirst, ofOrdered_of_firstRepeated hsorted (hfirst.of_perm hperm.symm)⟩
    · intro hnone
      exact absurd ⟨bytes, hfirst.repeated⟩ hnone
  · constructor
    · rintro ⟨bytes, hrepeated⟩
      exact absurd (hrepeated.of_perm hperm'.symm) (not_repeated_of_ascending hasc)
    · intro _
      refine ⟨ascending, fun other => ⟨?_, ?_⟩, ?_⟩
      · rintro ⟨hother, hother'⟩
        exact hother'.eq_of_mem_iff hasc fun _ => (hother.trans hperm'.symm).mem_iff
      · rintro rfl
        exact ⟨hperm', hasc⟩
      · rw [ofOrdered_of_ascending hsorted (hperm'.trans hperm.symm) hasc]
        exact ⟨ofSorted?_of_fit, ofSorted?_of_not_fit⟩

theorem ofOrdered_congr {sorted sorted' : List Shard} (hperm : sorted.Perm sorted')
    (hsorted : sorted.Pairwise fun a b => (a.id.order b.id).isLE)
    (hsorted' : sorted'.Pairwise fun a b => (a.id.order b.id).isLE) :
    ofOrdered sorted = ofOrdered sorted' := by
  rcases firstRepeated_or_ascending sorted with ⟨bytes, hfirst⟩ | ⟨ascending, hperm', hasc⟩
  · rw [ofOrdered_of_firstRepeated hsorted hfirst,
      ofOrdered_of_firstRepeated hsorted' (hfirst.of_perm hperm)]
  · rw [ofOrdered_of_ascending hsorted hperm' hasc,
      ofOrdered_of_ascending hsorted' (hperm'.trans hperm) hasc]

theorem ofOrdered_eq_ofShards {shards sorted : List Shard} (hperm : sorted.Perm shards)
    (hsorted : sorted.Pairwise fun a b => (a.id.order b.id).isLE) :
    ofOrdered sorted = ofShards shards :=
  ofOrdered_congr (hperm.trans (perm_sortShards shards).symm) hsorted (pairwise_sortShards shards)

theorem ofShards_congr {shards shards' : List Shard} (h : shards.Perm shards') :
    ofShards shards = ofShards shards' :=
  ofOrdered_eq_ofShards ((perm_sortShards shards).trans h) (pairwise_sortShards shards)

theorem Canonical.ofShards_of_perm {c : Context} (hc : c.Canonical) {shards : List Shard}
    (h : shards.Perm c.shards.toList) : ofShards shards = .ok c := by
  have hsorted := h.symm.trans (perm_sortShards shards).symm
  have hbuild : ofShards shards = ofSorted? c.shards.toList.toArray :=
    ofOrdered_of_ascending (pairwise_sortShards shards) hsorted hc.ascending
  rw [hbuild, Array.toArray_toList, hc.ofSorted?_shards]

/-- A build comes to the same whatever the order of staging and whatever sort is used, stable or not.
Entries with flags and bare shards are staged like any other. -/
theorem build_depends_on_shards_only :
    (∀ stagings, Builds (stagings.map Staging.shard) (Builder.stageAll stagings).build) ∧
    (∀ stagings stagings' : List Staging, stagings.Perm stagings' →
      (Builder.stageAll stagings).build = (Builder.stageAll stagings').build) ∧
    (∀ entries entries' : List (Shard × Bool), entries.Perm entries' →
      (Builder.stageAll (entries.map Production.staging)).build =
        (Builder.stageAll (entries'.map Production.staging)).build) ∧
    (∀ shards, ofShards shards = (Builder.stageAll (shards.map .push)).build) ∧
    (∀ shards sorted : List Shard, sorted.Perm shards →
      (sorted.Pairwise fun a b => (a.id.order b.id).isLE) → ofOrdered sorted = ofShards shards) ∧
    ∀ c : Context, c.Canonical → ∀ shards : List Shard, shards.Perm c.shards.toList →
      ofShards shards = .ok c := by
  have hcongr : ∀ stagings stagings' : List Staging, stagings.Perm stagings' →
      (Builder.stageAll stagings).build = (Builder.stageAll stagings').build := by
    intro stagings stagings' hperm
    rw [build_stageAll, build_stageAll, ofShards_congr (hperm.map _)]
  refine ⟨fun stagings => ?_, hcongr, fun entries entries' hperm => hcongr _ _ (hperm.map _),
    fun shards => ?_, fun _ _ => ofOrdered_eq_ofShards, fun c hc _ => hc.ofShards_of_perm⟩
  · rw [build_stageAll]
    exact builds_ofOrdered (perm_sortShards _) (pairwise_sortShards _)
  · have hshards : (shards.map Staging.push).map Staging.shard = shards := by
      rw [List.map_map]
      exact List.map_id shards
    rw [build_stageAll, hshards]

namespace Staging

def doubled : List Staging :=
  [.push ⟨.stable (Bytes.toVector 16 [3]), 1, 1⟩, .pushPending ⟨.stable (Bytes.toVector 16 [2]), 2, 5⟩,
    .push ⟨.stable (Bytes.toVector 16 [1]), 1, 1⟩, .push ⟨.stable (Bytes.toVector 16 [2]), 2, 5⟩,
    .pushStable ⟨.pending (Bytes.toVector 16 [3]), 4, 4⟩]

def doubledInOrder : List Shard :=
  [⟨.stable (Bytes.toVector 16 [1]), 1, 1⟩, ⟨.stable (Bytes.toVector 16 [2]), 2, 5⟩,
    ⟨.pending (Bytes.toVector 16 [2]), 2, 5⟩, ⟨.stable (Bytes.toVector 16 [3]), 4, 4⟩,
    ⟨.stable (Bytes.toVector 16 [3]), 1, 1⟩]

def scattered : List Staging :=
  [.pushPending ⟨.stable (Bytes.toVector 16 [2]), 1, 5⟩, .push ⟨.pending (Bytes.toVector 16 [3]), 2, 7⟩,
    .pushStable ⟨.pending (Bytes.toVector 16 [1]), 1, 1⟩]

def gathered : Context :=
  .ofSorted #[⟨.stable (Bytes.toVector 16 [1]), 1, 1⟩, ⟨.pending (Bytes.toVector 16 [2]), 1, 5⟩,
    ⟨.pending (Bytes.toVector 16 [3]), 2, 7⟩]

end Staging

open Staging in
theorem build_depends_on_shards_only_of_scattered :
    FirstRepeated (doubled.map Staging.shard) (Bytes.toVector 16 [2]) ∧
    (Builder.stageAll doubled).build =
      .error (.duplicateReplica (.stable (Bytes.toVector 16 [2]))) ∧
    (Builder.stageAll scattered.reverse).build = .ok gathered ∧
    ofShards gathered.shards.toList.reverse = .ok gathered := by
  obtain ⟨hbuilds, hcongr, -, -, hsorted, hback⟩ := build_depends_on_shards_only
  have hrefused : (Builder.stageAll doubled).build =
      .error (.duplicateReplica (.stable (Bytes.toVector 16 [2]))) := by
    rw [build_stageAll, ← hsorted _ doubledInOrder (by decide +kernel) (by decide +kernel)]
    decide +kernel
  have hcanonical : gathered.Canonical := by decide +kernel
  refine ⟨?_, hrefused, ?_, hback gathered hcanonical _ (List.reverse_perm _)⟩
  · obtain ⟨bytes, hfirst, hrefused'⟩ :=
      (hbuilds doubled).refused ⟨Bytes.toVector 16 [3], by decide +kernel⟩
    cases hrefused.symm.trans hrefused'
    exact hfirst
  · rw [hcongr scattered.reverse scattered (List.reverse_perm scattered), build_stageAll]
    exact hback gathered hcanonical _ (by decide +kernel)

end Context
end ShardCounter
