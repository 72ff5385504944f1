import ShardCounter.Proofs.Context.Grouping
import ShardCounter.Proofs.Context.Staging
/-! Shards built into a context at once, or merged into it one by one. Each merge checks what the wire
header has room for, the build only once at the end; but a part of the shards asks no more of the
header than all of them do, so the two ways come to the same. -/
namespace ShardCounter.Context

abbrev Distinct (shards : List Shard) : Prop := (shards.map (·.id.bytes)).Nodup

/-- Canonical, and made of just these shards. -/
structure Gathers (c : Context) (shards : List Shard) : Prop where
  canonical : c.Canonical
  mem_iff : ∀ s, s ∈ c.shards ↔ s ∈ shards

def AtLimit {α : Type} (outcome : Except ContextError α) : Prop :=
  ∃ reason : Malformation, reason.OverLimit ∧ outcome = .error (.malformed reason)

def alone (s : Shard) : Context := ofSorted #[s]

variable {a c m : Context} {shards few many rest : List Shard} {s first : Shard}

theorem Gathers.unique (ha : a.Gathers shards) (hc : c.Gathers shards) : a = c :=
  ha.canonical.eq_of_mem_iff hc.canonical fun s => (ha.mem_iff s).trans (hc.mem_iff s).symm

theorem gathers_alone (s : Shard) : (alone s).Gathers [s] where
  canonical := canonical_ofSorted_singleton s
  mem_iff t := by simp [alone, ofSorted]

theorem Gathers.exists_part (h : c.Gathers many) (hpart : few ⊆ many) :
    ∃ part : Context, part.Gathers few := by
  let kept := c.shards.toList.filter (· ∈ few)
  have hasc : Ascending kept := h.canonical.ascending.filter _
  have hkept : ∀ s ∈ kept, s ∈ c.shards.toList := fun s hs => List.mem_of_mem_filter hs
  refine ⟨ofSorted kept.toArray, canonical_ofSorted hasc ?_, ?_⟩
  · apply PositionsFit.of_idsWithin hasc h.canonical.ascending _ _ h.canonical.positionsFit
    · intro s hs
      exact ⟨s, hkept s hs, rfl⟩
    · intro s hs hpending t ht hbytes
      rwa [Ascending.eq_of_bytes_eq h.canonical.ascending ht (hkept s hs) hbytes]
  · intro s
    have hmem : s ∈ few → s ∈ c.shards := fun hs => (h.mem_iff s).mpr (hpart hs)
    simpa [ofSorted, kept] using hmem

theorem isJoin_iff_mem (hids : Distinct shards) :
    c.IsJoin {s | s ∈ shards} ↔ ∀ s, s ∈ c.shards ↔ s ∈ shards := by
  constructor
  · intro hjoin s
    refine ⟨hjoin.mem s, fun hs => ?_⟩
    obtain ⟨t, ht, hst⟩ := hjoin.le s hs
    rwa [List.inj_on_of_nodup_map hids hs (hjoin.mem t ht) hst.1]
  · intro hmem
    constructor
    · intro s hs
      exact (hmem s).mp hs
    · intro s hs
      exact ⟨s, (hmem s).mpr hs, le_refl s⟩

theorem records_union_alone (ha : a.Gathers shards) (s : Shard) :
    a.records ∪ (alone s).records = {t | t ∈ shards ++ [s]} := by
  ext t
  simp [records, ha.mem_iff, (gathers_alone s).mem_iff, or_comm]

section merge

variable (hids : Distinct (shards ++ [s])) (ha : a.Gathers shards)

include hids ha

theorem merge_alone_eq_ok_iff : a.merge (alone s) = .ok m ↔ m.Gathers (shards ++ [s]) := by
  rw [merge_eq_ok_iff ha.canonical (gathers_alone s).canonical, records_union_alone ha,
    isJoin_iff_mem hids]
  exact ⟨fun ⟨hm, hmem⟩ => ⟨hm, hmem⟩, fun h => ⟨h.canonical, h.mem_iff⟩⟩

theorem merge_alone_cases : (∃ m, a.merge (alone s) = .ok m) ∨ AtLimit (a.merge (alone s)) := by
  cases hmerge : a.merge (alone s) with
  | ok m => exact .inl ⟨m, rfl⟩
  | error e =>
    rcases merge_eq_error ha.canonical (gathers_alone s).canonical hmerge with
      ⟨t, ht, u, hu, hconflict, -⟩ | ⟨-, reason, -, -, hlimit, rfl⟩
    · have ht := List.mem_append_left [s] ((ha.mem_iff t).mp ht)
      have hu := List.mem_append_right shards (((gathers_alone s).mem_iff u).mp hu)
      have htu : t = u := List.inj_on_of_nodup_map hids ht hu hconflict.1
      exact absurd (htu ▸ hconflict) (Shard.not_conflicts_of_le (le_refl u))
    · exact .inr ⟨reason, hlimit, rfl⟩

end merge

def mergeEach (first : Shard) (rest : List Shard) : Except ContextError Context :=
  (rest.map alone).foldlM merge (alone first)

theorem mergeEach_concat (first : Shard) (rest : List Shard) (s : Shard) :
    mergeEach first (rest ++ [s]) = mergeEach first rest >>= fun merged => merged.merge (alone s) := by
  rw [mergeEach, List.map_append, List.foldlM_append]
  simp [mergeEach]

theorem mergeEach_eq_ok_iff (hids : Distinct (first :: rest)) :
    mergeEach first rest = .ok c ↔ c.Gathers (first :: rest) := by
  induction rest using List.reverseRecOn generalizing c with
  | nil =>
    constructor
    · rintro ⟨⟩
      exact gathers_alone first
    · intro h
      exact congrArg Except.ok ((gathers_alone first).unique h)
  | append_singleton rest s ih =>
    rw [← List.cons_append] at hids ⊢
    have hbefore : Distinct (first :: rest) := hids.sublist ((List.sublist_append_left _ _).map _)
    rw [mergeEach_concat, Except.bind_eq_ok_iff]
    constructor
    · rintro ⟨a, ha, hmerge⟩
      exact (merge_alone_eq_ok_iff hids ((ih hbefore).mp ha)).mp hmerge
    · intro h
      -- What all of them come to has a part that the merges before the last one come to.
      obtain ⟨a, ha⟩ := h.exists_part (List.subset_append_left (first :: rest) [s])
      exact ⟨a, (ih hbefore).mpr ha, (merge_alone_eq_ok_iff hids ha).mpr h⟩

theorem mergeEach_cases (hids : Distinct (first :: rest)) :
    (∃ c, mergeEach first rest = .ok c) ∨ AtLimit (mergeEach first rest) := by
  induction rest using List.reverseRecOn with
  | nil => exact .inl ⟨alone first, rfl⟩
  | append_singleton rest s ih =>
    rw [← List.cons_append] at hids
    have hbefore : Distinct (first :: rest) := hids.sublist ((List.sublist_append_left _ _).map _)
    rw [mergeEach_concat]
    rcases ih hbefore with ⟨a, ha⟩ | ⟨reason, hlimit, herror⟩
    · rw [ha, Except.ok_bind]
      exact merge_alone_cases hids ((mergeEach_eq_ok_iff hbefore).mp ha)
    · rw [herror, Except.error_bind]
      exact .inr ⟨reason, hlimit, rfl⟩

theorem ofShards_eq_ok_iff (hids : Distinct shards) : ofShards shards = .ok c ↔ c.Gathers shards := by
  constructor
  · intro h
    refine ⟨canonical_ofShards h, fun s => ?_⟩
    unfold ofShards at h
    dsimp only at h
    split at h
    · contradiction
    · obtain ⟨-, rfl⟩ := ofSorted?_eq_ok h
      rw [ofSorted, List.mem_toArray, (perm_sortShards shards).mem_iff]
  · intro h
    have hasc : c.shards.toList.Nodup := Ascending.nodup h.canonical.ascending
    apply h.canonical.ofShards_of_perm
    refine (List.perm_ext_iff_of_nodup (hids.of_map _) hasc).mpr fun s => ?_
    exact (h.mem_iff s).symm.trans Array.mem_toList_iff.symm

theorem ofShards_cases (hids : Distinct shards) :
    (∃ c, ofShards shards = .ok c) ∨ AtLimit (ofShards shards) := by
  have hbuilds : Builds shards (ofShards shards) :=
    builds_ofOrdered (perm_sortShards shards) (pairwise_sortShards shards)
  have hnone : ¬ ∃ bytes, Repeated shards bytes := by
    rintro ⟨bytes, hrepeated⟩
    have hcount := List.nodup_iff_count.mp hids bytes
    unfold Repeated at hrepeated
    omega
  obtain ⟨ascending, -, hfit, hnotfit⟩ := hbuilds.ordered hnone
  by_cases h : PositionsFit ascending.toArray
  · exact .inl ⟨_, hfit h⟩
  · exact .inr (hnotfit h)

theorem build_alone (staging : Staging) :
    (Builder.stageAll [staging]).build = .ok (alone staging.shard) := by
  rw [build_stageAll]
  exact (gathers_alone staging.shard).canonical.ofShards_of_perm (.refl _)

theorem AtLimit.map {α β : Type} {outcome : Except ContextError α} (f : α → β)
    (h : AtLimit outcome) : AtLimit (f <$> outcome) := by
  obtain ⟨reason, hlimit, rfl⟩ := h
  exact ⟨reason, hlimit, rfl⟩

theorem not_atLimit_of_ok {α : Type} (value : α) : ¬ AtLimit (.ok value : Except ContextError α) := by
  rintro ⟨reason, -, h⟩
  contradiction

theorem reconcileAll_alone (first : Shard) (rest : List Shard) :
    Reconcile.reconcileAll ((first :: rest).map alone) = some <$> mergeEach first rest := rfl

/-- Reconciling the one-shard contexts in any order, and building all the shards at once in any order,
come to the same context or both meet the limits of the header. -/
theorem reconcileAll_eq_build {merged staged : List Staging} (hsome : merged ≠ [])
    (hperm : merged.Perm staged) (hids : Distinct (merged.map Staging.shard)) :
    ∃ singles, (merged.mapM fun staging => (Builder.stageAll [staging]).build) = .ok singles ∧
      (∀ c, Reconcile.reconcileAll singles = .ok (some c) ↔
        (Builder.stageAll staged).build = .ok c) ∧
      (AtLimit (Reconcile.reconcileAll singles) ↔ AtLimit (Builder.stageAll staged).build) ∧
      ((∃ c, (Builder.stageAll staged).build = .ok c) ∨ AtLimit (Builder.stageAll staged).build) := by
  have hsingles : (merged.mapM fun staging => (Builder.stageAll [staging]).build) =
      .ok ((merged.map Staging.shard).map alone) := by
    simp only [build_alone, List.map_map]
    exact List.mapM_pure
  refine ⟨_, hsingles, ?_⟩
  rw [build_stageAll, ← ofShards_congr (hperm.map Staging.shard)]
  obtain ⟨staging, rest, rfl⟩ := List.exists_cons_of_ne_nil hsome
  rw [List.map_cons] at hids ⊢
  rw [reconcileAll_alone]
  have hok : ∀ c, mergeEach staging.shard (rest.map Staging.shard) = .ok c ↔
      ofShards (staging.shard :: rest.map Staging.shard) = .ok c :=
    fun c => (mergeEach_eq_ok_iff hids).trans (ofShards_eq_ok_iff hids).symm
  refine ⟨fun c => ?_, ?_, ofShards_cases hids⟩
  · rw [← hok]
    simp [Except.map_eq_ok_iff]
  · rcases mergeEach_cases hids with ⟨c, hc⟩ | hlimit
    · rw [hc, (hok c).mp hc]
      exact iff_of_false (not_atLimit_of_ok _) (not_atLimit_of_ok c)
    · refine iff_of_true (hlimit.map some) ((ofShards_cases hids).resolve_left ?_)
      rintro ⟨c, hc⟩
      rw [(hok c).mpr hc] at hlimit
      exact not_atLimit_of_ok c hlimit

namespace Grouping

def tooMany : List Staging := (firstUnshared (maxPendingIndex + 1)).map .push

theorem map_shard_tooMany : tooMany.map Staging.shard = firstUnshared (maxPendingIndex + 1) := by
  rw [tooMany, List.map_map]
  exact List.map_id _

theorem distinct_tooMany : Distinct (tooMany.map Staging.shard) := by
  rw [map_shard_tooMany]
  exact (ascending_firstUnshared (by decide)).nodup_bytes

theorem tooMany_ne_nil : tooMany ≠ [] := by
  intro h
  have hlength := congrArg List.length h
  rw [tooMany, List.length_map, length_firstUnshared, List.length_nil] at hlength
  omega

theorem not_build_tooMany : ¬ ∃ c, (Builder.stageAll tooMany).build = .ok c := by
  rintro ⟨c, hc⟩
  have hids := distinct_tooMany
  rw [build_stageAll, ofShards_eq_ok_iff hids] at hc
  rw [map_shard_tooMany, firstUnshared_succ] at hc hids
  have hcrowded : crowded.Gathers (firstUnshared maxPendingIndex) :=
    ⟨canonical_crowded, fun _ => List.mem_toArray⟩
  exact not_merge_crowded_minted ⟨c, (merge_alone_eq_ok_iff hids hcrowded).mpr hc⟩

end Grouping

open Staging Grouping in
theorem reconcileAll_eq_build_of_scattered :
    (∃ singles, (scattered.mapM fun staging => (Builder.stageAll [staging]).build) = .ok singles ∧
      Reconcile.reconcileAll singles = .ok (some gathered)) ∧
    ∃ singles, (tooMany.mapM fun staging => (Builder.stageAll [staging]).build) = .ok singles ∧
      AtLimit (Reconcile.reconcileAll singles) ∧ AtLimit (Builder.stageAll tooMany).build := by
  constructor
  · obtain ⟨singles, hsingles, hok, -, -⟩ :=
      reconcileAll_eq_build (by decide) (List.reverse_perm scattered).symm (by decide +kernel)
    have hbuild : (Builder.stageAll scattered.reverse).build = .ok gathered := by
      have hcanonical : gathered.Canonical := by decide +kernel
      rw [build_stageAll]
      exact hcanonical.ofShards_of_perm (by decide +kernel)
    exact ⟨singles, hsingles, (hok gathered).mpr hbuild⟩
  · obtain ⟨singles, hsingles, -, hlimits, hcases⟩ :=
      reconcileAll_eq_build tooMany_ne_nil (.refl tooMany) distinct_tooMany
    have hlimit := hcases.resolve_left not_build_tooMany
    exact ⟨singles, hsingles, hlimits.mpr hlimit, hlimit⟩

end ShardCounter.Context
