import ShardCounter.Proofs.Cluster.Schedule
import ShardCounter.Proofs.Cluster.Skipping
/-! A run converges, whatever was exchanged before its final round. Nodes that know the same and
have heard of the same timestamps hold cells that are alike, and so agree on digest and total. -/
namespace ShardCounter

section Holds

variable {size : Nat} {minters : Fin size → Minter} {name : CellName}
  {known : Finset (Contribution size)} {heard : Finset Int64}

namespace Counter.Holds

variable {c d : Counter}

theorem mem_clearPending (hc : c.Holds minters name known) {s : Shard} :
    s ∈ c.context.clearPending.shards ↔ ∃ e ∈ known, e.shard minters = s := by
  rw [hc.canonical.mem_clearPending]
  constructor
  · rintro ⟨t, ht, rfl⟩
    obtain ⟨e, he, hte⟩ := hc.sound t ht
    exact ⟨e, he, hte.symm⟩
  · rintro ⟨e, he, rfl⟩
    exact hc.complete e he

/-- What is known and what was heard determine a live cell, but for its pending marks. -/
theorem alike (hc : c.Holds minters name known) (hd : d.Holds minters name known)
    (hc' : c.Stamped heard) (hd' : d.Stamped heard) : c.Alike d where
  name_eq := hc.name_eq.trans hd.name_eq.symm
  context :=
    { canonical := hc.canonical
      canonical' := hd.canonical
      clearPending_eq := hc.canonical.clearPending.eq_of_mem_iff hd.canonical.clearPending
        fun _ => hc.mem_clearPending.trans hd.mem_clearPending.symm }
  writtenAt_eq := hc'.writtenAt_eq hd'
  lastDelete_eq := hc'.lastDelete_eq.trans hd'.lastDelete_eq.symm

end Counter.Holds

namespace Slot.Holds

variable {made : List (Contribution size)} {slot slot' : Slot}

theorem alike (h : slot.Holds minters name known) (h' : slot'.Holds minters name known)
    (hs : slot.Stamped heard) (hs' : slot'.Stamped heard) : Slot.Alike slot slot' := by
  cases slot with
  | none =>
    cases slot' with
    | none => exact .none
    | some cell' => exact absurd h h'.1.ne_empty
  | some cell =>
    cases slot' with
    | none => exact absurd h' h.1.ne_empty
    | some cell' =>
      obtain ⟨-, c, rfl, hc⟩ := h
      obtain ⟨-, d, rfl, hd⟩ := h'
      obtain ⟨_, hcell, hc'⟩ := hs
      obtain ⟨_, hcell', hd'⟩ := hs'
      cases hcell
      cases hcell'
      exact .some (.counter (hc.alike hd hc' hd'))

theorem eq_none_iff (h : slot.Holds minters name known) : slot = none ↔ known = ∅ := by
  cases slot with
  | none => exact iff_of_true rfl h
  | some cell => exact iff_of_false (Option.some_ne_none _) h.1.ne_empty

theorem total_eq (hapart : Contribution.Apart minters made) (hknown : ∀ e ∈ known, e ∈ made)
    (h : slot.Holds minters name known) :
    slot.total = Int64.ofInt (∑ e ∈ known, e.delta.toInt) := by
  cases slot with
  | none =>
    have hnone : known = ∅ := h
    rw [hnone]
    rfl
  | some cell =>
    obtain ⟨-, c, rfl, hc⟩ := h
    exact hc.total_eq hapart hknown

end Slot.Holds
end Holds

namespace Cluster

variable {cluster reached : Cluster}

theorem size_step {force : Bool} {step' : Step} (h : step force cluster step' = .ok reached) :
    reached.size = cluster.size := by
  cases step' with
  | increment i name delta writtenAt =>
    have hincrement : increment cluster i name delta writtenAt = .ok reached := h
    unfold increment at hincrement
    split at hincrement
    · cases hincrement
      rfl
    · obtain ⟨cell, -, hcell⟩ := Except.bind_eq_ok_iff.mp hincrement
      cases hcell
      exact Array.size_modify
  | put i cell =>
    obtain ⟨joined, -, h⟩ := Except.bind_eq_ok_iff.mp h
    cases h
    exact Array.size_modify
  | sync source target =>
    obtain ⟨result, hresult, rfl⟩ := Except.map_eq_ok_iff.mp h
    rcases eq_or_ne source target with rfl | hne
    · unfold sync at hresult
      rw [if_pos rfl] at hresult
      cases hresult
      rfl
    · obtain ⟨exchange, -, hcluster⟩ := sync_eq_ok hne hresult
      rw [hcluster]
      exact Array.size_modify

theorem size_run {force : Bool} {steps : List Step} (h : run force cluster steps = .ok reached) :
    reached.size = cluster.size := by
  induction steps generalizing cluster with
  | nil =>
    cases h
    rfl
  | cons step' steps ih =>
    rw [run, List.foldlM_cons] at h
    obtain ⟨next, hnext, h⟩ := Except.bind_eq_ok_iff.mp h
    exact (ih h).trans (size_step hnext)

theorem size_start (size : Nat) (startedAt : Nat → UInt64) :
    (start size startedAt).size = size := by
  simp [start]

theorem getElem?_start {size i : Nat} (startedAt : Nat → UInt64) (h : i < size) :
    (start size startedAt)[i]? =
      some { minter := .startingAt (UInt64.ofNat (i + 1)) (startedAt i) } := by
  simp [start, h]

end Cluster

namespace Workload

def minters (w : Workload) (i : Fin w.replicas) : Minter :=
  .startingAt (UInt64.ofNat (i + 1)) (w.startedAt i)

theorem matches_start (w : Workload) : Cluster.Matches w.minters cellName Ledger.empty
    (Cluster.start w.replicas w.startedAt) := by
  intro i
  refine ⟨none, ?_, rfl⟩
  have hmade : (Ledger.empty : Ledger w.replicas).madeBy i = 0 := rfl
  rw [Cluster.getElem?_start w.startedAt i.isLt, hmade, Minter.after_zero]
  rfl

theorem stamped_start (w : Workload) : Cluster.Stamped (fun _ : Fin w.replicas => ∅)
    (Cluster.start w.replicas w.startedAt) :=
  fun i => ⟨_, Cluster.getElem?_start w.startedAt i.isLt, rfl⟩

/-- All nodes agree on one digest, absent only if there were no increments, and on the total. -/
structure Agree (w : Workload) (reached : Cluster) (digest : Option Digest) : Prop where
  size_eq : reached.size = w.replicas
  digest_eq : ∀ i < w.replicas, (reached.slot i).map Cell.digest = digest
  total_eq : ∀ i < w.replicas, (reached.slot i).total = w.expectedTotal
  digest_eq_none_iff : digest = none ↔ w.incrementsPerReplica = 0

theorem all_map_beq {α β : Type} [BEq β] [LawfulBEq β] {f : α → β} {b : β} {xs : List α}
    (h : ∀ x ∈ xs, f x = b) : (xs.map f).all (· == b) = true := by
  rw [List.all_map, List.all_eq_true]
  exact fun x hx => beq_iff_eq.mpr (h x hx)

theorem outcome_of_agree {w : Workload} {p : Progress} {digest : Option Digest}
    (hpos : 0 < w.replicas) (h : w.Agree p.cluster digest) :
    w.outcome p = ⟨p.sent, p.skipped, w.expectedTotal, w.expectedTotal, digest, true⟩ := by
  have hslots : ∀ slot ∈ p.cluster.toList.map Node.slot,
      slot.map Cell.digest = digest ∧ slot.total = w.expectedTotal := by
    intro slot hslot
    obtain ⟨node, hnode, rfl⟩ := List.mem_map.mp hslot
    obtain ⟨i, hi, hnode⟩ := Array.mem_iff_getElem.mp (Array.mem_toList_iff.mp hnode)
    have hslot' : p.cluster.slot i = node.slot := by
      rw [Cluster.slot, Array.getElem?_eq_getElem hi, hnode]
      rfl
    rw [← hslot']
    exact ⟨h.digest_eq i (h.size_eq ▸ hi), h.total_eq i (h.size_eq ▸ hi)⟩
  have hne : p.cluster.toList.map Node.slot ≠ [] := by
    rw [← List.length_pos_iff, List.length_map, Array.length_toList, h.size_eq]
    exact hpos
  obtain ⟨first, rest, hcons⟩ := List.exists_cons_of_ne_nil hne
  have hfirst := hslots first (hcons ▸ List.mem_cons_self)
  have hdigest : ((p.cluster.toList.map Node.slot).map fun slot => slot.map Cell.digest).headD
      none = digest := by
    rw [hcons]
    exact hfirst.1
  have htotal : ((p.cluster.toList.map Node.slot).map Slot.total).headD 0 = w.expectedTotal := by
    rw [hcons]
    exact hfirst.2
  unfold outcome
  simp only [hdigest, htotal, all_map_beq fun slot hslot => (hslots slot hslot).1,
    all_map_beq fun slot hslot => (hslots slot hslot).2, Bool.and_self]

namespace Regular

variable {w : Workload} (h : w.Regular)

include h

theorem nodeId_injective : Function.Injective fun i => (w.minters i).nodeId := by
  intro i j hij
  have hlt (i : Fin w.replicas) : i.val + 1 < 2 ^ 64 := Nat.lt_of_le_of_lt i.isLt h.replicas_lt
  have hval : i.val + 1 = j.val + 1 := by
    rw [← UInt64.toNat_ofNat_of_lt' (hlt i), ← UInt64.toNat_ofNat_of_lt' (hlt j)]
    exact congrArg UInt64.toNat hij
  exact Fin.ext (Nat.succ.inj hval)

variable [NeZero w.replicas]

theorem delivers : Delivers (maxPendingIndex < w.replicas * w.incrementsPerReplica)
    (Cluster.Matches w.minters cellName (Ledger.after w.acts))
    (Cluster.run false (Cluster.start w.replicas w.startedAt) w.steps) := by
  have hname : cellName.size ≤ maxNameSize := by decide +kernel
  rw [h.steps_eq, ← h.length_made_acts]
  exact Cluster.matches_run w.matches_start h.nodeId_injective hname w.acts h.isIncrementAt_lt

theorem made_eq_nil_iff : (Ledger.after w.acts).made = [] ↔ w.incrementsPerReplica = 0 := by
  rw [← List.length_eq_zero_iff, h.length_made_acts, Nat.mul_eq_zero,
    or_iff_right h.pos.ne']

theorem exists_holds {reached : Cluster}
    (hrun : Cluster.run false (Cluster.start w.replicas w.startedAt) w.steps = .ok reached) :
    ∃ heard, ∀ i : Fin w.replicas,
      (Cluster.slot reached i).Holds w.minters cellName (Ledger.after w.acts).made.toFinset ∧
        (Cluster.slot reached i).Stamped heard := by
  have hmatches : Cluster.Matches w.minters cellName (Ledger.after w.acts) reached := by
    rcases h.delivers with ⟨c, hc, hmatches⟩ | ⟨-, e, he, -⟩
    · rw [hrun] at hc
      cases hc
      exact hmatches
    · rw [hrun] at he
      contradiction
  rw [h.steps_eq] at hrun
  obtain ⟨heard, hheard⟩ := w.heardAfter_acts
  have hstamped : Cluster.Stamped (heardAfter w.acts) reached :=
    Cluster.stamped_run w.stamped_start w.acts hrun
  refine ⟨heard, fun i => ?_⟩
  obtain ⟨slot, hnode, hholds⟩ := hmatches i
  obtain ⟨node, hnode', hslot⟩ := hstamped i
  rw [hnode] at hnode'
  cases hnode'
  rw [w.known_acts i] at hholds
  rw [hheard] at hslot
  rw [Cluster.slot_eq hnode]
  exact ⟨hholds, hslot⟩

theorem agree {reached : Cluster}
    (hrun : Cluster.run false (Cluster.start w.replicas w.startedAt) w.steps = .ok reached) :
    ∃ digest, w.Agree reached digest := by
  obtain ⟨heard, hslot⟩ := h.exists_holds hrun
  obtain ⟨hhub, hhub'⟩ := hslot w.hub
  refine ⟨(Cluster.slot reached w.hub).map Cell.digest, ?_, ?_, ?_, ?_⟩
  · exact (Cluster.size_run hrun).trans (Cluster.size_start ..)
  · intro i hi
    obtain ⟨hholds, hstamps⟩ := hslot ⟨i, hi⟩
    exact (hholds.alike hhub hstamps hhub').digest_eq
  · intro i hi
    have hapart := Ledger.apart_after h.nodeId_injective h.isIncrementAt_lt
    rw [(hslot ⟨i, hi⟩).1.total_eq hapart fun _ => List.mem_toFinset.mp,
      List.sum_toFinset _ (Ledger.nodup_made_after w.acts), w.sum_made_acts, w.expectedTotal_eq]
  · rw [Option.map_eq_none_iff, hhub.eq_none_iff, List.toFinset_eq_empty_iff, h.made_eq_nil_iff]

end Regular

/-- Whatever the increments, their order and their timestamps, and whatever was exchanged between
which nodes: a run that ends without an error ends with all nodes in agreement, on one digest and on
the sum of all deltas, reduced to 64 bits. As long as the header can point to a shard for every
increment, a run does end without one. -/
theorem run_converges {w : Workload} (h : w.Regular) :
    (∀ outcome, w.run = .ok outcome →
      (∃ cluster final, w.incrementAll = .ok cluster ∧ w.exchangeAll cluster = .ok final ∧
        outcome = w.outcome final ∧ final.cluster.size = w.replicas ∧
        ∀ i < w.replicas, (final.cluster.slot i).map Cell.digest = outcome.digest ∧
          (final.cluster.slot i).total = outcome.expectedTotal) ∧
      outcome.expectedTotal = Int64.ofInt (w.increments.map (·.delta.toInt)).sum ∧
      outcome.finalTotal = outcome.expectedTotal ∧ outcome.converged = true ∧
      (outcome.digest = none ↔ w.incrementsPerReplica = 0) ∧
      outcome.sent + outcome.skipped =
        w.exchanges.countP (fun pair => pair.1 ≠ pair.2) + 2 * (w.replicas - 1)) ∧
    (w.replicas * w.incrementsPerReplica ≤ 32767 → ∃ outcome, w.run = .ok outcome) := by
  have : NeZero w.replicas := ⟨h.pos.ne'⟩
  constructor
  · intro outcome hrun
    obtain ⟨cluster, hcluster, hrun⟩ := Except.bind_eq_ok_iff.mp hrun
    obtain ⟨final, hfinal, houtcome⟩ := Except.bind_eq_ok_iff.mp hrun
    have hsteps : Cluster.run false (Cluster.start w.replicas w.startedAt) w.steps =
        .ok final.cluster := by
      rw [run_steps, hcluster, Except.ok_bind, hfinal, Except.map_ok]
    obtain ⟨digest, hagree⟩ := h.agree hsteps
    have hvalue := outcome_of_agree h.pos hagree
    have hcount : final.sent + final.skipped =
        w.exchanges.countP (fun pair => pair.1 ≠ pair.2) + 2 * (w.replicas - 1) := by
      rw [sent_add_skipped_foldlM hfinal, List.length_append, length_finalRound, pairs,
        ← List.countP_eq_length_filter]
      exact Nat.zero_add _
    rw [← Except.ok.inj houtcome, hvalue]
    refine ⟨⟨cluster, final, hcluster, hfinal, hvalue.symm, hagree.size_eq, fun i hi => ?_⟩,
      w.expectedTotal_eq, rfl, rfl, hagree.digest_eq_none_iff, hcount⟩
    exact ⟨hagree.digest_eq i hi, hagree.total_eq i hi⟩
  · intro hfit
    rcases h.delivers with ⟨reached, hreached, -⟩ | ⟨hmany, -⟩
    · rw [run_steps] at hreached
      obtain ⟨cluster, hcluster, hreached⟩ := Except.bind_eq_ok_iff.mp hreached
      obtain ⟨final, hfinal, -⟩ := Except.map_eq_ok_iff.mp hreached
      refine ⟨w.outcome final, ?_⟩
      rw [run, hcluster, Except.ok_bind, hfinal]
      rfl
    · exact absurd hfit (not_le.mpr hmany)

/-- Three nodes that increment in turns; one exchange is of a node with itself. -/
def threeNodes : Workload where
  replicas := 3
  incrementsPerReplica := 2
  syncs := 3
  startedAt i := UInt64.ofNat (40 + i)
  increments :=
    [⟨0, 5, 10⟩, ⟨2, -3, 12⟩, ⟨0, 4, 11⟩, ⟨1, 10, 15⟩, ⟨2, 0, 13⟩, ⟨1, -5, 14⟩]
  exchanges := [(0, 2), (1, 1), (2, 1)]

theorem run_converges_threeNodes : ∃ outcome, threeNodes.run = .ok outcome ∧
    outcome.finalTotal = 11 ∧ outcome.converged = true ∧ outcome.digest ≠ none ∧
    outcome.sent + outcome.skipped = 6 := by
  have hregular : threeNodes.Regular :=
    ⟨by decide, by decide, by decide, by decide, by decide, by decide⟩
  obtain ⟨hends, hrun⟩ := run_converges hregular
  obtain ⟨outcome, houtcome⟩ := hrun (by decide)
  obtain ⟨-, htotal, hfinal, hconverged, hdigest, hcount⟩ := hends outcome houtcome
  refine ⟨outcome, houtcome, ?_, hconverged, ?_, hcount⟩
  · rw [hfinal, htotal]
    decide
  · exact mt hdigest.mp (by decide)

end Workload
end ShardCounter
