import ShardCounter.Cluster.Workload
import ShardCounter.Proofs.Cluster.Gossip
import ShardCounter.Proofs.Cluster.Stamps
/-! A run as one list of steps, and who knows of what after them: its increments first, then
exchanges between any nodes, and a final round that brings all that any node knows to node 0, and
from there to every node. -/
namespace ShardCounter

section syncs

variable {size : Nat}

def Act.ofPair (pair : Fin size × Fin size) : Act size := .sync pair.1 pair.2

theorem Ledger.foldl_ofPair (l : Ledger size) (pairs : List (Fin size × Fin size)) :
    (pairs.map Act.ofPair).foldl step l = { l with known := pairs.foldl Gossip.tell l.known } := by
  induction pairs generalizing l with
  | nil => rfl
  | cons pair pairs ih =>
    rw [List.map_cons, List.foldl_cons, ih]
    rfl

theorem Ledger.after_syncs (acts : List (Act size)) (pairs : List (Fin size × Fin size)) :
    after (acts ++ pairs.map Act.ofPair) =
      { after acts with known := pairs.foldl Gossip.tell (after acts).known } := by
  rw [after, List.foldl_append, foldl_ofPair]
  rfl

theorem heardAfter_syncs (acts : List (Act size)) (pairs : List (Fin size × Fin size)) :
    heardAfter (acts ++ pairs.map Act.ofPair) = pairs.foldl Gossip.tell (heardAfter acts) := by
  rw [heardAfter, List.foldl_append, List.foldl_map]
  rfl

end syncs

def Step.ofPair (pair : Nat × Nat) : Step := .sync pair.1 pair.2

def Increment.step (i : Increment) : Step := .increment i.node Workload.cellName i.delta i.writtenAt

namespace Workload

section steps

def steps (w : Workload) : List Step :=
  w.increments.map Increment.step ++ (w.pairs ++ w.finalRound).map Step.ofPair

theorem cluster_exchange (p : Progress) (pair : Nat × Nat) :
    Progress.cluster <$> p.exchange pair = Cluster.step false p.cluster (Step.ofPair pair) := by
  show Progress.cluster <$> p.exchange pair = Prod.snd <$> p.cluster.sync pair.1 pair.2 false
  unfold Progress.exchange
  cases p.cluster.sync pair.1 pair.2 false with
  | error e => rfl
  | ok result =>
    obtain ⟨transferred, cluster⟩ := result
    cases transferred <;> rfl

theorem sent_add_skipped_exchange {p q : Progress} {pair : Nat × Nat}
    (h : p.exchange pair = .ok q) : q.sent + q.skipped = p.sent + p.skipped + 1 := by
  unfold Progress.exchange at h
  obtain ⟨⟨transferred, cluster⟩, -, h⟩ := Except.bind_eq_ok_iff.mp h
  cases transferred <;> cases h
  · exact (Nat.add_assoc ..).symm
  · exact Nat.add_right_comm ..

theorem cluster_foldlM_exchange (p : Progress) (pairs : List (Nat × Nat)) :
    Progress.cluster <$> pairs.foldlM Progress.exchange p =
      Cluster.run false p.cluster (pairs.map Step.ofPair) := by
  induction pairs generalizing p with
  | nil => rfl
  | cons pair pairs ih =>
    rw [List.foldlM_cons, List.map_cons, Cluster.run, List.foldlM_cons, ← cluster_exchange]
    cases p.exchange pair with
    | error e => rfl
    | ok q => exact ih q

theorem sent_add_skipped_foldlM {p q : Progress} {pairs : List (Nat × Nat)}
    (h : pairs.foldlM Progress.exchange p = .ok q) :
    q.sent + q.skipped = p.sent + p.skipped + pairs.length := by
  induction pairs generalizing p with
  | nil =>
    cases h
    rfl
  | cons pair pairs ih =>
    rw [List.foldlM_cons] at h
    obtain ⟨next, hnext, h⟩ := Except.bind_eq_ok_iff.mp h
    rw [ih h, sent_add_skipped_exchange hnext, List.length_cons]
    omega

theorem run_steps (w : Workload) :
    Cluster.run false (Cluster.start w.replicas w.startedAt) w.steps =
      w.incrementAll >>= fun c => Progress.cluster <$> w.exchangeAll c := by
  unfold steps exchangeAll incrementAll
  rw [Cluster.run, List.foldlM_append, List.foldlM_map]
  congr 1
  funext c
  exact (cluster_foldlM_exchange { cluster := c } _).symm

theorem expectedTotal_eq (w : Workload) :
    w.expectedTotal = Int64.ofInt (w.increments.map (·.delta.toInt)).sum := by
  have hfold := foldl_add_ofInt Increment.delta w.increments 0
  rw [Int.zero_add] at hfold
  exact hfold

theorem length_finalRound (w : Workload) : w.finalRound.length = 2 * (w.replicas - 1) := by
  simp [finalRound]
  omega

end steps

section acts

variable (w : Workload) [NeZero w.replicas]

def node (i : Nat) : Fin w.replicas := Fin.ofNat w.replicas i

def nodes (pair : Nat × Nat) : Fin w.replicas × Fin w.replicas := (w.node pair.1, w.node pair.2)

def act (i : Increment) : Act w.replicas := .increment (w.node i.node) i.delta i.writtenAt

def increaseActs : List (Act w.replicas) := w.increments.map w.act

def others : List (Fin w.replicas) := ((List.range w.replicas).drop 1).map w.node

def hub : Fin w.replicas := w.node 0

def acts : List (Act w.replicas) :=
  w.increaseActs ++ ((w.pairs ++ w.finalRound).map w.nodes).map Act.ofPair

theorem finalRound_nodes : w.finalRound.map w.nodes =
    w.others.map (·, w.hub) ++ w.others.map (w.hub, ·) := by
  simp [finalRound, others, hub, nodes, Function.comp_def]

theorem eq_hub_or_mem_others (i : Fin w.replicas) : i = w.hub ∨ i ∈ w.others := by
  rcases Nat.eq_zero_or_pos i.val with hzero | hpos
  · exact .inl (Fin.ext (hzero.trans (Nat.zero_mod _).symm))
  · refine .inr (List.mem_map.mpr ⟨i, ?_, Fin.ofNat_val_eq_self i⟩)
    rw [List.range_eq_range', List.drop_range', List.mem_range'_1]
    omega

/-- All exchanges of a run end with everyone knowing the same, and no less than anyone knew. -/
theorem exists_foldl_tell {L : Type} [SemilatticeSup L] (known : Fin w.replicas → L) :
    ∃ all, (∀ i, known i ≤ all) ∧
      ((w.pairs ++ w.finalRound).map w.nodes).foldl Gossip.tell known =
        fun _ => all := by
  rw [List.map_append, List.foldl_append, finalRound_nodes]
  obtain ⟨all, hle, hround⟩ := Gossip.foldl_round
    ((w.pairs.map w.nodes).foldl Gossip.tell known) w.others w.eq_hub_or_mem_others
  exact ⟨all, fun i => (Gossip.le_foldl_tell known _ i).trans (hle i), hround⟩

theorem made_acts : (Ledger.after w.acts).made = (Ledger.after w.increaseActs).made := by
  rw [acts, Ledger.after_syncs]

theorem known_acts (i : Fin w.replicas) :
    (Ledger.after w.acts).known i = (Ledger.after w.acts).made.toFinset := by
  ext e
  rw [List.mem_toFinset]
  constructor
  · exact (Ledger.wellFormed_after w.acts).made_of_known i e
  · intro he
    rw [made_acts] at he
    obtain ⟨all, hle, hround⟩ := w.exists_foldl_tell (Ledger.after w.increaseActs).known
    rw [acts, Ledger.after_syncs, hround]
    exact hle e.node (Ledger.mem_known_of_mem_made w.increaseActs e he)

theorem heardAfter_acts : ∃ all, heardAfter w.acts = fun _ => all := by
  obtain ⟨all, -, hround⟩ := w.exists_foldl_tell (heardAfter w.increaseActs)
  exact ⟨all, (heardAfter_syncs _ _).trans hround⟩

theorem sum_made_acts : ((Ledger.after w.acts).made.map (·.delta.toInt)).sum =
    (w.increments.map (·.delta.toInt)).sum := by
  rw [made_acts, Ledger.sum_delta_after, increaseActs, List.map_map]
  rfl

theorem countP_acts (p : Act w.replicas → Bool) (hsync : ∀ pair, p (Act.ofPair pair) = false) :
    w.acts.countP p = w.increments.countP fun i => p (w.act i) := by
  have hsyncs : (((w.pairs ++ w.finalRound).map w.nodes).map Act.ofPair).countP p = 0 := by
    rw [List.countP_eq_zero]
    intro a ha
    obtain ⟨pair, -, rfl⟩ := List.mem_map.mp ha
    simp [hsync]
  rw [acts, List.countP_append, hsyncs, increaseActs, List.countP_map]
  rfl

end acts

/-- Sizes that fit a machine word, at least one node, as many increments at each node as the sizes
say, and nodes that there are. Their order, deltas and timestamps are anything at all. -/
structure Regular (w : Workload) : Prop where
  pos : 0 < w.replicas
  replicas_lt : w.replicas < 2 ^ 64
  incrementsPerReplica_lt : w.incrementsPerReplica < 2 ^ 64
  node_lt : ∀ i ∈ w.increments, i.node < w.replicas
  count_node : ∀ node < w.replicas, (w.increments.map (·.node)).count node = w.incrementsPerReplica
  exchange_lt : ∀ pair ∈ w.exchanges, pair.1 < w.replicas ∧ pair.2 < w.replicas

namespace Regular

variable {w : Workload} (h : w.Regular)

include h

theorem length_increments : w.increments.length = w.replicas * w.incrementsPerReplica := by
  have hmem : ∀ i ∈ (w.increments.map (·.node) : Multiset Nat), i ∈ Finset.range w.replicas := by
    intro i hi
    obtain ⟨increment, hincrement, rfl⟩ := List.mem_map.mp hi
    exact Finset.mem_range.mpr (h.node_lt increment hincrement)
  have hcount : ∀ i ∈ Finset.range w.replicas,
      (w.increments.map (·.node) : Multiset Nat).count i = w.incrementsPerReplica := by
    intro i hi
    rw [Multiset.coe_count]
    exact h.count_node i (Finset.mem_range.mp hi)
  have hcard := Multiset.sum_count_eq_card hmem
  rw [Finset.sum_congr rfl hcount, Finset.sum_const, Finset.card_range, Multiset.coe_card,
    List.length_map] at hcard
  exact hcard.symm

theorem pair_lt : ∀ pair ∈ w.pairs ++ w.finalRound,
    pair.1 < w.replicas ∧ pair.2 < w.replicas := by
  have hpos := h.pos
  intro pair hpair
  rcases List.mem_append.mp hpair with hpair | hpair
  · exact h.exchange_lt pair (List.mem_of_mem_filter hpair)
  · have hother : ∀ other ∈ (List.range w.replicas).drop 1, other < w.replicas := fun other hmem =>
      List.mem_range.mp (List.mem_of_mem_drop hmem)
    rcases List.mem_append.mp hpair with hpair | hpair
    · obtain ⟨other, hmem, rfl⟩ := List.mem_map.mp hpair
      exact ⟨hother other hmem, hpos⟩
    · obtain ⟨other, hmem, rfl⟩ := List.mem_map.mp hpair
      exact ⟨hpos, hother other hmem⟩

variable [NeZero w.replicas]

theorem steps_eq : w.steps = w.acts.map (Act.step cellName) := by
  have hnode {i : Nat} (hi : i < w.replicas) : (w.node i).val = i := Nat.mod_eq_of_lt hi
  have hincrements : w.increments.map Increment.step = w.increaseActs.map (Act.step cellName) := by
    rw [increaseActs, List.map_map]
    refine List.map_congr_left fun i hi => ?_
    exact congrArg (Step.increment · cellName i.delta i.writtenAt) (hnode (h.node_lt i hi)).symm
  have hexchanges : (w.pairs ++ w.finalRound).map Step.ofPair =
      (((w.pairs ++ w.finalRound).map w.nodes).map Act.ofPair).map (Act.step cellName) := by
    rw [List.map_map, List.map_map]
    refine List.map_congr_left fun pair hpair => ?_
    obtain ⟨hsource, htarget⟩ := h.pair_lt pair hpair
    exact congrArg₂ Step.sync (hnode hsource).symm (hnode htarget).symm
  rw [steps, hincrements, hexchanges, acts]
  exact List.map_append.symm

theorem isIncrementAt_lt (i : Fin w.replicas) :
    w.acts.countP (Act.isIncrementAt i) < 2 ^ 64 := by
  rw [w.countP_acts _ fun _ => rfl]
  have hcount : w.increments.countP (fun j => (w.act j).isIncrementAt i) =
      (w.increments.map (·.node)).count i.val := by
    rw [List.count, List.countP_map]
    refine List.countP_congr fun j hj => ?_
    simp [Act.isIncrementAt, act, node, Fin.ext_iff, Nat.mod_eq_of_lt (h.node_lt j hj)]
  rw [hcount, h.count_node i i.isLt]
  exact h.incrementsPerReplica_lt

theorem length_made_acts :
    (Ledger.after w.acts).made.length = w.replicas * w.incrementsPerReplica := by
  rw [Ledger.length_made_after, w.countP_acts _ fun _ => rfl, ← h.length_increments]
  exact List.countP_eq_length.mpr fun _ _ => rfl

end Regular
end Workload
end ShardCounter
