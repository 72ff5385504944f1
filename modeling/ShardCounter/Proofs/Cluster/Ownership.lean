import ShardCounter.Proofs.Cell.Pending
import ShardCounter.Proofs.Cluster.Exchange
import ShardCounter.Proofs.Replica.Minter
/-! Pending marks stay with the process that made them. Whatever is synced, in whatever order and
whether or not steps fail on the way, the pending ids in a node's slot were all returned by that
node's own minter to an increment of its own. -/
namespace ShardCounter

namespace Slot

variable {slot : Slot} {incoming cell : Cell}

def pendingIds : Slot → List ReplicaId
  | none => []
  | some cell => cell.pendingIds

theorem pendingIds_absorb (h : slot.absorb incoming = .ok cell) :
    cell.pendingIds ⊆ slot.pendingIds ++ incoming.pendingIds := by
  cases slot with
  | none =>
    cases h
    exact List.subset_append_right _ _
  | some current => exact Cell.pendingIds_reconcile h

end Slot

namespace Exchange

variable {outgoing cell : Cell} {sender receiver : Slot} {force : Bool} {exchange : Exchange}

theorem pendingIds_transfer (h : transfer .remote outgoing receiver = .ok cell) :
    cell.pendingIds ⊆ receiver.pendingIds := by
  obtain ⟨bytes, -, h⟩ := Except.bind_eq_ok_iff.mp h
  obtain ⟨incoming, hdecode, habsorb⟩ := Except.bind_eq_ok_iff.mp h
  have hjoined := Slot.pendingIds_absorb habsorb
  rwa [Cell.pendingIds_of_decode_remote hdecode, List.append_nil] at hjoined

theorem pendingIds_leaves (h : run .remote force sender receiver = .ok exchange) :
    (exchange.leaves receiver).pendingIds ⊆ receiver.pendingIds := by
  cases sender with
  | none =>
    cases h
    exact List.Subset.refl _
  | some outgoing =>
    rcases run_some_cases h with ⟨cell, htransfer, rfl⟩ | ⟨-, rfl, -⟩
    · exact pendingIds_transfer htransfer
    · exact List.Subset.refl _

end Exchange

namespace Step

def node : Step → Nat
  | increment node .. => node
  | put node _ => node
  | sync _ target => target

def isIncrementAt (i : Nat) : Step → Bool
  | increment node .. => node = i
  | put .. => false
  | sync .. => false

end Step

namespace Cluster

/-- The cluster after a step that may fail. All that a failed step leaves behind is that the id of
an increment is spent. -/
def attempt (force : Bool) (cluster : Cluster) (s : Step) : Cluster :=
  match step force cluster s with
  | .ok next => next
  | .error _ =>
    match s with
    | .increment i .. => cluster.modify i fun node => { node with minter := node.minter.mint.2 }
    | .put .. | .sync .. => cluster

def attemptAll (force : Bool) (cluster : Cluster) (steps : List Step) : Cluster :=
  steps.foldl (attempt force) cluster

variable {force : Bool} {cluster next reached : Cluster} {steps : List Step} {s : Step} {i : Nat}

theorem attempt_of_step (h : step force cluster s = .ok next) : attempt force cluster s = next := by
  unfold attempt
  rw [h]

theorem attemptAll_of_run (h : run force cluster steps = .ok reached) :
    attemptAll force cluster steps = reached := by
  induction steps generalizing cluster with
  | nil => exact Except.ok.inj h
  | cons s steps ih =>
    rw [run, List.foldlM_cons] at h
    obtain ⟨next, hnext, h⟩ := Except.bind_eq_ok_iff.mp h
    rw [attemptAll, List.foldl_cons, attempt_of_step hnext]
    exact ih h

theorem attempt_of_error {e : CellError} {name : CellName} {delta writtenAt : Int64}
    (h : step force cluster (.increment i name delta writtenAt) = .error e) :
    attempt force cluster (.increment i name delta writtenAt) =
      cluster.modify i fun node => { node with minter := node.minter.mint.2 } := by
  unfold attempt
  rw [h]

section frame

variable (hne : s.node ≠ i)

include hne

theorem getElem?_step_of_ne (h : step force cluster s = .ok next) : next[i]? = cluster[i]? := by
  cases s with
  | increment j name delta writtenAt =>
    cases hnode : cluster[j]? with
    | none =>
      simp only [step, increment, hnode] at h
      cases h
      rfl
    | some node =>
      rw [step, increment_of_node hnode] at h
      obtain ⟨cell, -, rfl⟩ := Except.map_eq_ok_iff.mp h
      exact getElem?_modify_of_ne cluster _ hne.symm
  | put j cell =>
    obtain ⟨absorbed, -, h⟩ := Except.bind_eq_ok_iff.mp h
    cases h
    exact getElem?_modify_of_ne cluster _ hne.symm
  | sync source target =>
    obtain ⟨result, hresult, rfl⟩ := Except.map_eq_ok_iff.mp h
    rcases eq_or_ne source target with rfl | hself
    · rw [sync_self] at hresult
      cases hresult
      rfl
    · obtain ⟨exchange, -, hleaves⟩ := sync_eq_ok hself hresult
      rw [hleaves]
      exact getElem?_modify_of_ne cluster _ hne.symm

theorem getElem?_attempt_of_ne : (attempt force cluster s)[i]? = cluster[i]? := by
  unfold attempt
  split
  · rename_i next h
    exact getElem?_step_of_ne hne h
  · cases s with
    | increment j name delta writtenAt => exact getElem?_modify_of_ne cluster _ hne.symm
    | put j cell => rfl
    | sync source target => rfl

end frame

/-- The node's minter has returned so many ids, and its slot has none but them pending. -/
def OwnsPending (minter : Minter) (mints : Nat) (i : Nat) (cluster : Cluster) : Prop :=
  ∃ slot : Slot, cluster[i]? = some ⟨(minter.mintMany mints).2, slot⟩ ∧
    slot.pendingIds ⊆ (minter.mintMany mints).1

namespace OwnsPending

variable {minter : Minter} {mints : Nat}

theorem increment (h : OwnsPending minter mints i cluster) (name : CellName)
    (delta writtenAt : Int64) :
    OwnsPending minter (mints + 1) i
      (Cluster.attempt force cluster (.increment i name delta writtenAt)) := by
  obtain ⟨slot, hnode, hpending⟩ := h
  have hstep := increment_of_node hnode name delta writtenAt
  unfold OwnsPending
  rw [Minter.mintMany_succ]
  cases habsorb : slot.absorb (.counter (Counter.increment (minter.mintMany mints).2 name delta
      writtenAt Counter.neverDeleted).1) with
  | error e =>
    rw [habsorb, Except.map_error] at hstep
    refine ⟨slot, ?_, List.subset_append_of_subset_left _ hpending⟩
    rw [attempt_of_error hstep, getElem?_modify_self _ hnode]
  | ok cell =>
    rw [habsorb, Except.map_ok] at hstep
    refine ⟨some cell, ?_, ?_⟩
    · rw [attempt_of_step (s := .increment i name delta writtenAt) hstep,
        getElem?_modify_self _ hnode]
    · have hold := List.subset_append_of_subset_left [(minter.mintMany mints).2.mint.1] hpending
      have hjoined := Slot.pendingIds_absorb habsorb
      exact List.Subset.trans hjoined
        (List.append_subset.mpr ⟨hold, List.subset_append_right _ _⟩)

theorem sync (h : OwnsPending minter mints i cluster) (source : Nat) :
    OwnsPending minter mints i (Cluster.attempt force cluster (.sync source i)) := by
  unfold Cluster.attempt
  split
  · rename_i next hstep
    obtain ⟨result, hresult, rfl⟩ := Except.map_eq_ok_iff.mp hstep
    rcases eq_or_ne source i with rfl | hself
    · rw [sync_self] at hresult
      cases hresult
      exact h
    · obtain ⟨exchange, hexchange, hleaves⟩ := sync_eq_ok hself hresult
      obtain ⟨slot, hnode, hpending⟩ := h
      rw [slot_eq hnode] at hexchange hleaves
      have hsub := Exchange.pendingIds_leaves hexchange
      refine ⟨exchange.leaves slot, ?_, List.Subset.trans hsub hpending⟩
      rw [hleaves, getElem?_modify_self _ hnode]
  · exact h

theorem attempt (h : OwnsPending minter mints i cluster) (hput : ∀ cell, s ≠ .put i cell) :
    OwnsPending minter (mints + if s.isIncrementAt i then 1 else 0) i
      (Cluster.attempt force cluster s) := by
  rcases eq_or_ne s.node i with rfl | hne
  · cases s with
    | increment j name delta writtenAt =>
      have hincrement : (Step.increment j name delta writtenAt).isIncrementAt j = true :=
        decide_eq_true rfl
      rw [Step.node, hincrement, if_pos rfl]
      exact h.increment name delta writtenAt
    | put j cell => exact absurd rfl (hput cell)
    | sync source target => exact h.sync source
  · have hnot : s.isIncrementAt i = false := by
      cases s with
      | increment j name delta writtenAt => exact decide_eq_false hne
      | put j cell => rfl
      | sync source target => rfl
    obtain ⟨slot, hnode, hpending⟩ := h
    rw [hnot]
    exact ⟨slot, (getElem?_attempt_of_ne hne).trans hnode, hpending⟩

theorem attemptAll (h : OwnsPending minter mints i cluster) (hput : ∀ cell, .put i cell ∉ steps) :
    OwnsPending minter (mints + steps.countP (Step.isIncrementAt i)) i
      (Cluster.attemptAll force cluster steps) := by
  induction steps generalizing cluster mints with
  | nil => exact h
  | cons s steps ih =>
    have hstep : OwnsPending minter _ i (Cluster.attempt force cluster s) :=
      h.attempt fun cell hs => hput cell (hs ▸ List.mem_cons_self)
    have hrest := ih hstep fun cell hcell => hput cell (List.mem_cons_of_mem s hcell)
    rwa [Nat.add_assoc, Nat.add_comm (ite _ _ _), ← List.countP_cons] at hrest

end OwnsPending

/-- Bytes of another process are read as those of the own one with their marks cleared, or refused for
the same reason. So in every run from an empty slot, of any increments and syncs and of cells put in
at other nodes, whatever fails and is skipped on the way, a node has no ids pending after any step
but those that its own minter has returned to its own increments. -/
theorem pending_ids_own :
    (∀ bytes,
      Cell.decode .remote bytes = Cell.clearPending <$> Cell.decode .ownProcess bytes ∧
      Counter.decode .remote bytes = Counter.clearPending <$> Counter.decode .ownProcess bytes ∧
      (∀ cell, Cell.decode .remote bytes = .ok cell → cell.pendingIds = []) ∧
      ∀ c, Counter.decode .remote bytes = .ok c → c.context.pendingIds = []) ∧
    ∀ (force : Bool) (cluster : Cluster) (steps : List Step) (i : Nat) (minter : Minter),
      cluster[i]? = some ⟨minter, none⟩ → (∀ cell, .put i cell ∉ steps) →
      ∀ done, done <+: steps →
        OwnsPending minter (done.countP (Step.isIncrementAt i)) i (attemptAll force cluster done) ∧
        ∀ reached, run force cluster done = .ok reached → attemptAll force cluster done = reached := by
  refine ⟨fun bytes => ⟨Cell.decode_remote bytes, Counter.decode_remote bytes,
    fun _ h => Cell.pendingIds_of_decode_remote h,
    fun _ h => Counter.pendingIds_of_decode_remote h⟩, ?_⟩
  intro force cluster steps i minter hnode hput done hdone
  have hstart : OwnsPending minter 0 i cluster := ⟨none, hnode, List.nil_subset _⟩
  have howns : OwnsPending minter _ i (attemptAll force cluster done) :=
    hstart.attemptAll fun cell hcell => hput cell (hdone.subset hcell)
  rw [Nat.zero_add] at howns
  exact ⟨howns, fun _ => attemptAll_of_run⟩

namespace Ownership

def key : CellName := ⟨[120]⟩

def minted (serial : Nat) (isPending : Bool) : Shard :=
  ⟨⟨Minter.mintedBytes ⟨1, 7⟩ serial, isPending⟩, 1, 5⟩

def relayed : Shard := ⟨.stable (Minter.mintedBytes ⟨2, 7⟩ 0), 1, 5⟩

def counter (shards : Array Shard) (writtenAt : Int64) : Slot :=
  some (.counter ⟨key, .ofSorted shards, writtenAt, Counter.neverDeleted⟩)

def before : Cluster := #[⟨⟨1, 7⟩, none⟩, ⟨⟨2, 7⟩, none⟩]

/-- The first id goes out and comes back as a stable one, the second is spent on another cell's name,
and only the third is still pending in the end. -/
def taken : List Step :=
  [.increment 0 key 5 30, .sync 0 1, .increment 0 ⟨[121]⟩ 5 31, .increment 1 key 5 32, .sync 1 0,
    .increment 0 key 5 33]

def shared : Cluster :=
  #[⟨⟨1, 8⟩, counter #[minted 0 true] 30⟩, ⟨⟨2, 7⟩, counter #[minted 0 false] 30⟩]

def after : Slot := counter #[minted 0 false, minted 2 true, relayed] 33

end Ownership

open Ownership in
theorem pending_ids_own_of_return :
    run false before (taken.take 2) = .ok shared ∧
      attemptAll false before (taken.take 2) = shared ∧
      slot (attemptAll false before taken) 0 = after ∧
      after.pendingIds = [.pending (Minter.mintedBytes ⟨1, 7⟩ 2)] ∧
      OwnsPending ⟨1, 7⟩ 3 0 (attemptAll false before taken) := by
  have hput : ∀ cell, .put 0 cell ∉ taken := by simp [taken]
  have hshared : run false before (taken.take 2) = .ok shared := by decide +kernel
  have howns := pending_ids_own.2 false before taken 0 ⟨1, 7⟩ rfl hput
  exact ⟨hshared, (howns _ (List.take_prefix 2 taken)).2 _ hshared, by decide +kernel,
    by decide +kernel, (howns taken List.prefix_rfl).1⟩

end Cluster
end ShardCounter
