import ShardCounter.Proofs.Cluster.Replication
/-! The timestamp of a live cell is the latest of the increments that its node has heard of, and
without deletes it has no other. A sync that is skipped would not have changed it. -/
namespace ShardCounter

variable {size : Nat}

/-- The timestamps that nodes have heard of: their own, and those of the nodes that sync to them. -/
def Act.hear (heard : Fin size → Finset Int64) : Act size → Fin size → Finset Int64
  | .increment i _ writtenAt => Function.update heard i (insert writtenAt (heard i))
  | .sync source target => Function.update heard target (heard target ∪ heard source)

def heardAfter (acts : List (Act size)) : Fin size → Finset Int64 := acts.foldl Act.hear fun _ => ∅

structure Counter.Stamped (heard : Finset Int64) (c : Counter) : Prop where
  canonical : c.context.Canonical
  lastDelete_eq : c.lastDelete = neverDeleted
  mem : c.writtenAt ∈ heard
  le : ∀ stamp ∈ heard, stamp ≤ c.writtenAt

def Slot.Stamped (heard : Finset Int64) : Slot → Prop
  | none => heard = ∅
  | some cell => ∃ c, cell = .counter c ∧ c.Stamped heard

variable {heard heard' : Finset Int64}

namespace Counter.Stamped

variable {c d : Counter} {context : Context}

theorem writtenAt_eq (hc : c.Stamped heard) (hd : d.Stamped heard) : c.writtenAt = d.writtenAt :=
  Int64.le_antisymm (hd.le _ hc.mem) (hc.le _ hd.mem)

theorem clearPending (hc : c.Stamped heard) : c.clearPending.Stamped heard :=
  { hc with canonical := hc.canonical.clearPending }

theorem join (hc : c.Stamped heard) (hd : d.Stamped heard')
    (h : c.context.merge d.context = .ok context) :
    (c.join d context).Stamped (heard ∪ heard') where
  canonical := Context.canonical_merge hc.canonical hd.canonical h
  lastDelete_eq := by
    show max c.lastDelete d.lastDelete = neverDeleted
    rw [hc.lastDelete_eq, hd.lastDelete_eq]
    rfl
  mem := by
    show max c.writtenAt d.writtenAt ∈ heard ∪ heard'
    rcases max_cases c.writtenAt d.writtenAt with ⟨hmax, -⟩ | ⟨hmax, -⟩
    · rw [hmax]
      exact Finset.mem_union_left _ hc.mem
    · rw [hmax]
      exact Finset.mem_union_right _ hd.mem
  le stamp hstamp := by
    rcases Finset.mem_union.mp hstamp with hstamp | hstamp
    · exact Int64.le_trans (hc.le stamp hstamp) (le_max_left _ _)
    · exact Int64.le_trans (hd.le stamp hstamp) (le_max_right _ _)

theorem of_diff? (hc : c.Stamped heard) (hd : d.Stamped heard') (h : c.diff? d = none) :
    c.Stamped (heard ∪ heard') := by
  have hwritten : d.writtenAt ≤ c.writtenAt := by
    unfold diff? at h
    split at h
    · contradiction
    · rename_i hlacks
      rw [not_or, Int64.not_lt] at hlacks
      exact hlacks.1
  refine ⟨hc.canonical, hc.lastDelete_eq, Finset.mem_union_left _ hc.mem, fun stamp hstamp => ?_⟩
  rcases Finset.mem_union.mp hstamp with hstamp | hstamp
  · exact hc.le stamp hstamp
  · exact Int64.le_trans (hd.le stamp hstamp) hwritten

end Counter.Stamped

namespace Slot.Stamped

variable {slot sender receiver : Slot} {c : Counter} {cell : Cell} {exchange : Exchange}

theorem absorb (hslot : slot.Stamped heard) (hc : c.Stamped heard')
    (h : slot.absorb (.counter c) = .ok cell) : Slot.Stamped (heard ∪ heard') (some cell) := by
  cases slot with
  | none =>
    cases h
    have hnone : heard = ∅ := hslot
    rw [hnone, Finset.empty_union]
    exact ⟨c, rfl, hc⟩
  | some current =>
    obtain ⟨d, rfl, hd⟩ := hslot
    cases Cell.reconciles_of_reconcile h with
    | counters _ _ _ hmerge => exact ⟨_, rfl, hd.join hc hmerge⟩

theorem leaves (hsender : sender.Stamped heard') (hreceiver : receiver.Stamped heard)
    (h : Exchange.run .remote false sender receiver = .ok exchange) :
    (exchange.leaves receiver).Stamped (heard ∪ heard') := by
  cases sender with
  | none =>
    cases h
    have hnone : heard' = ∅ := hsender
    rw [hnone, Finset.union_empty]
    exact hreceiver
  | some outgoing =>
    obtain ⟨c, rfl, hc⟩ := hsender
    have hcanonical (k : Counter) (hk : Cell.counter c = .counter k) : k.context.Canonical := by
      cases hk
      exact hc.canonical
    rcases Exchange.run_some_cases h with ⟨cell, hcell, rfl⟩ | ⟨-, rfl, current, rfl, hdiff⟩
    · exact hreceiver.absorb hc.clearPending (Exchange.absorb_of_transfer hcanonical hcell)
    · obtain ⟨d, rfl, hd⟩ := hreceiver
      rw [Cell.diff?_counters (Cell.name_eq_of_diff? hdiff), Except.ok.injEq,
        Option.map_eq_none_iff] at hdiff
      exact ⟨d, rfl, hd.of_diff? hc hdiff⟩

end Slot.Stamped

namespace Cluster

def Stamped (heard : Fin size → Finset Int64) (cluster : Cluster) : Prop :=
  ∀ i : Fin size, ∃ node, cluster[i.val]? = some node ∧ node.slot.Stamped (heard i)

namespace Stamped

variable {heard : Fin size → Finset Int64} {cluster cluster' : Cluster} {name : CellName}

theorem modify (h : Stamped heard cluster) (i : Fin size) {stamps : Finset Int64} {f : Node → Node}
    (hf : ∀ node, cluster[i.val]? = some node → (f node).slot.Stamped stamps) :
    Stamped (Function.update heard i stamps) (Array.modify cluster i f) := by
  intro j
  rcases eq_or_ne j i with rfl | hne
  · obtain ⟨node, hnode, -⟩ := h j
    rw [Function.update_self]
    exact ⟨f node, getElem?_modify_self f hnode, hf node hnode⟩
  · rw [Function.update_of_ne hne, getElem?_modify_of_ne cluster f (Fin.val_ne_of_ne hne)]
    exact h j

theorem increment (h : Stamped heard cluster) (i : Fin size) (delta writtenAt : Int64)
    (hstep : Cluster.increment cluster i name delta writtenAt = .ok cluster') :
    Stamped (Act.hear heard (.increment i delta writtenAt)) cluster' := by
  obtain ⟨node, hnode, hslot⟩ := h i
  rw [increment_of_node hnode] at hstep
  obtain ⟨cell, hcell, rfl⟩ := Except.map_eq_ok_iff.mp hstep
  have hminted : (Counter.increment node.minter name delta writtenAt
      Counter.neverDeleted).1.Stamped {writtenAt} := by
    refine ⟨Context.canonical_ofSorted_singleton _, rfl, Finset.mem_singleton_self _, ?_⟩
    intro stamp hstamp
    rw [Finset.mem_singleton.mp hstamp]
    exact Int64.le_refl _
  have hstamped := hslot.absorb hminted hcell
  rw [Finset.union_comm, ← Finset.insert_eq] at hstamped
  exact h.modify i fun _ _ => hstamped

theorem sync (h : Stamped heard cluster) (source target : Fin size) {result : Bool × Cluster}
    (hstep : Cluster.sync cluster source target false = .ok result) :
    Stamped (Act.hear heard (.sync source target)) result.2 := by
  obtain ⟨sender, hsource, hsender⟩ := h source
  obtain ⟨receiver, htarget, hreceiver⟩ := h target
  rcases eq_or_ne source target with rfl | hne
  · rw [sync_self] at hstep
    cases hstep
    rw [Act.hear, Finset.union_self, Function.update_eq_self]
    exact h
  · obtain ⟨exchange, hexchange, hresult⟩ := sync_eq_ok (Fin.val_ne_of_ne hne) hstep
    rw [slot_eq hsource, slot_eq htarget] at hexchange
    rw [hresult, slot_eq htarget]
    exact h.modify target fun _ _ => hsender.leaves hreceiver hexchange

theorem step (h : Stamped heard cluster) (a : Act size)
    (hstep : Cluster.step false cluster (a.step name) = .ok cluster') :
    Stamped (a.hear heard) cluster' := by
  cases a with
  | increment i delta writtenAt => exact h.increment i delta writtenAt hstep
  | sync source target =>
    obtain ⟨result, hresult, rfl⟩ := Except.map_eq_ok_iff.mp hstep
    exact h.sync source target hresult

end Stamped

theorem stamped_run {cluster reached : Cluster} {name : CellName}
    (hstart : Stamped (fun _ : Fin size => ∅) cluster) (acts : List (Act size))
    (h : run false cluster (acts.map (Act.step name)) = .ok reached) :
    Stamped (heardAfter acts) reached := by
  -- From the end of the run, since what a node has heard of grows with each act.
  induction acts using List.reverseRecOn generalizing reached with
  | nil =>
    cases h
    exact hstart
  | append_singleton acts a ih =>
    rw [List.map_append, List.map_singleton, run_concat] at h
    obtain ⟨before, hbefore, h⟩ := Except.bind_eq_ok_iff.mp h
    rw [heardAfter, List.foldl_append]
    exact (ih hbefore).step a h

end Cluster
end ShardCounter
