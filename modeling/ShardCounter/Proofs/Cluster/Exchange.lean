import ShardCounter.Cluster.Basic
import ShardCounter.Proofs.Cluster.Slot
/-! What an exchange that has succeeded has done, and what a step has that it is a part of. -/
namespace ShardCounter

namespace Exchange

variable {outgoing c : Cell} {receiver : Slot}

theorem absorb_of_transfer (hcanonical : ∀ c, outgoing = .counter c → c.context.Canonical)
    (h : transfer .remote outgoing receiver = .ok c) :
    receiver.absorb outgoing.clearPending = .ok c := by
  unfold transfer at h
  obtain ⟨bytes, hbytes, h⟩ := Except.bind_eq_ok_iff.mp h
  obtain ⟨bytes', hbytes', hdecode⟩ :=
    Cell.decode_encode (Cell.encodable_of_encode hcanonical hbytes)
  rw [hbytes] at hbytes'
  cases hbytes'
  rw [hdecode .remote, Except.ok_bind] at h
  exact h

theorem run_some_cases {force : Bool} {exchange : Exchange}
    (h : run .remote force (some outgoing) receiver = .ok exchange) :
    (∃ c, transfer .remote outgoing receiver = .ok c ∧ exchange = .sent c) ∨
      force = false ∧ exchange = .skipped ∧
        ∃ current, receiver = some current ∧ current.diff? outgoing = .ok none := by
  have hsent (h : Exchange.sent <$> transfer .remote outgoing receiver = .ok exchange) :
      ∃ c, transfer .remote outgoing receiver = .ok c ∧ exchange = .sent c := by
    obtain ⟨c, hc, rfl⟩ := Except.map_eq_ok_iff.mp h
    exact ⟨c, hc, rfl⟩
  cases receiver with
  | none => exact .inl (hsent h)
  | some current =>
    cases force with
    | true => exact .inl (hsent h)
    | false =>
      unfold run at h
      obtain ⟨lacking, hlacking, h⟩ := Except.bind_eq_ok_iff.mp h
      obtain ⟨diff, hdiff, rfl⟩ := Except.map_eq_ok_iff.mp hlacking
      cases diff with
      | none =>
        cases h
        exact .inr ⟨rfl, rfl, current, rfl, hdiff⟩
      | some lacked => exact .inl (hsent h)

end Exchange

namespace Cluster

variable {cluster : Cluster} {i : Nat} {node : Node}

theorem getElem?_modify_self (f : Node → Node) (h : cluster[i]? = some node) :
    (Array.modify cluster i f)[i]? = some (f node) := by
  rw [Array.getElem?_modify, if_pos rfl, h]
  rfl

theorem getElem?_modify_of_ne (cluster : Cluster) {j : Nat} (f : Node → Node) (h : j ≠ i) :
    (Array.modify cluster i f)[j]? = cluster[j]? := by
  rw [Array.getElem?_modify, if_neg h.symm]

theorem slot_eq (h : cluster[i]? = some node) : slot cluster i = node.slot := by
  rw [slot, h]
  rfl

theorem increment_of_node (hnode : cluster[i]? = some node) (name : CellName)
    (delta writtenAt : Int64) :
    increment cluster i name delta writtenAt =
      (fun cell => cluster.modify i fun _ => ⟨node.minter.mint.2, some cell⟩) <$>
        node.slot.absorb
          (.counter (Counter.increment node.minter name delta writtenAt Counter.neverDeleted).1) := by
  unfold increment
  rw [hnode]
  rfl

theorem sync_self (cluster : Cluster) (i : Nat) (force : Bool) :
    sync cluster i i force = .ok (false, cluster) :=
  if_pos rfl

theorem sync_eq_ok {source target : Nat} {force : Bool}
    {result : Bool × Cluster} (hne : source ≠ target)
    (h : sync cluster source target force = .ok result) :
    ∃ exchange, Exchange.run .remote force (slot cluster source) (slot cluster target) =
        .ok exchange ∧
      result.2 = cluster.modify target fun node =>
        { node with slot := exchange.leaves (slot cluster target) } := by
  have hkeep : cluster = cluster.modify target fun node =>
      { node with slot := slot cluster target } := by
    apply Array.ext_getElem?
    intro i
    rw [Array.getElem?_modify]
    split
    · rename_i htarget
      rw [← htarget]
      cases hnode : cluster[target]? <;> simp [slot, hnode]
    · rfl
  unfold sync at h
  rw [if_neg hne] at h
  obtain ⟨exchange, hexchange, h⟩ := Except.bind_eq_ok_iff.mp h
  refine ⟨exchange, hexchange, ?_⟩
  cases exchange with
  | nothing =>
    cases h
    exact hkeep
  | skipped =>
    cases h
    exact hkeep
  | sent cell =>
    cases h
    rfl

end Cluster
end ShardCounter
