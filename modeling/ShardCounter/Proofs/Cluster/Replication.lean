import Mathlib.Algebra.BigOperators.Group.Finset.Basic
import ShardCounter.Proofs.Cluster.Exchange
import ShardCounter.Proofs.Context.Total
/-! Replication loses no increment, invents none and counts none twice. After every step of a run each
slot holds one shard for each increment its node knows of, whatever was sent, skipped or repeated. -/
namespace ShardCounter

variable {size : Nat} {minters : Fin size → Minter} {name : CellName}

namespace Counter.Holds

variable {made : List (Contribution size)} {known : Finset (Contribution size)} {c : Counter}

theorem shards_eq (hapart : Contribution.Apart minters made) (hknown : ∀ e ∈ known, e ∈ made)
    (hc : c.Holds minters name known) :
    (c.context.shards.toList.map Shard.toStable : Multiset Shard) =
      known.val.map (Contribution.shard minters) := by
  have hleft : (c.context.shards.toList.map Shard.toStable).Nodup := by
    have hbytes : ((c.context.shards.toList.map Shard.toStable).map (·.id.bytes)).Nodup := by
      rw [List.map_map]
      exact Ascending.nodup_bytes hc.canonical.ascending
    exact hbytes.of_map _
  have hright : (known.val.map (Contribution.shard minters)).Nodup := by
    apply Multiset.Nodup.map_on _ known.nodup
    intro e he f hf hef
    exact hapart e (hknown e he) f (hknown f hf) (congrArg (·.id.bytes) hef)
  apply (Multiset.Nodup.ext (Multiset.coe_nodup.mpr hleft) hright).mpr
  intro s
  rw [Multiset.mem_coe, List.mem_map, Multiset.mem_map]
  constructor
  · rintro ⟨t, ht, rfl⟩
    obtain ⟨e, he, hte⟩ := hc.sound t (Array.mem_toList_iff.mp ht)
    exact ⟨e, he, hte.symm⟩
  · rintro ⟨e, he, rfl⟩
    obtain ⟨t, ht, hte⟩ := hc.complete e he
    exact ⟨t, Array.mem_toList_iff.mpr ht, hte⟩

theorem total_eq (hapart : Contribution.Apart minters made) (hknown : ∀ e ∈ known, e ∈ made)
    (hc : c.Holds minters name known) :
    c.total = Int64.ofInt (∑ e ∈ known, e.delta.toInt) := by
  have hcounts := congrArg (fun m => (m.map fun s : Shard => s.count.toInt).sum)
    (hc.shards_eq hapart hknown)
  simp only [Multiset.map_coe, Multiset.sum_coe, List.map_map, Multiset.map_map] at hcounts
  rw [total, Context.total_eq]
  exact congrArg Int64.ofInt hcounts

end Counter.Holds

/-- An increment that has just been minted and not left its node yet. -/
def Contribution.minted (minters : Fin size → Minter) (name : CellName) (writtenAt : Int64)
    (e : Contribution size) : Counter where
  name := name
  context := .ofSorted #[⟨.pending (e.bytes minters), 1, e.delta⟩]
  writtenAt := writtenAt
  lastDelete := Counter.neverDeleted

theorem Counter.increment_after (minters : Fin size → Minter) (name : CellName)
    (e : Contribution size) (writtenAt : Int64) :
    Counter.increment ((minters e.node).after e.serial) name e.delta writtenAt neverDeleted =
      (e.minted minters name writtenAt, (minters e.node).after (e.serial + 1)) := by
  unfold Counter.increment Context.increment
  rw [Minter.mint_after]
  rfl

theorem Counter.Holds.minted (name : CellName) (e : Contribution size) (writtenAt : Int64) :
    (e.minted minters name writtenAt).Holds minters name {e} := by
  refine ⟨rfl, Context.canonical_ofSorted_singleton _, ?_, ?_⟩
  · intro s hs
    rw [Array.mem_singleton.mp hs]
    exact ⟨e, Finset.mem_singleton_self e, rfl⟩
  · intro f hf
    rw [Finset.mem_singleton.mp hf]
    exact ⟨_, Array.mem_singleton.mpr rfl, rfl⟩

/-- One shard of clock 1 for each of these increments and no others, and their sum as the total; the
slot is empty only if there are none. -/
def Slot.Exactly (minters : Fin size → Minter) (known : Finset (Contribution size)) (slot : Slot) :
    Prop :=
  (slot = none ↔ known = ∅) ∧
  ∀ cell, slot = some cell → ∃ c, cell = .counter c ∧
    (c.context.shards.toList.map Shard.toStable : Multiset Shard) =
      known.val.map (Contribution.shard minters) ∧
    c.total = Int64.ofInt (∑ e ∈ known, e.delta.toInt)

theorem Slot.Holds.exactly {made : List (Contribution size)} {known : Finset (Contribution size)}
    {slot : Slot} (hapart : Contribution.Apart minters made) (hknown : ∀ e ∈ known, e ∈ made)
    (h : slot.Holds minters name known) : slot.Exactly minters known := by
  cases slot with
  | none => exact ⟨iff_of_true rfl h, fun _ hcell => nomatch hcell⟩
  | some cell =>
    obtain ⟨hsome, c, rfl, hc⟩ := h
    refine ⟨iff_of_false (Option.some_ne_none _) hsome.ne_empty, fun cell hcell => ?_⟩
    cases hcell
    exact ⟨c, rfl, hc.shards_eq hapart hknown, hc.total_eq hapart hknown⟩

namespace Cluster

/-- Every minter has minted the increments of its node, and every slot holds what its node knows. -/
def Matches (minters : Fin size → Minter) (name : CellName) (l : Ledger size) (cluster : Cluster) :
    Prop :=
  ∀ i : Fin size, ∃ slot, cluster[i.val]? = some ⟨(minters i).after (l.madeBy i), slot⟩ ∧
    slot.Holds minters name (l.known i)

namespace Matches

variable {l l' : Ledger size} {cluster cluster' : Cluster} {i source target : Fin size}
  {delta writtenAt : Int64} {slot : Slot}

theorem update (h : Matches minters name l cluster)
    (hnode : cluster'[i.val]? = some ⟨(minters i).after (l'.madeBy i), slot⟩)
    (hslot : slot.Holds minters name (l'.known i))
    (hnodes : ∀ j : Fin size, j ≠ i → cluster'[j.val]? = cluster[j.val]?)
    (hothers : ∀ j, j ≠ i → l'.madeBy j = l.madeBy j ∧ l'.known j = l.known j) :
    Matches minters name l' cluster' := by
  intro j
  rcases eq_or_ne j i with rfl | hne
  · exact ⟨slot, hnode, hslot⟩
  · obtain ⟨slot', hnode', hslot'⟩ := h j
    obtain ⟨hmade, hknown⟩ := hothers j hne
    refine ⟨slot', ?_, hknown ▸ hslot'⟩
    rw [hnodes j hne, hnode', hmade]

theorem increment (hapart : Contribution.Apart minters (l.step (.increment i delta writtenAt)).made)
    (hwf : l.WellFormed) (h : Matches minters name l cluster) :
    Delivers (maxPendingIndex < (l.step (.increment i delta writtenAt)).made.length)
      (Matches minters name (l.step (.increment i delta writtenAt)))
      (Cluster.increment cluster i name delta writtenAt) := by
  obtain ⟨slot, hnode, hslot⟩ := h i
  have hminted : Counter.increment ((minters i).after (l.madeBy i)) name delta writtenAt
      Counter.neverDeleted = ((l.next i delta).minted minters name writtenAt,
        (minters i).after (l.madeBy i + 1)) :=
    Counter.increment_after minters name (l.next i delta) writtenAt
  have hknown : ∀ e ∈ l.known i, e ∈ l.next i delta :: l.made := fun e he =>
    List.mem_cons_of_mem _ (hwf.made_of_known i e he)
  have hnew : ∀ e ∈ ({l.next i delta} : Finset (Contribution size)),
      e ∈ l.next i delta :: l.made := fun e he =>
    Finset.mem_singleton.mp he ▸ List.mem_cons_self
  have habsorb := hslot.absorb hapart hknown hnew (Finset.singleton_nonempty _)
    (.minted name (l.next i delta) writtenAt)
  rw [Finset.union_comm, ← Finset.insert_eq] at habsorb
  unfold Cluster.increment
  rw [hnode]
  dsimp only
  rw [hminted]
  apply habsorb.bind
  intro cell hcell
  have hmade : (l.step (.increment i delta writtenAt)).madeBy i = l.madeBy i + 1 := by
    rw [Ledger.madeBy_increment, if_pos rfl]
  have hslot' : Slot.Holds minters name ((l.step (.increment i delta writtenAt)).known i)
      (some cell) := by
    rw [Ledger.known_increment_self]
    exact hcell
  have hnodes (minted : Node) : ∀ j : Fin size, j ≠ i →
      (Array.modify cluster i fun _ => minted)[j.val]? = cluster[j.val]? :=
    fun j hne => getElem?_modify_of_ne cluster _ (Fin.val_ne_of_ne hne)
  refine .ok (h.update ?_ hslot' (hnodes _) fun j hne => ?_)
  · rw [getElem?_modify_self _ hnode, hmade]
  · rw [Ledger.madeBy_increment, if_neg hne.symm, Ledger.known_increment_of_ne l hne]
    exact ⟨rfl, rfl⟩

theorem learn (h : Matches minters name l cluster)
    (hnode : cluster'[target.val]? = some ⟨(minters target).after (l.madeBy target), slot⟩)
    (hslot : slot.Holds minters name (l.known target ∪ l.known source))
    (hnodes : ∀ j : Fin size, j ≠ target → cluster'[j.val]? = cluster[j.val]?) :
    Matches minters name (l.step (.sync source target)) cluster' := by
  refine h.update hnode ?_ hnodes fun j hne => ⟨rfl, Ledger.known_sync_of_ne l hne⟩
  rw [Ledger.known_sync_self]
  exact hslot

theorem sync (hapart : Contribution.Apart minters l.made) (hwf : l.WellFormed)
    (hname : name.size ≤ maxNameSize) (h : Matches minters name l cluster) :
    Delivers (maxPendingIndex < l.made.length)
      (fun result => Matches minters name (l.step (.sync source target)) result.2)
      (Cluster.sync cluster source target false) := by
  obtain ⟨sender, hsource, hsender⟩ := h source
  obtain ⟨receiver, htarget, hreceiver⟩ := h target
  unfold Cluster.sync
  split
  · rename_i heq
    have hself : source = target := Fin.ext heq
    refine .ok (h.learn htarget ?_ fun _ _ => rfl)
    rw [hself, Finset.union_self]
    exact hreceiver
  · rw [slot_eq hsource, slot_eq htarget]
    have hexchange := hreceiver.exchange hapart (hwf.made_of_known target)
      (hwf.made_of_known source) hname hsender
    apply hexchange.bind
    intro exchange hleaves
    cases exchange with
    | nothing => exact .ok (h.learn htarget hleaves fun _ _ => rfl)
    | skipped => exact .ok (h.learn htarget hleaves fun _ _ => rfl)
    | sent cell =>
      exact .ok (h.learn (getElem?_modify_self _ htarget) hleaves
        fun j hne => getElem?_modify_of_ne cluster _ (Fin.val_ne_of_ne hne))

theorem step (hname : name.size ≤ maxNameSize) (hwf : l.WellFormed) (a : Act size)
    (hapart : Contribution.Apart minters (l.step a).made) (h : Matches minters name l cluster) :
    Delivers (maxPendingIndex < (l.step a).made.length) (Matches minters name (l.step a))
      (Cluster.step false cluster (a.step name)) := by
  cases a with
  | increment i delta writtenAt => exact h.increment hapart hwf
  | sync source target =>
    have hapart : Contribution.Apart minters l.made := hapart
    exact (h.sync hapart hwf hname).map Prod.snd fun _ hresult => hresult

end Matches

theorem run_concat (cluster : Cluster) (steps : List Step) (step' : Step) :
    run false cluster (steps ++ [step']) = run false cluster steps >>= (step false · step') := by
  rw [run, List.foldlM_append]
  simp [run]

theorem matches_empty {cluster : Cluster} (hempty : ∀ i : Fin cluster.size, cluster[i].slot = none) :
    Matches (fun i => cluster[i].minter) name Ledger.empty cluster := by
  intro i
  refine ⟨none, ?_, rfl⟩
  have hmade : (Ledger.empty : Ledger cluster.size).madeBy i = 0 := rfl
  rw [Array.getElem?_eq_getElem i.isLt, hmade, Minter.after_zero, ← hempty i]
  rfl

theorem matches_run {cluster : Cluster} (hstart : Matches minters name Ledger.empty cluster)
    (hids : Function.Injective fun i => (minters i).nodeId) (hname : name.size ≤ maxNameSize)
    (acts : List (Act size)) (hfew : ∀ i, acts.countP (Act.isIncrementAt i) < 2 ^ 64) :
    Delivers (maxPendingIndex < (Ledger.after acts).made.length)
      (Matches minters name (Ledger.after acts))
      (run false cluster (acts.map (Act.step name))) := by
  induction acts using List.reverseRecOn with
  | nil => exact .ok hstart
  | append_singleton acts a ih =>
    have hapart := Ledger.apart_after hids hfew
    have hprefix : ∀ i, acts.countP (Act.isIncrementAt i) < 2 ^ 64 := fun i =>
      (((List.sublist_append_left acts [a]).countP_le).trans_lt (hfew i))
    rw [Ledger.after_concat] at hapart ⊢
    rw [List.map_append, List.map_singleton, run_concat]
    have hgrow := (Ledger.made_sublist_step (Ledger.after acts) a).length_le
    apply ((ih hprefix).weaken fun h => h.trans_le hgrow).bind
    intro c hc
    exact hc.step hname (Ledger.wellFormed_after acts) a hapart

/-- Increments and exchanges in any order and any number: after every step that is reached, each node
holds exactly the increments it knows of. No two versions ever disagree, and as long as the header
can point to a shard for every increment, no step fails. -/
theorem replication_exact {cluster : Cluster} {acts : List (Act cluster.size)}
    (hempty : ∀ i : Fin cluster.size, cluster[i].slot = none)
    (hids : Function.Injective fun i : Fin cluster.size => cluster[i].minter.nodeId)
    (hname : name.size ≤ 65535)
    (hfew : ∀ i, acts.countP (Act.isIncrementAt i) < 2 ^ 64) :
    (∀ done, done <+: acts →
      ∀ reached, run false cluster (done.map (Act.step name)) = .ok reached →
      ∀ i : Fin cluster.size, (slot reached i).Exactly (fun i => cluster[i].minter)
        ((Ledger.after done).known i)) ∧
    (∀ e, run false cluster (acts.map (Act.step name)) = .error e →
      (∀ left right, e ≠ .nameMismatch left right) ∧
      (∀ replica clock left right,
        e ≠ .context (.clockCountMismatch replica clock left right)) ∧
      ∀ replica, e ≠ .context (.duplicateReplica replica)) ∧
    (acts.countP Act.isIncrement ≤ 32767 →
      ∃ reached, run false cluster (acts.map (Act.step name)) = .ok reached) := by
  have hdone : ∀ done, done <+: acts → ∀ i, done.countP (Act.isIncrementAt i) < 2 ^ 64 :=
    fun done hprefix i => hprefix.sublist.countP_le.trans_lt (hfew i)
  have hrun := matches_run (matches_empty hempty) hids hname acts hfew
  refine ⟨?_, ?_, ?_⟩
  · intro done hprefix reached hreached i
    have hfew' := hdone done hprefix
    rcases matches_run (matches_empty hempty) hids hname done hfew' with
      ⟨c, hc, hmatch⟩ | ⟨-, e, he, -⟩
    · rw [hreached] at hc
      cases hc
      obtain ⟨slot, hnode, hslot⟩ := hmatch i
      rw [slot_eq hnode]
      exact hslot.exactly (Ledger.apart_after hids hfew')
        ((Ledger.wellFormed_after done).made_of_known i)
    · rw [hreached] at he
      contradiction
  · intro e he
    rcases hrun with ⟨c, hc, -⟩ | ⟨-, e', he', hmalformed⟩
    · rw [he] at hc
      contradiction
    · rw [he] at he'
      cases he'
      refine ⟨?_, ?_, ?_⟩
      · rintro left right rfl
        exact hmalformed
      · rintro replica clock left right rfl
        exact hmalformed
      · rintro replica rfl
        exact hmalformed
  · intro hfit
    rcases hrun with ⟨c, hc, -⟩ | ⟨hmany, -⟩
    · exact ⟨c, hc⟩
    · rw [Ledger.length_made_after] at hmany
      exact absurd hfit (not_le.mpr hmany)

namespace Replication

def pair : Cluster := #[{ minter := ⟨1, 7⟩ }, { minter := ⟨2, 7⟩ }]

def key : CellName := ⟨[120]⟩

def left : Fin pair.size := ⟨0, by decide⟩

def right : Fin pair.size := ⟨1, by decide⟩

def acts : List (Act pair.size) :=
  [.increment left 5 10, .increment right 7 11, .sync left right, .increment left (-2) 12,
    .sync right left, .sync right left]

end Replication

open Replication in
theorem replication_exact_of_exchange :
    ∃ reached, run false pair (acts.map (Act.step key)) = .ok reached ∧
      (∃ c, slot reached left = some (.counter c) ∧ c.total = 10) ∧
      ∃ c, slot reached right = some (.counter c) ∧ c.total = 12 := by
  have hempty : ∀ i : Fin pair.size, pair[i].slot = none := by decide
  have hids : ∀ i j : Fin pair.size, pair[i].minter.nodeId = pair[j].minter.nodeId → i = j := by
    decide
  have hfew : ∀ i, acts.countP (Act.isIncrementAt i) < 2 ^ 64 := by decide
  have hname : key.size ≤ 65535 := by decide
  obtain ⟨hexact, -, htotal⟩ := replication_exact hempty (fun i j => hids i j) hname hfew
  obtain ⟨reached, hreached⟩ := htotal (by decide)
  have hknows : ∀ i, (Ledger.after acts).known i ≠ ∅ := by decide
  have hcell : ∀ i : Fin pair.size, ∃ c, slot reached i = some (.counter c) ∧
      c.total = Int64.ofInt (∑ e ∈ (Ledger.after acts).known i, e.delta.toInt) := by
    intro i
    obtain ⟨hnone, hsome⟩ := hexact acts List.prefix_rfl reached hreached i
    obtain ⟨cell, hslot⟩ := Option.ne_none_iff_exists'.mp (mt hnone.mp (hknows i))
    obtain ⟨c, rfl, -, htotal⟩ := hsome cell hslot
    exact ⟨c, hslot, htotal⟩
  obtain ⟨c, hc, hsum⟩ := hcell left
  obtain ⟨d, hd, hsum'⟩ := hcell right
  exact ⟨reached, hreached, ⟨c, hc, hsum.trans (by decide)⟩, ⟨d, hd, hsum'.trans (by decide)⟩⟩

end Cluster
end ShardCounter
