import Mathlib.Data.Finset.Union
import ShardCounter.Proofs.Cell.Reconcile
import ShardCounter.Proofs.Context.Join
import ShardCounter.Proofs.MergeTree
/-! The order of merges does not matter for live data. Whatever the order and bracketing, and however
often a version is delivered again, the result is the join of the records that the versions hold. -/
namespace ShardCounter

namespace MergeTree

variable {α ε : Type} [DecidableEq α]

/-- All ways to join these versions that succeed give one result. -/
def Confluent (join : α → α → Except ε α) (versions : Finset α) : Prop :=
  ∀ (t u : MergeTree α) (a b : α), t.leaves.toFinset = versions → u.leaves.toFinset = versions →
    t.eval join = .ok a → u.eval join = .ok b → a = b

def Total (join : α → α → Except ε α) (versions : Finset α) : Prop :=
  ∀ t : MergeTree α, t.leaves.toFinset = versions → ∃ a, t.eval join = .ok a

theorem mem_leaves_iff {t : MergeTree α} {versions : Finset α} (ht : t.leaves.toFinset = versions)
    {v : α} : v ∈ t.leaves ↔ v ∈ versions := by
  rw [← ht, List.mem_toFinset]

end MergeTree

namespace Context

def ConflictFree (contexts : Finset Context) : Prop :=
  ∀ a ∈ contexts, ∀ b ∈ contexts, ∀ s ∈ a.shards, ∀ t ∈ b.shards, ¬ s.Conflicts t

instance (contexts : Finset Context) : Decidable (ConflictFree contexts) :=
  inferInstanceAs (Decidable (∀ a ∈ contexts, ∀ b ∈ contexts, ∀ s ∈ a.shards, ∀ t ∈ b.shards, _))

def recordsOf (contexts : List Context) : Set Shard := {s | ∃ c ∈ contexts, s ∈ c.shards}

theorem recordsOf_append (xs ys : List Context) :
    recordsOf (xs ++ ys) = recordsOf xs ∪ recordsOf ys := by
  ext s
  simp [recordsOf, or_and_right, exists_or]

theorem recordsOf_singleton (c : Context) : recordsOf [c] = c.records := by
  ext s
  simp [recordsOf, records]

theorem recordsOf_congr {xs ys : List Context} (h : ∀ c, c ∈ xs ↔ c ∈ ys) :
    recordsOf xs = recordsOf ys := by
  ext s
  simp only [recordsOf, Set.mem_ofPred_eq, h]

theorem isJoin_of_eval {t : MergeTree Context} {result : Context}
    (hcanonical : ∀ c ∈ t.leaves, c.Canonical) (h : t.eval merge = .ok result) :
    result.Canonical ∧ result.IsJoin (recordsOf t.leaves) := by
  refine MergeTree.eval_induction (fun xs c => c.Canonical ∧ c.IsJoin (recordsOf xs)) ?_ ?_ h
  · rintro xs ys l r joined ⟨hl, hjl⟩ ⟨hr, hjr⟩ hmerge
    rw [recordsOf_append]
    exact ⟨canonical_merge hl hr hmerge, hjl.merge hl hr hjr hmerge⟩
  · intro c hc
    rw [recordsOf_singleton]
    exact ⟨hcanonical c hc, isJoin_records c⟩

theorem confluent_merge {contexts : Finset Context} (hcanonical : ∀ c ∈ contexts, c.Canonical) :
    MergeTree.Confluent merge contexts := by
  intro t u a b ht hu hta hub
  have hmem : ∀ c, c ∈ t.leaves ↔ c ∈ u.leaves := fun c => by
    rw [MergeTree.mem_leaves_iff ht, MergeTree.mem_leaves_iff hu]
  obtain ⟨ha, hja⟩ := isJoin_of_eval
    (fun c hc => hcanonical c ((MergeTree.mem_leaves_iff ht).mp hc)) hta
  obtain ⟨hb, hjb⟩ := isJoin_of_eval
    (fun c hc => hcanonical c ((MergeTree.mem_leaves_iff hu).mp hc)) hub
  rw [recordsOf_congr hmem] at hja
  exact hja.unique ha hb hjb

/-- What any join of some of the contexts is like: canonical, and made of their records. -/
structure MadeFrom (contexts : Finset Context) (c : Context) : Prop where
  canonical : c.Canonical
  records : ∀ s ∈ c.shards, ∃ a ∈ contexts, s ∈ a.shards

theorem MadeFrom.replicas_subset {contexts : Finset Context} {c : Context}
    (h : MadeFrom contexts c) : c.replicas ⊆ contexts.biUnion replicas := by
  intro bytes hbytes
  obtain ⟨s, hs, rfl⟩ := mem_replicas.mp hbytes
  obtain ⟨a, ha, hsa⟩ := h.records s hs
  exact Finset.mem_biUnion.mpr ⟨a, ha, mem_replicas.mpr ⟨s, hsa, rfl⟩⟩

theorem MadeFrom.exists_merge {contexts : Finset Context} (hfree : ConflictFree contexts)
    (hcard : (contexts.biUnion replicas).card ≤ maxPendingIndex) {l r : Context}
    (hl : MadeFrom contexts l) (hr : MadeFrom contexts r) :
    ∃ joined, l.merge r = .ok joined ∧ MadeFrom contexts joined := by
  have hcompat : l.Compatible r := by
    intro s hs t ht
    obtain ⟨a, ha, hsa⟩ := hl.records s hs
    obtain ⟨b, hb, htb⟩ := hr.records t ht
    exact hfree a ha b hb s hsa t htb
  have hunion := Finset.union_subset hl.replicas_subset hr.replicas_subset
  obtain ⟨joined, hmerge⟩ := merge_ok_of_card_le hl.canonical hr.canonical hcompat
    ((Finset.card_le_card hunion).trans hcard)
  refine ⟨joined, hmerge, canonical_merge hl.canonical hr.canonical hmerge, fun s hs => ?_⟩
  rcases (isJoin_merge hl.canonical hr.canonical hmerge).mem s hs with hs | hs
  · exact hl.records s hs
  · exact hr.records s hs

theorem total_merge {contexts : Finset Context} (hcanonical : ∀ c ∈ contexts, c.Canonical)
    (hfree : ConflictFree contexts)
    (hcard : (contexts.biUnion replicas).card ≤ maxPendingIndex) :
    MergeTree.Total merge contexts := by
  intro t ht
  obtain ⟨result, hresult, -⟩ := MergeTree.exists_eval (MadeFrom contexts)
    (fun l r hl hr => hl.exists_merge hfree hcard hr) (t := t) fun c hc => by
      have hc := (MergeTree.mem_leaves_iff ht).mp hc
      exact ⟨hcanonical c hc, fun s hs => ⟨c, hc, hs⟩⟩
  exact ⟨result, hresult⟩

end Context

namespace Counter

structure IsJoin (versions : List Counter) (result : Counter) (name : CellName) : Prop where
  name_eq : result.name = name
  canonical : result.context.Canonical
  context : result.context.IsJoin (Context.recordsOf (versions.map Counter.context))
  writtenAt : IsLatest Counter.writtenAt versions result.writtenAt
  lastDelete : IsLatest Counter.lastDelete versions result.lastDelete

theorem IsJoin.unique {xs ys : List Counter} {a b : Counter} {name : CellName}
    (hmem : ∀ c, c ∈ xs ↔ c ∈ ys) (ha : IsJoin xs a name) (hb : IsJoin ys b name) : a = b := by
  have hcontexts : ∀ c, c ∈ xs.map Counter.context ↔ c ∈ ys.map Counter.context := fun c => by
    simp only [List.mem_map, hmem]
  have hrecords := Context.recordsOf_congr hcontexts
  have hcontext : a.context = b.context :=
    (hrecords ▸ ha.context).unique ha.canonical hb.canonical hb.context
  have hwritten : a.writtenAt = b.writtenAt := ha.writtenAt.unique hmem hb.writtenAt
  have hdelete : a.lastDelete = b.lastDelete := ha.lastDelete.unique hmem hb.lastDelete
  have hname : a.name = b.name := ha.name_eq.trans hb.name_eq.symm
  obtain ⟨name, context, writtenAt, lastDelete⟩ := a
  obtain ⟨name', context', writtenAt', lastDelete'⟩ := b
  simp_all

theorem isJoin_of_eval {t : MergeTree Counter} {result : Counter} {name : CellName}
    (hleaf : ∀ c ∈ t.leaves, c.name = name ∧ c.context.Canonical)
    (h : t.eval reconcile = .ok result) : IsJoin t.leaves result name := by
  refine MergeTree.eval_induction (fun xs c => IsJoin xs c name) ?_ ?_ h
  · intro xs ys l r joined hl hr hjoin
    obtain ⟨-, context, hmerge, rfl⟩ := reconcile_eq_ok hjoin
    refine ⟨hl.name_eq, Context.canonical_merge hl.canonical hr.canonical hmerge, ?_,
      hl.writtenAt.append hr.writtenAt, hl.lastDelete.append hr.lastDelete⟩
    rw [List.map_append, Context.recordsOf_append]
    exact hl.context.merge hl.canonical hr.canonical hr.context hmerge
  · intro c hc
    refine ⟨(hleaf c hc).1, (hleaf c hc).2, ?_, .singleton _ c, .singleton _ c⟩
    rw [List.map_singleton, Context.recordsOf_singleton]
    exact Context.isJoin_records c.context

theorem confluent_reconcile {counters : Finset Counter} {name : CellName}
    (hcounters : ∀ c ∈ counters, c.name = name ∧ c.context.Canonical) :
    MergeTree.Confluent reconcile counters := by
  intro t u a b ht hu hta hub
  have ha := isJoin_of_eval
    (fun c hc => hcounters c ((MergeTree.mem_leaves_iff ht).mp hc)) hta
  have hb := isJoin_of_eval
    (fun c hc => hcounters c ((MergeTree.mem_leaves_iff hu).mp hc)) hub
  exact ha.unique (fun c => by
    rw [MergeTree.mem_leaves_iff ht, MergeTree.mem_leaves_iff hu]) hb

theorem total_reconcile {counters : Finset Counter} {name : CellName}
    (hcounters : ∀ c ∈ counters, c.name = name ∧ c.context.Canonical)
    (hfree : Context.ConflictFree (counters.image Counter.context))
    (hcard : ((counters.image Counter.context).biUnion Context.replicas).card ≤ maxPendingIndex) :
    MergeTree.Total reconcile counters := by
  intro t ht
  have hnode : ∀ l r : Counter,
      l.name = name ∧ Context.MadeFrom (counters.image Counter.context) l.context →
      r.name = name ∧ Context.MadeFrom (counters.image Counter.context) r.context →
      ∃ k, l.reconcile r = .ok k ∧
        k.name = name ∧ Context.MadeFrom (counters.image Counter.context) k.context := by
    rintro l r ⟨hlname, hl⟩ ⟨hrname, hr⟩
    obtain ⟨context, hmerge, hmade⟩ := hl.exists_merge hfree hcard hr
    exact ⟨_, reconcile_of_merge (hlname.trans hrname.symm) hmerge, hlname, hmade⟩
  obtain ⟨result, hresult, -⟩ := MergeTree.exists_eval _ hnode (t := t) fun c hc => by
    have hc := (MergeTree.mem_leaves_iff ht).mp hc
    exact ⟨(hcounters c hc).1, (hcounters c hc).2,
      fun s hs => ⟨c.context, Finset.mem_image_of_mem _ hc, hs⟩⟩
  exact ⟨result, hresult⟩

end Counter

/-- Live versions reach one result in every order, bracketing and repetition in which they can be
merged at all. Nothing but a conflict or a pending shard beyond the header's reach can refuse. -/
theorem merge_order_irrelevant :
    (∀ contexts : Finset Context, (∀ c ∈ contexts, c.Canonical) →
      MergeTree.Confluent Context.merge contexts ∧
      (Context.ConflictFree contexts → (contexts.biUnion Context.replicas).card ≤ 32767 →
        MergeTree.Total Context.merge contexts)) ∧
    (∀ (counters : Finset Counter) (name : CellName),
      (∀ c ∈ counters, c.name = name ∧ c.context.Canonical) →
      MergeTree.Confluent Counter.reconcile counters ∧
      (Context.ConflictFree (counters.image Counter.context) →
        ((counters.image Counter.context).biUnion Context.replicas).card ≤ 32767 →
        MergeTree.Total Counter.reconcile counters)) :=
  ⟨fun _ hcanonical => ⟨Context.confluent_merge hcanonical, Context.total_merge hcanonical⟩,
    fun _ _ hcounters => ⟨Counter.confluent_reconcile hcounters, Counter.total_reconcile hcounters⟩⟩

namespace MergeOrder

def minted : Context := .ofSorted #[⟨.pending (Bytes.toVector 16 [1]), 1, 5⟩]

def relayed : Context :=
  .ofSorted #[⟨.stable (Bytes.toVector 16 [1]), 1, 5⟩, ⟨.stable (Bytes.toVector 16 [2]), 3, 7⟩]

def newer : Context := .ofSorted #[⟨.stable (Bytes.toVector 16 [2]), 4, -1⟩]

def counterOf (context : Context) (writtenAt lastDelete : Int64) : Counter where
  name := ⟨[120]⟩
  context := context
  writtenAt := writtenAt
  lastDelete := lastDelete

def leftFirst {α : Type} (x y z : α) : MergeTree α := .node (.node (.leaf x) (.leaf y)) (.leaf z)

def crossed {α : Type} (x y z : α) : MergeTree α :=
  .node (.node (.leaf z) (.leaf x)) (.node (.leaf y) (.leaf x))

end MergeOrder

open MergeOrder in
theorem merge_order_irrelevant_of_three :
    (∃ c, (leftFirst minted relayed newer).eval Context.merge = .ok c ∧
      (crossed minted relayed newer).eval Context.merge = .ok c) ∧
    (∃ c, (leftFirst (counterOf minted 10 3) (counterOf relayed 12 2) (counterOf newer 11 2)).eval
        Counter.reconcile = .ok c ∧
      (crossed (counterOf minted 10 3) (counterOf relayed 12 2) (counterOf newer 11 2)).eval
        Counter.reconcile = .ok c) := by
  constructor
  · have h := merge_order_irrelevant.1 {minted, relayed, newer} (by decide +kernel)
    have htotal := h.2 (by decide +kernel) (by decide +kernel)
    obtain ⟨a, ha⟩ := htotal (leftFirst minted relayed newer) (by decide +kernel)
    obtain ⟨b, hb⟩ := htotal (crossed minted relayed newer) (by decide +kernel)
    exact ⟨a, ha, h.1 _ _ b a (by decide +kernel) (by decide +kernel) hb ha ▸ hb⟩
  · have h := merge_order_irrelevant.2
      {counterOf minted 10 3, counterOf relayed 12 2, counterOf newer 11 2} ⟨[120]⟩
      (by decide +kernel)
    have htotal := h.2 (by decide +kernel) (by decide +kernel)
    obtain ⟨a, ha⟩ := htotal
      (leftFirst (counterOf minted 10 3) (counterOf relayed 12 2) (counterOf newer 11 2))
      (by decide +kernel)
    obtain ⟨b, hb⟩ := htotal
      (crossed (counterOf minted 10 3) (counterOf relayed 12 2) (counterOf newer 11 2))
      (by decide +kernel)
    exact ⟨a, ha, h.1 _ _ b a (by decide +kernel) (by decide +kernel) hb ha ▸ hb⟩

end ShardCounter
