import ShardCounter.Cluster.Exchange
import ShardCounter.Proofs.Cell.Codec
import ShardCounter.Proofs.Cell.Reconcile
import ShardCounter.Proofs.Cluster.Ledger
import ShardCounter.Proofs.Context.Dominance
import ShardCounter.Proofs.Context.Stable
/-! What the slot of a node holds: one shard for each increment that the node knows of. Two nodes never
hold different shards of one id, so nothing but the header's reach can stop an exchange. -/
namespace ShardCounter

/-- The bytes or the shards of a cell are at fault, and not the versions that were to be joined. -/
def CellError.IsMalformed : CellError → Prop
  | .malformed _ => True
  | .context (.malformed _) => True
  | _ => False

/-- A result of this kind, unless there is so much that a cell can be out of reach of its header. -/
def Delivers {α : Type} (tooMany : Prop) (P : α → Prop) (x : Except CellError α) : Prop :=
  (∃ a, x = .ok a ∧ P a) ∨ tooMany ∧ ∃ e, x = .error e ∧ e.IsMalformed

namespace Delivers

variable {α β : Type} {tooMany : Prop} {P : α → Prop} {R : β → Prop} {x : Except CellError α}

theorem ok {a : α} (h : P a) : Delivers tooMany P (.ok a) := .inl ⟨a, rfl, h⟩

theorem weaken {tooMany' : Prop} (h : tooMany → tooMany') (hx : Delivers tooMany P x) :
    Delivers tooMany' P x :=
  hx.imp_right fun ⟨hmany, he⟩ => ⟨h hmany, he⟩

theorem map (f : α → β) (h : ∀ a, P a → R (f a)) (hx : Delivers tooMany P x) :
    Delivers tooMany R (f <$> x) := by
  rcases hx with ⟨a, rfl, ha⟩ | ⟨hmany, e, rfl, he⟩
  · exact .inl ⟨f a, rfl, h a ha⟩
  · exact .inr ⟨hmany, e, rfl, he⟩

theorem bind {f : α → Except CellError β} (hx : Delivers tooMany P x)
    (hf : ∀ a, P a → Delivers tooMany R (f a)) : Delivers tooMany R (x >>= f) := by
  rcases hx with ⟨a, rfl, ha⟩ | ⟨hmany, e, rfl, he⟩
  · exact hf a ha
  · exact .inr ⟨hmany, e, rfl, he⟩

end Delivers

variable {size : Nat} (minters : Fin size → Minter)

namespace Contribution

def bytes (e : Contribution size) : Vector UInt8 16 := (minters e.node).mintedBytes e.serial

def shard (e : Contribution size) : Shard := ⟨.stable (e.bytes minters), 1, e.delta⟩

def Apart (made : List (Contribution size)) : Prop :=
  ∀ e ∈ made, ∀ f ∈ made, e.bytes minters = f.bytes minters → e = f

end Contribution

theorem Ledger.WellFormed.apart {l : Ledger size} (h : l.WellFormed)
    (hids : Function.Injective fun i => (minters i).nodeId) (hfew : ∀ i, l.madeBy i < 2 ^ 64) :
    Contribution.Apart minters l.made := by
  intro e he f hf hbytes
  obtain ⟨hnodeId, hsequence⟩ := Minter.mintedBytes_injective hbytes
  have hnode : e.node = f.node := hids hnodeId
  have he' := (h.serial_lt e he).trans (hfew e.node)
  have hf' := (h.serial_lt f hf).trans (hfew f.node)
  rw [hnode] at hsequence
  exact h.eq_of_serial_eq e he f hf hnode (Minter.sequenceAfter_injective he' hf' hsequence)

theorem Ledger.apart_after {minters : Fin size → Minter} {acts : List (Act size)}
    (hids : Function.Injective fun i => (minters i).nodeId)
    (hfew : ∀ i, acts.countP (Act.isIncrementAt i) < 2 ^ 64) :
    Contribution.Apart minters (after acts).made :=
  (wellFormed_after acts).apart minters hids fun i => madeBy_after acts i ▸ hfew i

/-- One shard for each known increment, and no others. -/
structure Counter.Holds (name : CellName) (known : Finset (Contribution size)) (c : Counter) :
    Prop where
  name_eq : c.name = name
  canonical : c.context.Canonical
  sound : ∀ s ∈ c.context.shards, ∃ e ∈ known, s.toStable = e.shard minters
  complete : ∀ e ∈ known, ∃ s ∈ c.context.shards, s.toStable = e.shard minters

namespace Counter.Holds

variable {minters} {name : CellName} {made : List (Contribution size)}
  {known known' : Finset (Contribution size)} {c d : Counter}

theorem bytes_eq {s : Shard} {e : Contribution size} (h : s.toStable = e.shard minters) :
    s.id.bytes = e.bytes minters :=
  congrArg (fun s => s.id.bytes) h

theorem count_eq {s : Shard} {e : Contribution size} (h : s.toStable = e.shard minters) :
    s.count = e.delta :=
  congrArg Shard.count h

theorem eq_of_bytes_eq (hapart : Contribution.Apart minters made) {s t : Shard}
    {e f : Contribution size} (he : e ∈ made) (hf : f ∈ made) (hs : s.toStable = e.shard minters)
    (ht : t.toStable = f.shard minters) (hbytes : s.id.bytes = t.id.bytes) : e = f := by
  apply hapart e he f hf
  rw [← bytes_eq hs, ← bytes_eq ht, hbytes]

theorem replicas_subset (hknown : ∀ e ∈ known, e ∈ made) (hc : c.Holds minters name known) :
    c.context.replicas ⊆ (made.map (Contribution.bytes minters)).toFinset := by
  intro bytes hbytes
  obtain ⟨s, hs, rfl⟩ := Context.mem_replicas.mp hbytes
  obtain ⟨e, he, hse⟩ := hc.sound s hs
  rw [List.mem_toFinset, List.mem_map]
  exact ⟨e, hknown e he, (bytes_eq hse).symm⟩

theorem card_le_length {replicas : Finset (Vector UInt8 16)}
    (h : replicas ⊆ (made.map (Contribution.bytes minters)).toFinset) :
    replicas.card ≤ made.length := by
  calc replicas.card ≤ (made.map (Contribution.bytes minters)).toFinset.card :=
        Finset.card_le_card h
    _ ≤ (made.map (Contribution.bytes minters)).length := List.toFinset_card_le _
    _ = made.length := List.length_map _

section pairs

variable (hapart : Contribution.Apart minters made) (hknown : ∀ e ∈ known, e ∈ made)
  (hknown' : ∀ e ∈ known', e ∈ made)

include hapart hknown hknown'

theorem compatible (hc : c.Holds minters name known) (hd : d.Holds minters name known') :
    c.context.Compatible d.context := by
  rintro s hs t ht ⟨hbytes, -, hcount⟩
  obtain ⟨e, he, hse⟩ := hc.sound s hs
  obtain ⟨f, hf, htf⟩ := hd.sound t ht
  have hef : e = f := eq_of_bytes_eq hapart (hknown e he) (hknown' f hf) hse htf hbytes
  apply hcount
  rw [count_eq hse, count_eq htf, hef]

theorem join (hc : c.Holds minters name known) (hd : d.Holds minters name known')
    {context : Context} (h : c.context.merge d.context = .ok context) :
    (c.join d context).Holds minters name (known ∪ known') := by
  have hjoin := Context.isJoin_merge hc.canonical hd.canonical h
  have hsound : ∀ s ∈ context.shards, ∃ e ∈ known ∪ known', s.toStable = e.shard minters := by
    intro s hs
    rcases hjoin.mem s hs with hs | hs
    · obtain ⟨e, he, hse⟩ := hc.sound s hs
      exact ⟨e, Finset.mem_union_left _ he, hse⟩
    · obtain ⟨e, he, hse⟩ := hd.sound s hs
      exact ⟨e, Finset.mem_union_right _ he, hse⟩
  have hmade : ∀ e ∈ known ∪ known', e ∈ made := fun e he =>
    (Finset.mem_union.mp he).elim (hknown e) (hknown' e)
  refine ⟨hc.name_eq, Context.canonical_merge hc.canonical hd.canonical h, hsound, ?_⟩
  intro e he
  obtain ⟨s, hs, hse⟩ : ∃ s, (s ∈ c.context.shards ∨ s ∈ d.context.shards) ∧
      s.toStable = e.shard minters := by
    rcases Finset.mem_union.mp he with he | he
    · obtain ⟨s, hs, hse⟩ := hc.complete e he
      exact ⟨s, .inl hs, hse⟩
    · obtain ⟨s, hs, hse⟩ := hd.complete e he
      exact ⟨s, .inr hs, hse⟩
  -- The shard that carries all that `s` does is one of the same increment.
  obtain ⟨t, ht, hst⟩ := hjoin.le s hs
  obtain ⟨f, hf, htf⟩ := hsound t ht
  have hef : e = f := eq_of_bytes_eq hapart (hmade e he) (hmade f hf) hse htf hst.1
  exact ⟨t, ht, hef ▸ htf⟩

theorem reconcile (hc : c.Holds minters name known) (hd : d.Holds minters name known') :
    Delivers (maxPendingIndex < made.length) (Holds minters name (known ∪ known'))
      (c.reconcile d) := by
  have hname : c.name = d.name := hc.name_eq.trans hd.name_eq.symm
  have hcompat := compatible hapart hknown hknown' hc hd
  rcases Context.merge_of_compatible hc.canonical hd.canonical hcompat with ⟨m, hm⟩ | ⟨reason, hm⟩
  · rw [reconcile_of_merge hname hm]
    exact .ok (join hapart hknown hknown' hc hd hm)
  · refine .inr ⟨?_, _, reconcile_of_merge_error hname hm, trivial⟩
    by_contra hfew
    have hunion := Finset.union_subset (replicas_subset hknown hc) (replicas_subset hknown' hd)
    have hcard := (card_le_length hunion).trans (not_lt.mp hfew)
    obtain ⟨m, hm'⟩ := Context.merge_ok_of_card_le hc.canonical hd.canonical hcompat hcard
    rw [hm] at hm'
    contradiction

theorem subset_of_dominates (hc : c.Holds minters name known) (hd : d.Holds minters name known')
    (h : d.context.dominates c.context = true) : known ⊆ known' := by
  intro e he
  obtain ⟨s, hs, hse⟩ := hc.complete e he
  obtain ⟨t, ht, hbytes, -⟩ := (Context.dominates_iff hd.canonical hc.canonical).mp h s hs
  obtain ⟨f, hf, htf⟩ := hd.sound t ht
  have hef : e = f := eq_of_bytes_eq hapart (hknown e he) (hknown' f hf) hse htf hbytes.symm
  exact hef ▸ hf

end pairs

theorem clearPending (hc : c.Holds minters name known) :
    c.clearPending.Holds minters name known := by
  have hshards : c.clearPending.context.shards = c.context.shards.map Shard.toStable :=
    hc.canonical.shards_clearPending
  refine ⟨hc.name_eq, hc.canonical.clearPending, ?_, ?_⟩
  · intro s hs
    rw [hshards, Array.mem_map] at hs
    obtain ⟨t, ht, rfl⟩ := hs
    exact hc.sound t ht
  · intro e he
    obtain ⟨s, hs, hse⟩ := hc.complete e he
    refine ⟨s.toStable, ?_, hse⟩
    rw [hshards]
    exact Array.mem_map_of_mem hs

theorem encodedSize_le (hknown : ∀ e ∈ known, e ∈ made) (hc : c.Holds minters name known)
    (hfew : made.length ≤ maxPendingIndex) : c.context.encodedSize ≤ maxContextSize := by
  have hcard := (card_le_length (replicas_subset hknown hc)).trans hfew
  have hsize : c.context.size ≤ maxPendingIndex := Context.card_replicas hc.canonical ▸ hcard
  have hpending := hc.canonical.pendingCount_le
  unfold Context.encodedSize Shard.wireSize maxContextSize
  unfold maxPendingIndex at hsize hpending
  omega

theorem encode (hname : name.size ≤ maxNameSize) (hknown : ∀ e ∈ known, e ∈ made)
    (hc : c.Holds minters name known) :
    Delivers (maxPendingIndex < made.length)
      (fun bytes => Cell.decode .remote bytes = .ok (.counter c.clearPending))
      (Cell.counter c).encode := by
  rcases Nat.lt_or_ge maxContextSize c.context.encodedSize with hlt | hle
  · obtain ⟨reason, herror⟩ := encode_of_lt hlt
    refine .inr ⟨?_, .malformed reason, ?_, trivial⟩
    · by_contra hfew
      exact absurd (encodedSize_le hknown hc (not_lt.mp hfew)) (not_le.mpr hlt)
    · rw [Cell.encode, herror]
      rfl
  · have hfits : (Cell.counter c).Encodable := by
      refine ⟨?_, ?_, ?_⟩
      · rw [Cell.name, hc.name_eq]
        exact hname
      · intro k hk
        cases hk
        exact hc.canonical
      · intro k hk
        cases hk
        exact hle
    obtain ⟨bytes, hbytes, hdecode⟩ := Cell.decode_encode hfits
    exact .inl ⟨bytes, hbytes, hdecode .remote⟩

end Counter.Holds

/-- An empty slot for a node that knows of nothing, and else a live cell with all that it knows of. -/
def Slot.Holds (name : CellName) (known : Finset (Contribution size)) : Slot → Prop
  | none => known = ∅
  | some cell => known.Nonempty ∧ ∃ c, cell = .counter c ∧ c.Holds minters name known

def Exchange.leaves (receiver : Slot) : Exchange → Slot
  | .nothing | .skipped => receiver
  | .sent cell => some cell

namespace Slot.Holds

variable {minters} {name : CellName} {made : List (Contribution size)}
  {known known' : Finset (Contribution size)} {slot sender receiver : Slot} {c : Counter}

variable (hapart : Contribution.Apart minters made) (hknown : ∀ e ∈ known, e ∈ made)
  (hknown' : ∀ e ∈ known', e ∈ made)

include hapart hknown hknown'

theorem absorb (hslot : slot.Holds minters name known) (hsome : known'.Nonempty)
    (hc : c.Holds minters name known') :
    Delivers (maxPendingIndex < made.length)
      (fun cell => Slot.Holds minters name (known ∪ known') (some cell))
      (slot.absorb (.counter c)) := by
  cases slot with
  | none =>
    have hnone : known = ∅ := hslot
    rw [hnone, Finset.empty_union]
    exact .ok ⟨hsome, c, rfl, hc⟩
  | some cell =>
    obtain ⟨-, d, rfl, hd⟩ := hslot
    have hname : d.name = c.name := hd.name_eq.trans hc.name_eq.symm
    rw [Slot.absorb, Cell.reconcile_counters hname]
    apply (hd.reconcile hapart hknown hknown' hc).map Cell.counter
    intro joined hjoined
    exact ⟨hsome.mono Finset.subset_union_right, joined, rfl, hjoined⟩

theorem transfer (hname : name.size ≤ maxNameSize) (hreceiver : receiver.Holds minters name known)
    (hsome : known'.Nonempty) (hc : c.Holds minters name known') :
    Delivers (maxPendingIndex < made.length)
      (fun cell => Slot.Holds minters name (known ∪ known') (some cell))
      (Exchange.transfer .remote (.counter c) receiver) := by
  apply (hc.encode hname hknown').bind
  intro bytes hbytes
  rw [hbytes, Except.ok_bind]
  exact absorb hapart hknown hknown' hreceiver hsome hc.clearPending

theorem exchange (hname : name.size ≤ maxNameSize) (hreceiver : receiver.Holds minters name known)
    (hsender : sender.Holds minters name known') :
    Delivers (maxPendingIndex < made.length)
      (fun exchange => (exchange.leaves receiver).Holds minters name (known ∪ known'))
      (Exchange.run .remote false sender receiver) := by
  cases sender with
  | none =>
    have hnone : known' = ∅ := hsender
    rw [hnone, Finset.union_empty]
    exact .ok hreceiver
  | some cell =>
    obtain ⟨hsome, c, rfl, hc⟩ := hsender
    have hsent : Delivers (maxPendingIndex < made.length)
        (fun exchange => (exchange.leaves receiver).Holds minters name (known ∪ known'))
        (Exchange.sent <$> Exchange.transfer .remote (.counter c) receiver) :=
      (transfer hapart hknown hknown' hname hreceiver hsome hc).map Exchange.sent fun _ h => h
    cases receiver with
    | none => exact hsent
    | some current =>
      have hholds := hreceiver
      obtain ⟨-, d, rfl, hd⟩ := hreceiver
      have hnames : d.name = c.name := hd.name_eq.trans hc.name_eq.symm
      unfold Exchange.run
      simp only [Cell.diff?_counters hnames]
      cases hdiff : d.diff? c with
      | none =>
        have hsub : known' ⊆ known := hc.subset_of_dominates hapart hknown' hknown hd
          (Counter.diff?_eq_none_iff.mp hdiff).2.2
        rw [Finset.union_eq_left.mpr hsub]
        exact .ok hholds
      | some lacking => exact hsent

end Slot.Holds
end ShardCounter
