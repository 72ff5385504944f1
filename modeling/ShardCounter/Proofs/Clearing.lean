import ShardCounter.Proofs.Context.Clearing
import ShardCounter.Proofs.Transfer
/-! Pending marks are not seen. What reconciling and comparing say of two versions is the same for any
two that differ from them in marks alone, and marks may be cleared before versions are reconciled as
well as after. -/
namespace ShardCounter

theorem Counter.applyTombstone_clearPending (c : Counter) (t : Tombstone) :
    c.clearPending.applyTombstone t = (c.applyTombstone t).clearPending := by
  rcases Int64.lt_or_le c.writtenAt t.deletedAt with hlt | hle
  · rw [applyTombstone_of_lt hlt, applyTombstone_of_lt (c := c.clearPending) hlt]
    rfl
  · rw [applyTombstone_of_le hle, applyTombstone_of_le (c := c.clearPending) hle]
    rfl

namespace Cell

variable {a a' b b' m : Cell}

theorem Alike.name_eq (h : a.Alike b) : a.name = b.name := by
  cases h with
  | counter h => exact h.name_eq
  | tombstone t => rfl

theorem Dominates.congr (ha : a.Alike a') (hb : b.Alike b') (h : Dominates a b) :
    Dominates a' b' := by
  have hname : a'.name = b'.name := ha.name_eq.symm.trans ((name_eq_of_dominates h).trans hb.name_eq)
  cases h with
  | counters l r _ hwritten hdelete hcontext =>
    cases ha with
    | counter hl =>
      cases hb with
      | counter hr =>
        rw [hl.writtenAt_eq, hr.writtenAt_eq] at hwritten
        rw [hl.lastDelete_eq, hr.lastDelete_eq] at hdelete
        rw [hl.context.dominates_eq hr.context] at hcontext
        exact .counters _ _ hname hwritten hdelete hcontext
  | remembers c t _ hwritten hdelete =>
    cases ha with
    | counter hc =>
      cases hb with
      | tombstone =>
        rw [hc.writtenAt_eq] at hwritten
        rw [hc.lastDelete_eq] at hdelete
        exact .remembers _ t hname hwritten hdelete
  | shadows t c _ hlt =>
    cases ha with
    | tombstone =>
      cases hb with
      | counter hc =>
        rw [hc.writtenAt_eq] at hlt
        exact .shadows t _ hname hlt
  | tombstones l r _ hle =>
    cases ha with
    | tombstone =>
      cases hb with
      | tombstone => exact .tombstones l r hname hle

theorem Alike.diff?_eq_none_iff (ha : a.Alike a') (hb : b.Alike b') :
    a.diff? b = .ok none ↔ a'.diff? b' = .ok none := by
  rw [Cell.diff?_eq_none_iff, Cell.diff?_eq_none_iff]
  exact ⟨.congr ha hb, .congr ha.symm hb.symm⟩

/-- Alike, and whatever is pending on the right is so on the left. -/
structure Clears (a a' : Cell) : Prop where
  alike : a.Alike a'
  le : ∀ c d, a = .counter c → a' = .counter d → c.context ≤ d.context

theorem Clears.refl (h : a.Canonical) : a.Clears a where
  alike := .refl h
  le _ _ hc hd := counter.inj (hc.symm.trans hd) ▸ le_rfl

theorem Clears.clearPending (h : a.Canonical) : a.Clears a.clearPending where
  alike := (Alike.refl h).clearPending
  le := by
    rintro c _ rfl hd
    cases hd
    exact (Context.Clears.clearPending (h c rfl)).le

theorem exists_reconcile_of_clears (ha : a.Clears a') (hb : b.Clears b')
    (h : a.reconcile b = .ok m) : ∃ m', a'.reconcile b' = .ok m' := by
  -- Only two counters can fail to reconcile, and clearing has not added to their pending shards.
  obtain ⟨ha, hle⟩ := ha
  obtain ⟨hb, hle'⟩ := hb
  have hname : a'.name = b'.name := ha.name_eq.symm.trans ((name_eq_of_reconcile h).trans hb.name_eq)
  cases ha with
  | @counter l l' hl =>
    cases hb with
    | @counter r r' hr =>
      cases reconciles_of_reconcile h with
      | counters _ _ _ hmerge =>
        obtain ⟨context, hmerge'⟩ := Context.exists_merge_of_clears
          ⟨hl.context, hle l l' rfl rfl⟩ ⟨hr.context, hle' r r' rfl rfl⟩ hmerge
        exact ⟨_, reconcile_counters_of_merge hname hmerge'⟩
    | tombstone t => exact ⟨_, reconcile_counter_tombstone hname⟩
  | tombstone t =>
    cases hb with
    | counter hr => exact ⟨_, reconcile_tombstone_counter hname⟩
    | tombstone u => exact ⟨_, reconcile_tombstones hname⟩

theorem reconcile_clearPending (ha : a.Canonical) (hb : b.Canonical) (h : a.reconcile b = .ok m) :
    a.clearPending.reconcile b.clearPending = .ok m.clearPending := by
  have hname := name_eq_of_reconcile h
  cases a with
  | counter l =>
    cases b with
    | counter r =>
      cases reconciles_of_reconcile h with
      | counters _ _ _ hmerge =>
        have hclear := Context.merge_clearPending (ha l rfl) (hb r rfl) hmerge
        exact reconcile_counters_of_merge (l := l.clearPending) (r := r.clearPending) hname hclear
    | tombstone t =>
      rw [reconcile_counter_tombstone hname] at h
      cases h
      rw [← Counter.applyTombstone_clearPending]
      exact reconcile_counter_tombstone (c := l.clearPending) hname
  | tombstone t =>
    cases b with
    | counter r =>
      rw [reconcile_tombstone_counter hname] at h
      cases h
      rw [← Counter.applyTombstone_clearPending]
      exact reconcile_tombstone_counter (c := r.clearPending) hname
    | tombstone u =>
      rw [reconcile_tombstones hname] at h
      cases h
      exact reconcile_tombstones hname

end Cell

/-- Versions that differ in pending marks alone reconcile to the same but for marks, with one digest,
and lack the same of each other. Marks may be cleared beforehand: what reconciles with them reconciles
without. -/
theorem reconcile_ignores_marks :
    (∀ a a' b b' : Cell, a.Canonical → a'.Canonical → b.Canonical → b'.Canonical →
      a.clearPending = a'.clearPending → b.clearPending = b'.clearPending →
      (∀ m m', a.reconcile b = .ok m → a'.reconcile b' = .ok m' →
        m.clearPending = m'.clearPending ∧ m.digest = m'.digest) ∧
      (a.diff? b = .ok none ↔ a'.diff? b' = .ok none) ∧
      ∀ m, a.reconcile b = .ok m →
        a.clearPending.reconcile b.clearPending = .ok m.clearPending ∧
        ∃ m', a.reconcile b.clearPending = .ok m' ∧ m'.clearPending = m.clearPending) ∧
    (∀ a a' b b' : Context, a.Canonical → a'.Canonical → b.Canonical → b'.Canonical →
      a.clearPending = a'.clearPending → b.clearPending = b'.clearPending →
      (∀ m m', a.merge b = .ok m → a'.merge b' = .ok m' → m.clearPending = m'.clearPending) ∧
      (a.diff? b = none ↔ a'.diff? b' = none) ∧
      ∀ m, a.merge b = .ok m →
        a.clearPending.merge b.clearPending = .ok m.clearPending ∧
        ∃ m', a.merge b.clearPending = .ok m' ∧ m'.clearPending = m.clearPending) := by
  constructor
  · intro a a' b b' ha ha' hb hb' haa' hbb'
    have halike := Cell.Alike.of_clearPending_eq ha ha' haa'
    have hblike := Cell.Alike.of_clearPending_eq hb hb' hbb'
    refine ⟨fun m m' h h' => ?_, halike.diff?_eq_none_iff hblike, fun m h => ⟨?_, ?_⟩⟩
    · have hm := halike.reconcile hblike h h'
      exact ⟨hm.clearPending_eq, hm.digest_eq⟩
    · exact Cell.reconcile_clearPending ha hb h
    · obtain ⟨m', hm'⟩ := Cell.exists_reconcile_of_clears (.refl ha) (.clearPending hb) h
      have hm := (Cell.Alike.refl ha).reconcile (Cell.Alike.refl hb).clearPending h hm'
      exact ⟨m', hm', hm.clearPending_eq.symm⟩
  · intro a a' b b' ha ha' hb hb' haa' hbb'
    have halike : a.Alike a' := ⟨ha, ha', haa'⟩
    have hblike : b.Alike b' := ⟨hb, hb', hbb'⟩
    refine ⟨fun m m' h h' => (halike.merge hblike h h').clearPending_eq, ?_, fun m h => ⟨?_, ?_⟩⟩
    · rw [Context.diff?_eq_none_iff, Context.diff?_eq_none_iff, halike.dominates_eq hblike]
    · exact Context.merge_clearPending ha hb h
    · obtain ⟨m', hm'⟩ := Context.exists_merge_of_clears (.refl ha) (.clearPending hb) h
      have hm := (Context.Alike.refl ha).merge (.clearPending hb) h hm'
      exact ⟨m', hm', hm.clearPending_eq.symm⟩

namespace Clearing

def shard (n : UInt8) (isPending : Bool) : Shard := ⟨⟨Bytes.toVector 16 [n], isPending⟩, 1, 5⟩

def counterOf (context : Context) : Cell := .counter ⟨⟨[120]⟩, context, 10, 3⟩

def minted : Context := .ofSorted #[shard 1 true, shard 2 true]

def returned : Context := .ofSorted #[shard 1 false, shard 2 true]

def other : Context := .ofSorted #[shard 1 true, shard 3 true]

def joined (isPending isPending' : Bool) : Context :=
  .ofSorted #[shard 1 isPending, shard 2 true, shard 3 isPending']

end Clearing

open Clearing in
theorem reconcile_ignores_marks_of_returned :
    (counterOf minted).reconcile (counterOf other) = .ok (counterOf (joined true true)) ∧
    (counterOf returned).reconcile (counterOf other.clearPending) =
      .ok (counterOf (joined false false)) ∧
    (counterOf (joined true true)).digest = (counterOf (joined false false)).digest ∧
    (counterOf (joined true true)).diff? (counterOf minted) = .ok none ∧
    (∃ m, minted.merge other.clearPending = .ok m ∧ m ≠ joined true true ∧
      m.clearPending = (joined true true).clearPending) := by
  have hminted : minted.Canonical := by decide +kernel
  have hother : other.Canonical := by decide +kernel
  have hminted' : (counterOf minted).Canonical := by decide +kernel
  have hreturned : (counterOf returned).Canonical := by decide +kernel
  have hother' : (counterOf other).Canonical := by decide +kernel
  have hcleared : (counterOf other.clearPending).Canonical := by decide +kernel
  have hjoined : (counterOf (joined true true)).Canonical := by decide +kernel
  have hreturn : (counterOf minted).clearPending = (counterOf returned).clearPending := by
    decide +kernel
  have hjoin : (counterOf minted).reconcile (counterOf other) =
      .ok (counterOf (joined true true)) := by decide +kernel
  have hjoin' : (counterOf returned).reconcile (counterOf other.clearPending) =
      .ok (counterOf (joined false false)) := by decide +kernel
  have hmerge : minted.merge other = .ok (joined true true) := by decide +kernel
  have hmerge' : minted.merge other.clearPending = .ok (joined false false) := by decide +kernel
  obtain ⟨hcells, hcontexts⟩ := reconcile_ignores_marks
  obtain ⟨hsame, -, -⟩ := hcells _ _ _ _ hminted' hreturned hother' hcleared hreturn
    (by decide +kernel)
  obtain ⟨-, hdiff, -⟩ := hcells _ _ _ _ hjoined hjoined hminted' hreturned rfl hreturn
  obtain ⟨-, -, hclear⟩ := hcontexts _ _ _ _ hminted hminted hother hother rfl rfl
  obtain ⟨-, m, hm, hclear⟩ := hclear _ hmerge
  refine ⟨hjoin, hjoin', (hsame _ _ hjoin hjoin').2, hdiff.mpr (by decide +kernel), m, hm, ?_, hclear⟩
  cases hm.symm.trans hmerge'
  decide +kernel

end ShardCounter
