import ShardCounter.Proofs.Cell.Dominance
import ShardCounter.Proofs.Context.Positions
import ShardCounter.Proofs.Mirror
/-! What two versions reconcile to is the least version that dominates both. Dominance is decided by
other rules than reconciliation, one for each pair of variants, and they agree. Either version
delivered again adds nothing. -/
namespace ShardCounter

namespace Reconcile

variable {α ε : Type} [Reconcile α ε]

structure IsLeastUpperBound (valid : α → Prop) (a b joined : α) : Prop where
  dominates_left : dominates joined a = .ok true
  dominates_right : dominates joined b = .ok true
  least : ∀ d, valid d → dominates d a = .ok true → dominates d b = .ok true →
    dominates d joined = .ok true

/-- Delivered to the other one from either side, `a` changes nothing. -/
structure Absorbs (joined a : α) : Prop where
  left : reconcile joined a = .ok joined
  right : reconcile a joined = .ok joined

end Reconcile

namespace Context

variable {a b m : Context}

theorem isLeastUpperBound_merge (ha : a.Canonical) (hb : b.Canonical) (h : a.merge b = .ok m) :
    Reconcile.IsLeastUpperBound Canonical a b m where
  dominates_left :=
    congrArg Except.ok (dominates_of_le (canonical_merge ha hb h) ha (le_merge_left ha hb h))
  dominates_right :=
    congrArg Except.ok (dominates_of_le (canonical_merge ha hb h) hb (le_merge_right ha hb h))
  least _ hd hda hdb :=
    congrArg Except.ok (dominates_merge ha hb hd h (Except.ok.inj hda) (Except.ok.inj hdb))

theorem absorbs_of_le (ha : a.Canonical) (hm : m.Canonical) (h : a ≤ m) :
    Reconcile.Absorbs m a :=
  have hmerge := merge_of_le hm ha h
  ⟨hmerge, ((mirrored_merge hm ha).eq_ok_iff m).mp hmerge⟩

end Context

namespace Cell

variable {a b d joined : Cell}

theorem reconcile_of_le {l r : Counter} (hl : l.context.Canonical) (hr : r.context.Canonical)
    (hname : l.name = r.name) (hcontext : r.context ≤ l.context)
    (hwritten : r.writtenAt ≤ l.writtenAt) (hdelete : r.lastDelete ≤ l.lastDelete) :
    (counter l).reconcile (counter r) = .ok (counter l) := by
  rw [reconcile_counters_of_merge hname (Context.merge_of_le hl hr hcontext), Counter.join,
    max_eq_left hwritten, max_eq_left hdelete]

theorem dominates_left_of_reconciles (h : Reconciles a b joined) (hname : a.name = b.name)
    (ha : a.Canonical) (hb : b.Canonical) : Dominates joined a := by
  cases h with
  | counters l r context hmerge =>
    have hm := Context.canonical_merge (ha l rfl) (hb r rfl) hmerge
    have hle := Context.le_merge_left (ha l rfl) (hb r rfl) hmerge
    exact .counters (l.join r context) l rfl (le_max_left _ _) (le_max_left _ _)
      (Context.dominates_of_le hm (ha l rfl) hle)
  | tombstones l r =>
    exact .tombstones _ l (Tombstone.name_later hname) (Tombstone.left_notAfter_later l r)
  | shadowedLeft c t hlt => exact .shadows t c hname.symm hlt
  | shadowedRight c t => exact .tombstones t t rfl (.refl t)
  | survivesLeft c t =>
    exact .counters (c.survive t.deletedAt) c rfl (Int64.le_refl _) (le_max_left _ _)
      (Context.dominates_refl (ha c rfl))
  | survivesRight c t hle =>
    exact .remembers (c.survive t.deletedAt) t hname.symm hle (le_max_right _ _)

theorem dominates_survive {c : Counter} {t : Tombstone} (hc : Dominates d (.counter c))
    (ht : Dominates d (.tombstone t)) : Dominates d (.counter (c.survive t.deletedAt)) := by
  cases hc with
  | counters l _ hname hwritten hdelete hcontext =>
    cases ht with
    | remembers _ _ _ _ hdelete' =>
      exact .counters l _ hname hwritten (max_le hdelete hdelete') hcontext
  | shadows s _ hname h => exact .shadows s _ hname h

theorem dominates_of_reconciles (h : Reconciles a b joined) (ha : a.Canonical) (hb : b.Canonical)
    (hd : d.Canonical) (hda : Dominates d a) (hdb : Dominates d b) : Dominates d joined := by
  cases h with
  | counters l r context hmerge =>
    cases hda with
    | counters k _ hname hwritten hdelete hcontext =>
      cases hdb with
      | counters _ _ _ hwritten' hdelete' hcontext' =>
        exact .counters k (l.join r context) hname (max_le hwritten hwritten')
          (max_le hdelete hdelete') (Context.dominates_merge (ha l rfl) (hb r rfl) (hd k rfl)
            hmerge hcontext hcontext')
    | shadows t _ hname hlt =>
      cases hdb with
      | shadows _ _ _ hlt' => exact .shadows t (l.join r context) hname (max_lt hlt hlt')
  | tombstones l r =>
    rcases Tombstone.later_cases l r with ⟨h, -⟩ | ⟨h, -⟩
    · rwa [h]
    · rwa [h]
  | shadowedLeft => exact hdb
  | shadowedRight => exact hda
  | survivesLeft => exact dominates_survive hda hdb
  | survivesRight => exact dominates_survive hdb hda

/-- Between live versions this takes more than dominance: every record has to be carried in its own
spelling. Any other result dominates what it was made from, and nothing more is asked of it. -/
theorem reconcile_again (ha : a.Canonical) (hb : b.Canonical) (h : a.reconcile b = .ok joined) :
    joined.reconcile a = .ok joined := by
  have hname := name_eq_of_reconcile h
  have hreconciles := reconciles_of_reconcile h
  have hdominates := dominates_left_of_reconciles hreconciles hname ha hb
  have hagain : joined.isLive = false ∨ a.isLive = false → joined.reconcile a = .ok joined :=
    fun hmixed => reconcile_of_diff?_eq_none hmixed (diff?_eq_none_iff.mpr hdominates)
  cases hreconciles with
  | counters l r context hmerge =>
    have hm := Context.canonical_merge (ha l rfl) (hb r rfl) hmerge
    have hle := Context.le_merge_left (ha l rfl) (hb r rfl) hmerge
    exact reconcile_of_le (l := l.join r context) hm (ha l rfl) rfl hle (le_max_left _ _)
      (le_max_left _ _)
  | survivesLeft c t =>
    exact reconcile_of_le (l := c.survive t.deletedAt) (ha c rfl) (ha c rfl) rfl le_rfl
      (Int64.le_refl _) (le_max_left _ _)
  | tombstones | shadowedLeft | shadowedRight => exact hagain (.inl rfl)
  | survivesRight => exact hagain (.inr rfl)

theorem canonical_reconcile (ha : a.Canonical) (hb : b.Canonical) (h : a.reconcile b = .ok joined) :
    joined.Canonical :=
  (reconciles_of_reconcile h).canonical ha hb

theorem absorbs_left (ha : a.Canonical) (hb : b.Canonical) (h : a.reconcile b = .ok joined) :
    Reconcile.Absorbs joined a :=
  have hagain := reconcile_again ha hb h
  ⟨hagain, reconcile_comm (canonical_reconcile ha hb h) ha hagain⟩

theorem isLeastUpperBound_reconcile (ha : a.Canonical) (hb : b.Canonical)
    (h : a.reconcile b = .ok joined) : Reconcile.IsLeastUpperBound Canonical a b joined where
  dominates_left := dominates_iff.mpr
    (dominates_left_of_reconciles (reconciles_of_reconcile h) (name_eq_of_reconcile h) ha hb)
  dominates_right := by
    have h := reconcile_comm ha hb h
    exact dominates_iff.mpr
      (dominates_left_of_reconciles (reconciles_of_reconcile h) (name_eq_of_reconcile h) hb ha)
  least d hd hda hdb := dominates_iff.mpr (dominates_of_reconciles (reconciles_of_reconcile h) ha hb
    hd (dominates_iff.mp hda) (dominates_iff.mp hdb))

end Cell

/-- What two versions reconcile to is their least upper bound, and absorbs both of them. -/
theorem reconcile_least :
    (∀ a b c : Cell, a.Canonical → b.Canonical → a.reconcile b = .ok c →
      Reconcile.IsLeastUpperBound Cell.Canonical a b c ∧
      Reconcile.Absorbs c a ∧ Reconcile.Absorbs c b) ∧
    (∀ a b m : Context, a.Canonical → b.Canonical → a.merge b = .ok m →
      Reconcile.IsLeastUpperBound Context.Canonical a b m ∧
      Reconcile.Absorbs m a ∧ Reconcile.Absorbs m b) := by
  refine ⟨fun a b c ha hb h => ⟨Cell.isLeastUpperBound_reconcile ha hb h, ?_, ?_⟩,
    fun a b m ha hb h => ⟨Context.isLeastUpperBound_merge ha hb h, ?_, ?_⟩⟩
  · exact Cell.absorbs_left ha hb h
  · exact Cell.absorbs_left hb ha (Cell.reconcile_comm ha hb h)
  · exact Context.absorbs_of_le ha (Context.canonical_merge ha hb h)
      (Context.le_merge_left ha hb h)
  · exact Context.absorbs_of_le hb (Context.canonical_merge ha hb h)
      (Context.le_merge_right ha hb h)

namespace LeastUpperBound

def counterOf (shards : Array Shard) (writtenAt lastDelete : Int64) : Counter :=
  ⟨⟨[120]⟩, .ofSorted shards, writtenAt, lastDelete⟩

/-- An increment whose counter knows of a delete after its own write. -/
def minted : Counter := counterOf #[⟨.pending (Bytes.toVector 16 [1]), 1, 5⟩] 5 9

def relayed : Counter := counterOf
  #[⟨.stable (Bytes.toVector 16 [1]), 1, 5⟩, ⟨.stable (Bytes.toVector 16 [2]), 3, 7⟩] 6 2

def newer : Counter := counterOf
  #[⟨.pending (Bytes.toVector 16 [1]), 1, 5⟩, ⟨.stable (Bytes.toVector 16 [2]), 4, 0⟩] 8 9

end LeastUpperBound

open LeastUpperBound in
theorem reconcile_least_of_minted_relayed :
    (∃ c, (Cell.counter minted).reconcile (.counter relayed) = .ok c ∧
      c.dominates (.counter minted) = .ok true ∧ (Cell.counter newer).dominates c = .ok true ∧
      (Cell.counter minted).reconcile c = .ok c) ∧
    (∃ m, minted.context.merge relayed.context = .ok m ∧ relayed.context.merge m = .ok m ∧
      newer.context.dominates m = true) := by
  have hminted : minted.context.Canonical := by decide +kernel
  have hrelayed : relayed.context.Canonical := by decide +kernel
  have hnewer : newer.context.Canonical := by decide +kernel
  constructor
  · obtain ⟨c, hc⟩ : ∃ c, (Cell.counter minted).reconcile (.counter relayed) = .ok c :=
      ⟨.counter (counterOf relayed.context.shards 6 9), by decide +kernel⟩
    obtain ⟨hbound, habsorbs, -⟩ := reconcile_least.1 _ _ _ (Cell.canonical_counter_iff.mpr hminted)
      (Cell.canonical_counter_iff.mpr hrelayed) hc
    exact ⟨c, hc, hbound.dominates_left, hbound.least (.counter newer)
      (Cell.canonical_counter_iff.mpr hnewer) (by decide +kernel) (by decide +kernel),
      habsorbs.right⟩
  · obtain ⟨m, hm⟩ : ∃ m, minted.context.merge relayed.context = .ok m :=
      ⟨relayed.context, by decide +kernel⟩
    obtain ⟨hbound, -, habsorbs⟩ := reconcile_least.2 _ _ _ hminted hrelayed hm
    exact ⟨m, hm, habsorbs.right, Except.ok.inj
      (hbound.least newer.context hnewer (by decide +kernel) (by decide +kernel))⟩

end ShardCounter
