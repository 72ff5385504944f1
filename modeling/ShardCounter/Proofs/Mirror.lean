import ShardCounter.Proofs.Cell.Canonical
/-! Which side reconciles makes no difference. Either both sides come to one result, or both refuse,
for one reason that names the two sides in their own order: the first conflict in the order of ids is
the same from either side, and so is the first position past the header's reach. -/
namespace ShardCounter

/-- One outcome seen from both sides. -/
inductive Mirrored {ε α : Type} (swapped : ε → ε → Prop) : Except ε α → Except ε α → Prop where
  | ok (a : α) : Mirrored swapped (.ok a) (.ok a)
  | error {e e' : ε} (h : swapped e e') : Mirrored swapped (.error e) (.error e')

/-- Refusals to merge with the counts of the two sides exchanged. -/
inductive ContextError.Swapped : ContextError → ContextError → Prop where
  | malformed (reason : Malformation) : Swapped (.malformed reason) (.malformed reason)
  | clockCountMismatch (replica : ReplicaId) (clock : UInt64) (left right : Int64) :
    Swapped (.clockCountMismatch replica clock left right)
      (.clockCountMismatch replica clock right left)

inductive CellError.Swapped : CellError → CellError → Prop where
  | nameMismatch (left right : CellName) :
    Swapped (.nameMismatch left right) (.nameMismatch right left)
  | context {e e' : ContextError} (h : e.Swapped e') : Swapped (.context e) (.context e')

namespace Mirrored

variable {ε α β : Type} {swapped : ε → ε → Prop} {x y : Except ε α}

theorem of_eq {a : α} (hx : x = .ok a) (hy : y = .ok a) : Mirrored swapped x y := by
  rw [hx, hy]
  exact .ok a

theorem bind {f : α → Except ε β} (h : Mirrored swapped x y)
    (hf : ∀ a, Mirrored swapped (f a) (f a)) : Mirrored swapped (x >>= f) (y >>= f) := by
  cases h with
  | ok a => exact hf a
  | error h => exact .error h

theorem map (f : α → β) (h : Mirrored swapped x y) : Mirrored swapped (f <$> x) (f <$> y) := by
  cases h with
  | ok a => exact .ok (f a)
  | error h => exact .error h

theorem eq_ok_iff (h : Mirrored swapped x y) (a : α) : x = .ok a ↔ y = .ok a := by
  cases h with
  | ok b => exact Iff.rfl
  | error h => exact iff_of_false nofun nofun

theorem exists_error {e : ε} (h : Mirrored swapped x y) (hx : x = .error e) :
    ∃ e', y = .error e' ∧ swapped e e' := by
  cases h with
  | ok a => contradiction
  | error h =>
    cases hx
    exact ⟨_, rfl, h⟩

end Mirrored

theorem Shard.mirrored_resolve {a b : Shard} (hbytes : a.id.bytes = b.id.bytes) :
    Mirrored ContextError.Swapped (a.resolve b) (b.resolve a) := by
  cases hab : a.resolve b with
  | ok s =>
    obtain ⟨hs, has, hbs⟩ := resolve_eq_ok hbytes hab
    cases hba : b.resolve a with
    | ok t =>
      -- Each survivor is one of the two records, and carries both of them.
      obtain ⟨ht, hbt, hat⟩ := resolve_eq_ok hbytes.symm hba
      have hst : s ≤ t := by rcases hs with rfl | rfl <;> assumption
      have hts : t ≤ s := by rcases ht with rfl | rfl <;> assumption
      rw [le_antisymm hst hts]
      exact .ok t
    | error e =>
      have hconflict := (resolve_eq_error hbytes.symm hba).1
      rcases hs with rfl | rfl
      · exact absurd hconflict (not_conflicts_of_le hbs)
      · exact absurd hconflict.symm (not_conflicts_of_le has)
  | error e =>
    obtain ⟨hconflict, rfl⟩ := resolve_eq_error hbytes hab
    cases hba : b.resolve a with
    | ok t =>
      obtain ⟨ht, hbt, hat⟩ := resolve_eq_ok hbytes.symm hba
      rcases ht with rfl | rfl
      · exact absurd hconflict (not_conflicts_of_le hat)
      · exact absurd hconflict.symm (not_conflicts_of_le hbt)
    | error e =>
      obtain ⟨-, rfl⟩ := resolve_eq_error hbytes.symm hba
      have hid : b.id.toStable = a.id.toStable := congrArg ReplicaId.stable hbytes.symm
      rw [hid, ← hconflict.2.1]
      exact .error (.clockCountMismatch ..)

namespace Context

theorem mirrored_mergeLists (left right : List Shard) :
    Mirrored ContextError.Swapped (mergeLists left right) (mergeLists right left) := by
  fun_induction mergeLists left right with
  | case1 right => exact .of_eq rfl (mergeLists_nil_right right)
  | case2 left _ => exact .of_eq rfl (by rw [mergeLists])
  | case3 a left b right horder ih =>
    rw [mergeLists, ReplicaId.order_gt_iff.mpr horder]
    exact ih.map _
  | case4 a left b right horder ih =>
    rw [mergeLists, ReplicaId.order_gt_iff.mp horder]
    exact ih.map _
  | case5 a left b right horder s hresolve ih =>
    have hbytes := ReplicaId.order_eq_iff.mp horder
    have hmirror := ((Shard.mirrored_resolve hbytes).eq_ok_iff s).mp hresolve
    rw [mergeLists, ReplicaId.order_eq_iff.mpr hbytes.symm]
    dsimp only
    rw [hmirror]
    exact ih.map _
  | case6 a left b right horder e hresolve =>
    have hbytes := ReplicaId.order_eq_iff.mp horder
    obtain ⟨e', hmirror, hswapped⟩ := (Shard.mirrored_resolve hbytes).exists_error hresolve
    rw [mergeLists, ReplicaId.order_eq_iff.mpr hbytes.symm]
    dsimp only
    rw [hmirror]
    exact .error hswapped

theorem mirrored_merge {a b : Context} (ha : a.Canonical) (hb : b.Canonical) :
    Mirrored ContextError.Swapped (a.merge b) (b.merge a) := by
  rw [merge_eq ha hb, merge_eq hb ha]
  refine (mirrored_mergeLists _ _).bind fun merged => ?_
  by_cases hfit : PositionsFit merged.toArray
  · exact .of_eq (ofSorted?_of_fit hfit) (ofSorted?_of_fit hfit)
  · obtain ⟨reason, -, herror⟩ := ofSorted?_of_not_fit hfit
    rw [herror]
    exact .error (.malformed reason)

end Context

theorem Counter.join_comm {l r : Counter} (hname : l.name = r.name) (context : Context) :
    l.join r context = r.join l context := by
  unfold join
  rw [hname, max_comm l.writtenAt, max_comm l.lastDelete]

theorem Counter.mirrored_reconcile {l r : Counter} (hname : l.name = r.name)
    (hl : l.context.Canonical) (hr : r.context.Canonical) :
    Mirrored CellError.Swapped (l.reconcile r) (r.reconcile l) := by
  have hmirror := Context.mirrored_merge hl hr
  cases hmerge : l.context.merge r.context with
  | ok context =>
    rw [reconcile_of_merge hname hmerge,
      reconcile_of_merge hname.symm ((hmirror.eq_ok_iff context).mp hmerge), join_comm hname]
    exact .ok _
  | error e =>
    obtain ⟨e', hmerge', hswapped⟩ := hmirror.exists_error hmerge
    rw [reconcile_of_merge_error hname hmerge, reconcile_of_merge_error hname.symm hmerge']
    exact .error (.context hswapped)

namespace Cell

variable {a b : Cell}

theorem mirrored_reconcile (ha : a.Canonical) (hb : b.Canonical) :
    Mirrored CellError.Swapped (a.reconcile b) (b.reconcile a) := by
  by_cases hname : a.name = b.name
  · cases a with
    | counter l =>
      cases b with
      | counter r =>
        rw [reconcile_counters hname, reconcile_counters hname.symm]
        exact (Counter.mirrored_reconcile hname (ha l rfl) (hb r rfl)).map _
      | tombstone t =>
        exact .of_eq (reconcile_counter_tombstone hname) (reconcile_tombstone_counter hname.symm)
    | tombstone t =>
      cases b with
      | counter r =>
        exact .of_eq (reconcile_tombstone_counter hname) (reconcile_counter_tombstone hname.symm)
      | tombstone r =>
        rw [reconcile_tombstones hname, reconcile_tombstones hname.symm,
          Tombstone.later_comm hname]
        exact .ok _
  · rw [reconcile_of_name_ne hname, reconcile_of_name_ne (Ne.symm hname)]
    exact .error (.nameMismatch a.name b.name)

theorem reconcile_comm (ha : a.Canonical) (hb : b.Canonical) {c : Cell}
    (h : a.reconcile b = .ok c) : b.reconcile a = .ok c :=
  ((mirrored_reconcile ha hb).eq_ok_iff c).mp h

end Cell

/-- Both sides reconcile to one cell, or refuse for one reason with the sides exchanged; and so do the
contexts of live cells. -/
theorem reconcile_commutes :
    (∀ a b : Cell, a.Canonical → b.Canonical →
      (∀ c, a.reconcile b = .ok c ↔ b.reconcile a = .ok c) ∧
      ∀ e, a.reconcile b = .error e → ∃ e', b.reconcile a = .error e' ∧ e.Swapped e') ∧
    (∀ a b : Context, a.Canonical → b.Canonical →
      (∀ m, a.merge b = .ok m ↔ b.merge a = .ok m) ∧
      ∀ e, a.merge b = .error e → ∃ e', b.merge a = .error e' ∧ e.Swapped e') := by
  refine ⟨fun a b ha hb => ?_, fun a b ha hb => ?_⟩
  · have hmirror := Cell.mirrored_reconcile ha hb
    exact ⟨hmirror.eq_ok_iff, fun _ h => hmirror.exists_error h⟩
  · have hmirror := Context.mirrored_merge ha hb
    exact ⟨hmirror.eq_ok_iff, fun _ h => hmirror.exists_error h⟩

namespace Mirror

def five : Context := .ofSorted #[⟨.pending (Bytes.toVector 16 [1]), 1, 5⟩]

def seven : Context := .ofSorted #[⟨.stable (Bytes.toVector 16 [1]), 1, 7⟩]

def counterOf (context : Context) : Cell := .counter ⟨⟨[120]⟩, context, 10, 3⟩

def delete : Cell := .tombstone ⟨⟨[120]⟩, 0, 8⟩

end Mirror

open Mirror in
theorem reconcile_commutes_of_five_seven :
    (counterOf five).Canonical ∧ (counterOf seven).Canonical ∧ delete.Canonical ∧
    (counterOf five).reconcile (counterOf seven) =
      .error (.context (.clockCountMismatch (.stable (Bytes.toVector 16 [1])) 1 5 7)) ∧
    (counterOf seven).reconcile (counterOf five) =
      .error (.context (.clockCountMismatch (.stable (Bytes.toVector 16 [1])) 1 7 5)) ∧
    (∃ c, (counterOf five).reconcile delete = .ok c ∧ delete.reconcile (counterOf five) = .ok c) ∧
    ∃ e, seven.merge five = .error e := by
  have hfive : (counterOf five).Canonical := by decide +kernel
  have hseven : (counterOf seven).Canonical := by decide +kernel
  have hdelete : delete.Canonical := Cell.canonical_tombstone _
  have hconflict : (counterOf five).reconcile (counterOf seven) =
      .error (.context (.clockCountMismatch (.stable (Bytes.toVector 16 [1])) 1 5 7)) := by
    decide +kernel
  have hmerge : five.merge seven =
      .error (.clockCountMismatch (.stable (Bytes.toVector 16 [1])) 1 5 7) := by decide +kernel
  have hdeleted : (counterOf five).reconcile delete = .ok (.counter ⟨⟨[120]⟩, five, 10, 8⟩) := by
    decide +kernel
  obtain ⟨e, hmirror, hswapped⟩ := (reconcile_commutes.1 _ _ hfive hseven).2 _ hconflict
  obtain ⟨e', hmerge', -⟩ := (reconcile_commutes.2 _ _ (hfive _ rfl) (hseven _ rfl)).2 _ hmerge
  refine ⟨hfive, hseven, hdelete, hconflict, ?_, ⟨_, hdeleted, ?_⟩, e', hmerge'⟩
  · rw [hmirror]
    cases hswapped with
    | context h => cases h with
      | clockCountMismatch => rfl
  · exact ((reconcile_commutes.1 _ _ hfive hdelete).1 _).mp hdeleted

end ShardCounter
