import ShardCounter.Proofs.Cell.Reconcile
import ShardCounter.Proofs.Context.Dominance
import ShardCounter.Proofs.MergeTree
/-! What a mixed history of writes and deletes comes to. The slot keeps the latest timestamp of all it
was given: a counter as long as some write is not older than any delete, and else the latest delete.
No surviving write is lost, though what a delete once shadowed may come back with a later write. -/
namespace ShardCounter

/-- A live cell against everything that was folded into it. -/
structure Counter.Survives (inputs : List Cell) (c : Counter) : Prop where
  written : ∃ k, .counter k ∈ inputs ∧ k.writtenAt = c.writtenAt
  canonical : c.context.Canonical
  records : ∀ s ∈ c.context.shards, ∃ k, .counter k ∈ inputs ∧ s ∈ k.context.shards
  carries : ∀ k, .counter k ∈ inputs →
    (∀ t, .tombstone t ∈ inputs → t.deletedAt ≤ k.writtenAt) → k.context ≤ c.context

/-- A delete against everything that it shadows. -/
structure Tombstone.Prevails (inputs : List Cell) (t : Tombstone) : Prop where
  mem : .tombstone t ∈ inputs
  later_than_writes : ∀ c, .counter c ∈ inputs → c.writtenAt < t.deletedAt
  latest : ∀ s, .tombstone s ∈ inputs → s.NotAfter t

namespace Counter.Survives

variable {xs ys : List Cell} {c l r : Counter} {t : Tombstone} {context : Context}

theorem of_leaf (h : c.context.Canonical) : c.Survives [.counter c] where
  written := ⟨c, List.mem_singleton_self _, rfl⟩
  canonical := h
  records s hs := ⟨c, List.mem_singleton_self _, hs⟩
  carries k hk _ := by
    cases List.mem_singleton.mp hk
    exact le_refl _

theorem congr (h : ∀ x, x ∈ xs ↔ x ∈ ys) (hc : c.Survives xs) : c.Survives ys := by
  obtain ⟨hwritten, hcanonical, hrecords, hcarries⟩ := hc
  constructor
  · simpa only [h] using hwritten
  · exact hcanonical
  · simpa only [h] using hrecords
  · simpa only [h] using hcarries

theorem join (hl : l.Survives xs) (hr : r.Survives ys)
    (h : l.context.merge r.context = .ok context) : (l.join r context).Survives (xs ++ ys) where
  written := by
    rcases max_cases l.writtenAt r.writtenAt with ⟨hmax, -⟩ | ⟨hmax, -⟩
    · obtain ⟨k, hk, hkl⟩ := hl.written
      exact ⟨k, List.mem_append_left ys hk, hkl.trans hmax.symm⟩
    · obtain ⟨k, hk, hkr⟩ := hr.written
      exact ⟨k, List.mem_append_right xs hk, hkr.trans hmax.symm⟩
  canonical := Context.canonical_merge hl.canonical hr.canonical h
  records s hs := by
    rcases (Context.isJoin_merge hl.canonical hr.canonical h).mem s hs with hs | hs
    · obtain ⟨k, hk, hsk⟩ := hl.records s hs
      exact ⟨k, List.mem_append_left ys hk, hsk⟩
    · obtain ⟨k, hk, hsk⟩ := hr.records s hs
      exact ⟨k, List.mem_append_right xs hk, hsk⟩
  carries k hk htombs := by
    rcases List.mem_append.mp hk with hk | hk
    · have hle := hl.carries k hk fun t ht => htombs t (List.mem_append_left ys ht)
      exact hle.trans (Context.le_merge_left hl.canonical hr.canonical h)
    · have hle := hr.carries k hk fun t ht => htombs t (List.mem_append_right xs ht)
      exact hle.trans (Context.le_merge_right hl.canonical hr.canonical h)

theorem survive (hc : c.Survives xs) (ht : t.Prevails ys) :
    (c.survive t.deletedAt).Survives (xs ++ ys) where
  written := by
    obtain ⟨k, hk, hkc⟩ := hc.written
    exact ⟨k, List.mem_append_left ys hk, hkc⟩
  canonical := hc.canonical
  records s hs := by
    obtain ⟨k, hk, hsk⟩ := hc.records s hs
    exact ⟨k, List.mem_append_left ys hk, hsk⟩
  carries k hk htombs := by
    rcases List.mem_append.mp hk with hk | hk
    · exact hc.carries k hk fun s hs => htombs s (List.mem_append_left ys hs)
    · have hle := htombs t (List.mem_append_right xs ht.mem)
      exact absurd (ht.later_than_writes k hk) (Int64.not_lt.mpr hle)

end Counter.Survives

namespace Tombstone.Prevails

variable {xs ys : List Cell} {l r t : Tombstone} {writtenAt : Int64}

theorem of_leaf (t : Tombstone) : t.Prevails [.tombstone t] where
  mem := List.mem_singleton_self _
  later_than_writes _ hc := nomatch List.mem_singleton.mp hc
  latest s hs := by
    cases List.mem_singleton.mp hs
    exact .refl t

theorem congr (h : ∀ x, x ∈ xs ↔ x ∈ ys) (ht : t.Prevails xs) : t.Prevails ys := by
  obtain ⟨hmem, hwrites, hlatest⟩ := ht
  constructor
  · exact (h _).mp hmem
  · simpa only [h] using hwrites
  · simpa only [h] using hlatest

theorem shadow (hlatest : IsLatest Cell.timestamp xs writtenAt) (ht : t.Prevails ys)
    (h : writtenAt < t.deletedAt) : t.Prevails (xs ++ ys) where
  mem := List.mem_append_right xs ht.mem
  later_than_writes c hc := by
    rcases List.mem_append.mp hc with hc | hc
    · exact Int64.lt_of_le_of_lt (hlatest.le (.counter c) hc) h
    · exact ht.later_than_writes c hc
  latest s hs := by
    rcases List.mem_append.mp hs with hs | hs
    · exact .inl (Int64.lt_of_le_of_lt (hlatest.le (.tombstone s) hs) h)
    · exact ht.latest s hs

theorem later (hl : l.Prevails xs) (hr : r.Prevails ys) : (l.later r).Prevails (xs ++ ys) where
  mem := by
    rcases later_cases l r with ⟨h, -⟩ | ⟨h, -⟩
    · rw [h]
      exact List.mem_append_left ys hl.mem
    · rw [h]
      exact List.mem_append_right xs hr.mem
  later_than_writes c hc := by
    rcases List.mem_append.mp hc with hc | hc
    · exact Int64.lt_of_lt_of_le (hl.later_than_writes c hc) (left_notAfter_later l r).deletedAt_le
    · exact Int64.lt_of_lt_of_le (hr.later_than_writes c hc) (right_notAfter_later l r).deletedAt_le
  latest s hs := by
    rcases List.mem_append.mp hs with hs | hs
    · exact (hl.latest s hs).trans (left_notAfter_later l r)
    · exact (hr.latest s hs).trans (right_notAfter_later l r)

end Tombstone.Prevails

namespace Cell

/-- The latest delete that a cell knows of. -/
def deleteMark : Cell → Int64
  | .counter c => c.lastDelete
  | .tombstone t => t.deletedAt

variable {a b joined result : Cell}

theorem timestamp_of_reconciles (h : Reconciles a b joined) :
    joined.timestamp = max a.timestamp b.timestamp := by
  cases h with
  | counters => rfl
  | tombstones l r => exact Tombstone.deletedAt_later l r
  | shadowedLeft c t hlt => exact (max_eq_right (Int64.le_of_lt hlt)).symm
  | shadowedRight c t hlt => exact (max_eq_left (Int64.le_of_lt hlt)).symm
  | survivesLeft c t hle => exact (max_eq_left hle).symm
  | survivesRight c t hle => exact (max_eq_right hle).symm

theorem deleteMark_of_reconciles (h : Reconciles a b joined) (ha : a.deleteMark ≤ a.timestamp)
    (hb : b.deleteMark ≤ b.timestamp) : joined.deleteMark = max a.deleteMark b.deleteMark := by
  cases h with
  | counters => rfl
  | tombstones l r => exact Tombstone.deletedAt_later l r
  -- The delete that shadows a counter is later than any that the counter outlived.
  | shadowedLeft c t hlt =>
    exact (max_eq_right (Int64.le_of_lt (Int64.lt_of_le_of_lt ha hlt))).symm
  | shadowedRight c t hlt =>
    exact (max_eq_left (Int64.le_of_lt (Int64.lt_of_le_of_lt hb hlt))).symm
  | survivesLeft => rfl
  | survivesRight c t hle => exact max_comm c.lastDelete t.deletedAt

theorem deleteMark_le_of_reconciles (h : Reconciles a b joined) (ha : a.deleteMark ≤ a.timestamp)
    (hb : b.deleteMark ≤ b.timestamp) : joined.deleteMark ≤ joined.timestamp := by
  rw [deleteMark_of_reconciles h ha hb, timestamp_of_reconciles h]
  exact max_le (Int64.le_trans ha (le_max_left _ _)) (Int64.le_trans hb (le_max_right _ _))

structure SumsUp (inputs : List Cell) (result : Cell) : Prop where
  timestamp : IsLatest Cell.timestamp inputs result.timestamp
  live : ∀ c, result = .counter c → c.Survives inputs
  deleted : ∀ t, result = .tombstone t → t.Prevails inputs

namespace SumsUp

variable {inputs xs ys : List Cell}

theorem isLive_iff (h : SumsUp inputs result) :
    result.isLive = true ↔
      ∃ k, .counter k ∈ inputs ∧ ∀ t, .tombstone t ∈ inputs → t.deletedAt ≤ k.writtenAt := by
  cases result with
  | counter c =>
    obtain ⟨k, hk, hkc⟩ := (h.live c rfl).written
    have htombs : ∀ t, .tombstone t ∈ inputs → t.deletedAt ≤ k.writtenAt := fun t ht =>
      hkc ▸ h.timestamp.le (.tombstone t) ht
    exact iff_of_true rfl ⟨k, hk, htombs⟩
  | tombstone t =>
    have ht := h.deleted t rfl
    apply iff_of_false Bool.false_ne_true
    rintro ⟨k, hk, htombs⟩
    exact absurd (ht.later_than_writes k hk) (Int64.not_lt.mpr (htombs t ht.mem))

theorem singleton (h : ∀ c, a = .counter c → c.context.Canonical) : SumsUp [a] a := by
  refine ⟨.singleton _ a, ?_, ?_⟩
  · rintro c rfl
    exact .of_leaf (h c rfl)
  · rintro t rfl
    exact .of_leaf t

theorem append (ha : SumsUp xs a) (hb : SumsUp ys b) (h : Reconciles a b joined) :
    SumsUp (xs ++ ys) joined := by
  have hcomm : ∀ x, x ∈ ys ++ xs ↔ x ∈ xs ++ ys := fun x => by
    rw [List.mem_append, List.mem_append, or_comm]
  refine ⟨timestamp_of_reconciles h ▸ ha.timestamp.append hb.timestamp, ?_, ?_⟩
  · rintro _ rfl
    cases h with
    | counters l r context hmerge => exact (ha.live l rfl).join (hb.live r rfl) hmerge
    | survivesLeft c t _ => exact (ha.live c rfl).survive (hb.deleted t rfl)
    | survivesRight c t _ => exact ((hb.live c rfl).survive (ha.deleted t rfl)).congr hcomm
  · rintro _ rfl
    cases h with
    | tombstones l r => exact (ha.deleted l rfl).later (hb.deleted r rfl)
    | shadowedLeft c t hlt => exact .shadow ha.timestamp (hb.deleted _ rfl) hlt
    | shadowedRight c t hlt =>
      exact (Tombstone.Prevails.shadow hb.timestamp (ha.deleted _ rfl) hlt).congr hcomm

end SumsUp

theorem sumsUp_of_eval {t : MergeTree Cell}
    (hcanonical : ∀ c, .counter c ∈ t.leaves → c.context.Canonical)
    (h : t.eval reconcile = .ok result) : SumsUp t.leaves result := by
  refine MergeTree.eval_induction SumsUp ?_ ?_ h
  · intro xs ys l r joined hl hr hjoin
    exact hl.append hr (reconciles_of_reconcile hjoin)
  · intro cell hcell
    exact .singleton fun c hc => hcanonical c (hc ▸ hcell)

/-- If no input knows of a delete after its own write, neither does the result, and it knows of the
latest of all deletes. -/
theorem deleteMark_of_eval {t : MergeTree Cell}
    (hmarks : ∀ cell ∈ t.leaves, cell.deleteMark ≤ cell.timestamp)
    (h : t.eval reconcile = .ok result) :
    result.deleteMark ≤ result.timestamp ∧ IsLatest deleteMark t.leaves result.deleteMark := by
  refine MergeTree.eval_induction
    (fun xs cell => cell.deleteMark ≤ cell.timestamp ∧ IsLatest deleteMark xs cell.deleteMark)
    ?_ ?_ h
  · rintro xs ys l r joined ⟨hl, hlatest⟩ ⟨hr, hlatest'⟩ hjoin
    have hjoined := reconciles_of_reconcile hjoin
    refine ⟨deleteMark_le_of_reconciles hjoined hl hr, ?_⟩
    rw [deleteMark_of_reconciles hjoined hl hr]
    exact hlatest.append hlatest'
  · exact fun cell hcell => ⟨hmarks cell hcell, .singleton _ cell⟩

/-- The outcome of a history of writes and deletes, in any order and bracketing that succeeds: its
timestamp, whether it is live, which delete it is or else what it carries, and, as long as no write
knows of a delete from its own future, the latest delete that it remembers. -/
theorem reconcile_history {t : MergeTree Cell} {result : Cell}
    (hcanonical : ∀ c, .counter c ∈ t.leaves → c.context.Canonical)
    (h : t.eval reconcile = .ok result) :
    IsLatest Cell.timestamp t.leaves result.timestamp ∧
    (result.isLive = true ↔
      ∃ k, .counter k ∈ t.leaves ∧
        ∀ d, .tombstone d ∈ t.leaves → d.deletedAt ≤ k.writtenAt) ∧
    (∀ d, result = .tombstone d →
      .tombstone d ∈ t.leaves ∧ ∀ e, .tombstone e ∈ t.leaves → e.NotAfter d) ∧
    (∀ c, result = .counter c →
      (∀ k, .counter k ∈ t.leaves →
        (∀ d, .tombstone d ∈ t.leaves → d.deletedAt ≤ k.writtenAt) →
        c.context.dominates k.context = true) ∧
      ∀ s ∈ c.context.shards, ∃ k, .counter k ∈ t.leaves ∧ s ∈ k.context.shards) ∧
    ((∀ k, .counter k ∈ t.leaves → k.lastDelete ≤ k.writtenAt) →
      ∀ c, result = .counter c →
        c.lastDelete ≤ c.writtenAt ∧ IsLatest deleteMark t.leaves c.lastDelete) := by
  have hsum := sumsUp_of_eval hcanonical h
  refine ⟨hsum.timestamp, hsum.isLive_iff, ?_, ?_, ?_⟩
  · intro d hd
    exact ⟨(hsum.deleted d hd).mem, (hsum.deleted d hd).latest⟩
  · intro c hc
    have hsurvives := hsum.live c hc
    refine ⟨fun k hk htombs => ?_, hsurvives.records⟩
    exact Context.dominates_of_le hsurvives.canonical (hcanonical k hk)
      (hsurvives.carries k hk htombs)
  · rintro hmarks c rfl
    have hcells : ∀ cell ∈ t.leaves, cell.deleteMark ≤ cell.timestamp := by
      intro cell hcell
      cases cell with
      | counter k => exact hmarks k hcell
      | tombstone d => exact Int64.le_refl d.deletedAt
    have hmark := deleteMark_of_eval hcells h
    exact hmark

namespace History

def first : Counter where
  name := ⟨[120]⟩
  context := .ofSorted #[⟨.pending (Bytes.toVector 16 [1]), 1, 5⟩]
  writtenAt := 10
  lastDelete := 3

def delete : Tombstone := ⟨⟨[120]⟩, 0, 12⟩

def olderDelete : Tombstone := ⟨⟨[120]⟩, 7, 11⟩

def second : Counter where
  name := ⟨[120]⟩
  context := .ofSorted #[⟨.stable (Bytes.toVector 16 [2]), 1, 2⟩]
  writtenAt := 15
  lastDelete := Counter.neverDeleted

def order : MergeTree Cell :=
  .node (.node (.leaf (.counter first)) (.leaf (.tombstone delete)))
    (.node (.leaf (.counter second)) (.leaf (.tombstone olderDelete)))

theorem counter_mem_order {c : Counter} :
    .counter c ∈ order.leaves ↔ c = first ∨ c = second := by
  simp [order, MergeTree.leaves]

theorem tombstone_mem_order {t : Tombstone} :
    .tombstone t ∈ order.leaves ↔ t = delete ∨ t = olderDelete := by
  simp [order, MergeTree.leaves]

end History

open History in
theorem reconcile_history_of_late_write :
    ∃ c, order.eval reconcile = .ok (.counter c) ∧ c.writtenAt = 15 ∧ c.lastDelete = 12 ∧
      c.context.dominates second.context = true ∧ IsLatest deleteMark order.leaves c.lastDelete := by
  have hcanonical : ∀ c, .counter c ∈ order.leaves → c.context.Canonical := by
    intro c hc
    rcases counter_mem_order.mp hc with rfl | rfl
    · exact Context.canonical_ofSorted_singleton _
    · exact Context.canonical_ofSorted_singleton _
  have heval : order.eval reconcile = .ok (.counter (second.survive 12)) := by decide +kernel
  obtain ⟨-, -, -, hlive, hmarks⟩ := reconcile_history hcanonical heval
  refine ⟨second.survive 12, heval, rfl, by decide, ?_, ?_⟩
  · apply (hlive (second.survive 12) rfl).1 second (counter_mem_order.mpr (.inr rfl))
    intro d hd
    rcases tombstone_mem_order.mp hd with rfl | rfl <;> decide
  · refine (hmarks ?_ (second.survive 12) rfl).2
    intro k hk
    rcases counter_mem_order.mp hk with rfl | rfl <;> decide

end Cell
end ShardCounter
