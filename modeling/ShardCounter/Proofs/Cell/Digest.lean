import ShardCounter.Proofs.Cell.Alike
/-! What a digest is taken of. Nothing in it says how long the context or the name is, but names of
one length can be cut off the end, and the words before them; what is left of a counter is the wire
form of its context. A tombstone starts with its mask, where a cleared context counts no pending
shard. -/
namespace ShardCounter

theorem Context.encode_injective {a b : Context} (ha : a.Canonical) (hb : b.Canonical)
    (h : a.encode = b.encode) : a = b := by
  have hdecode := decode_encode ha
  rw [h, decode_encode hb] at hdecode
  exact (Except.ok.inj hdecode).symm

namespace Bytes

variable {xs ys : Bytes} {v w : Int64}

theorem append_ofInt64_inj (h : xs ++ ofInt64 v = ys ++ ofInt64 w) : xs = ys ∧ v = w := by
  obtain ⟨hfront, hword⟩ := List.append_inj' h (by simp)
  refine ⟨hfront, ?_⟩
  rw [← toInt64_ofInt64 v, hword, toInt64_ofInt64]

theorem append_ofInt32_inj {v w : Int32} (h : xs ++ ofInt32 v = ys ++ ofInt32 w) :
    xs = ys ∧ v = w := by
  obtain ⟨hfront, hword⟩ := List.append_inj' h (by simp)
  refine ⟨hfront, ?_⟩
  rw [← toInt32_ofInt32 v, hword, toInt32_ofInt32]

end Bytes

theorem Counter.digestInput_inj {c d : Counter} (hc : c.context.Canonical) (hd : d.context.Canonical)
    (hsize : c.name.size = d.name.size) (h : c.digestInput = d.digestInput) :
    c.clearPending = d.clearPending := by
  unfold digestInput at h
  obtain ⟨h, hname⟩ := List.append_inj' h hsize
  obtain ⟨h, hdelete⟩ := Bytes.append_ofInt64_inj h
  obtain ⟨h, hwritten⟩ := Bytes.append_ofInt64_inj h
  have hcontext := Context.encode_injective hc.clearPending hd.clearPending h
  obtain ⟨⟨name⟩, context, writtenAt, lastDelete⟩ := c
  obtain ⟨⟨name'⟩, context', writtenAt', lastDelete'⟩ := d
  simp_all [clearPending]

theorem Tombstone.digestInput_inj {s t : Tombstone} (hsize : s.name.size = t.name.size)
    (h : s.digestInput = t.digestInput) : s = t := by
  unfold digestInput at h
  obtain ⟨h, hname⟩ := List.append_inj' h hsize
  obtain ⟨h, hlocal⟩ := Bytes.append_ofInt32_inj h
  have hwords : [tombstoneMask] ++ Bytes.ofInt64 s.deletedAt =
      [tombstoneMask] ++ Bytes.ofInt64 t.deletedAt := h
  obtain ⟨-, hdeleted⟩ := Bytes.append_ofInt64_inj hwords
  obtain ⟨⟨name⟩, localTime, deletedAt⟩ := s
  obtain ⟨⟨name'⟩, localTime', deletedAt'⟩ := t
  simp_all

theorem digestInput_ne (c : Counter) (t : Tombstone) : c.digestInput ≠ t.digestInput := by
  intro h
  -- A cleared context starts with a pending count of zero, a tombstone with its mask.
  have hfirst : c.digestInput.head? = some 0 := by
    unfold Counter.digestInput Context.encode
    rw [Context.pendingCount_clearPending]
    rfl
  have hmask : t.digestInput.head? = some tombstoneMask := rfl
  rw [h, hmask] at hfirst
  exact absurd hfirst (by decide)

namespace Cell

variable {a b : Cell}

theorem digestInput_eq_iff (ha : a.Canonical) (hb : b.Canonical) (hsize : a.name.size = b.name.size) :
    a.digestInput = b.digestInput ↔ a.clearPending = b.clearPending := by
  refine ⟨fun h => ?_, fun h => (Alike.of_clearPending_eq ha hb h).digestInput_eq⟩
  cases a with
  | counter c =>
    cases b with
    | counter d => exact congrArg counter (Counter.digestInput_inj (ha c rfl) (hb d rfl) hsize h)
    | tombstone t => exact absurd h (digestInput_ne c t)
  | tombstone s =>
    cases b with
    | counter d => exact absurd h.symm (digestInput_ne d s)
    | tombstone t => exact congrArg tombstone (Tombstone.digestInput_inj hsize h)

end Cell

def Context.unmarked (c : Context) : Array (Vector UInt8 16 × UInt64 × Int64) :=
  c.shards.map fun s => (s.id.bytes, s.clock, s.count)

theorem Context.clearPending_eq_iff {a b : Context} (ha : a.Canonical) (hb : b.Canonical) :
    a.clearPending = b.clearPending ↔ a.unmarked = b.unmarked := by
  have hunmarked {c : Context} (hc : c.Canonical) : c.clearPending.unmarked = c.unmarked := by
    unfold unmarked
    rw [hc.shards_clearPending, Array.map_map]
    rfl
  have hshards (c : Context) : c.shards.map Shard.toStable =
      c.unmarked.map fun (bytes, clock, count) => ⟨.stable bytes, clock, count⟩ := by
    unfold unmarked
    rw [Array.map_map]
    rfl
  constructor
  · intro h
    rw [← hunmarked ha, h, hunmarked hb]
  · intro h
    rw [ha.clearPending.eq_ofSorted, hb.clearPending.eq_ofSorted, ha.shards_clearPending,
      hb.shards_clearPending, hshards, hshards, h]

theorem Counter.clearPending_eq_iff {c d : Counter} (hc : c.context.Canonical)
    (hd : d.context.Canonical) : c.clearPending = d.clearPending ↔
      c.name = d.name ∧ c.context.unmarked = d.context.unmarked ∧ c.writtenAt = d.writtenAt ∧
        c.lastDelete = d.lastDelete := by
  unfold clearPending
  rw [mk.injEq, Context.clearPending_eq_iff hc hd]

/-- Among names of one length the bytes that a version feeds to its digest tell all there is to it but
its pending marks: every shard with its clock and count, every timestamp, and the name. No counter
feeds the bytes of a tombstone, whatever the two are called. -/
theorem digestInput_identifies :
    (∀ a b : Cell, a.Canonical → b.Canonical → a.name.size = b.name.size →
      (a.digestInput = b.digestInput ↔ a.clearPending = b.clearPending)) ∧
    (∀ (c : Counter) (t : Tombstone),
      (Cell.counter c).digestInput ≠ (Cell.tombstone t).digestInput) ∧
    (∀ c d : Counter, c.context.Canonical → d.context.Canonical → c.name.size = d.name.size →
      ((Cell.counter c).digestInput = (Cell.counter d).digestInput ↔
        c.name = d.name ∧ c.context.unmarked = d.context.unmarked ∧ c.writtenAt = d.writtenAt ∧
          c.lastDelete = d.lastDelete)) ∧
    (∀ s t : Tombstone, s.name.size = t.name.size →
      ((Cell.tombstone s).digestInput = (Cell.tombstone t).digestInput ↔
        s.name = t.name ∧ s.deletedAt = t.deletedAt ∧ s.localTime = t.localTime)) := by
  refine ⟨fun a b => Cell.digestInput_eq_iff, digestInput_ne, fun c d hc hd hsize => ?_,
    fun s t hsize => ⟨fun h => ?_, ?_⟩⟩
  · rw [Cell.digestInput_eq_iff (Cell.canonical_counter_iff.mpr hc)
      (Cell.canonical_counter_iff.mpr hd) hsize, Cell.clearPending, Cell.clearPending,
      Cell.counter.injEq, Counter.clearPending_eq_iff hc hd]
  · rw [Tombstone.digestInput_inj hsize h]
    exact ⟨rfl, rfl, rfl⟩
  · obtain ⟨name, localTime, deletedAt⟩ := s
    rintro ⟨rfl, rfl, rfl⟩
    rfl

namespace DigestInput

def counterOf (name : Bytes) (shards : Array Shard) : Counter := ⟨⟨name⟩, .ofSorted shards, 0, 0⟩

def shard (count : Int64) (isPending : Bool) : Shard := ⟨⟨.replicate 16 0, isPending⟩, 0, count⟩

end DigestInput

open DigestInput in
theorem digestInput_identifies_returned :
    (counterOf [120] #[shard 7 true]).digestInput = (counterOf [120] #[shard 7 false]).digestInput ∧
    (counterOf [120] #[shard 7 true]).digestInput ≠ (counterOf [120] #[shard 8 true]).digestInput ∧
    (counterOf [120] #[]).digestInput ≠ (Tombstone.mk ⟨[1, 2]⟩ 0 0).digestInput ∧
    (Tombstone.mk ⟨[120]⟩ 3 9).digestInput ≠ (Tombstone.mk ⟨[120]⟩ 4 9).digestInput := by
  have hcanonical (count : Int64) (isPending : Bool) :
      (counterOf [120] #[shard count isPending]).context.Canonical :=
    Context.canonical_ofSorted_singleton _
  obtain ⟨hcells, hvariants, hcounters, htombstones⟩ := digestInput_identifies
  have hsame := hcells (.counter (counterOf [120] #[shard 7 true]))
    (.counter (counterOf [120] #[shard 7 false])) (Cell.canonical_counter_iff.mpr (hcanonical 7 true))
    (Cell.canonical_counter_iff.mpr (hcanonical 7 false)) rfl
  have hcount := hcounters _ _ (hcanonical 7 true) (hcanonical 8 true) rfl
  have htime := htombstones ⟨⟨[120]⟩, 3, 9⟩ ⟨⟨[120]⟩, 4, 9⟩ rfl
  exact ⟨hsame.mpr (by decide +kernel), mt hcount.mp (by decide +kernel), hvariants _ _,
    mt htime.mp (by decide)⟩

open DigestInput in
/-- Without the length of its name a shard could be part of it. -/
example :
    (counterOf (.replicate 32 0) #[]).digestInput = (counterOf [] #[shard 0 false]).digestInput := by
  decide +kernel

end ShardCounter
