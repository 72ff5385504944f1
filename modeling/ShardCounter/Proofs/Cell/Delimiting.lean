import ShardCounter.Proofs.Cell.Origin
/-! Cells mark their own end. A reader takes its bytes piece by piece and never stands beyond its
input, so what it makes of an input it also makes of a longer one, and of a shorter one unless a piece
is missing. Of accepted bytes no shorter or longer ones are accepted. -/
namespace ShardCounter

namespace Reader

variable {α β : Type} {read : Read α} {next : α → Read β} {input : Bytes} {r r' : Reader} {a : α}
  {stops : List Reader} {outcome : Except CellError (α × Reader)}

/-- From `r` on, the reader takes bytes at just these stops and comes to this outcome. -/
inductive Runs : {α : Type} → Read α → Reader → List Reader → Except CellError (α × Reader) → Prop
  | pure {α : Type} (a : α) (r : Reader) : Runs (pure a) r [] (.ok (a, r))
  | throw {α : Type} (e : CellError) (r : Reader) : Runs (throw e : Read α) r [] (.error e)
  | take (size : Nat) (r : Reader) : Runs (take size) r [r] (take size r)
  | bind {α β : Type} {read : Read α} {next : α → Read β} {a : α} {r r' : Reader}
      {stops later : List Reader} {outcome : Except CellError (β × Reader)}
      (hread : Runs read r stops (.ok (a, r'))) (hnext : Runs (next a) r' later outcome) :
      Runs (read >>= next) r (stops ++ later) outcome
  | fail {α β : Type} {read : Read α} {next : α → Read β} {r : Reader} {stops : List Reader}
      {e : CellError} (hread : Runs read r stops (.error e)) :
      Runs (read >>= next) r stops (.error e)

/-- Wherever it starts, the reader does nothing but take bytes at one stop after another. -/
def Stepwise (read : Read α) : Prop := ∀ r, ∃ stops, Runs read r stops (read r)

namespace Stepwise

theorem pure (a : α) : Stepwise (pure a) := fun r => ⟨[], .pure a r⟩

theorem throw (e : CellError) : Stepwise (throw e : Read α) := fun r => ⟨[], .throw e r⟩

theorem take (size : Nat) : Stepwise (take size) := fun r => ⟨[r], .take size r⟩

theorem bind (hread : Stepwise read) (hnext : ∀ a, Stepwise (next a)) :
    Stepwise (read >>= next) := by
  intro r
  obtain ⟨stops, hstops⟩ := hread r
  cases hok : read r with
  | error e =>
    rw [hok] at hstops
    rw [bind_of_error next hok]
    exact ⟨stops, .fail hstops⟩
  | ok result =>
    rw [hok] at hstops
    rw [bind_of_ok next hok]
    obtain ⟨later, hlater⟩ := hnext result.1 result.2
    exact ⟨stops ++ later, .bind hstops hlater⟩

theorem map (f : α → β) (hread : Stepwise read) : Stepwise (f <$> read) := by
  rw [map_eq_pure_bind]
  exact hread.bind fun a => pure (f a)

theorem nat (size : Nat) : Stepwise (nat size) := (take size).map _

theorem int64 : Stepwise int64 := (take 8).map _

theorem int32 : Stepwise int32 := (take 4).map _

theorem name : Stepwise name := (nat 2).bind fun size => (take size).bind fun _ => pure _

theorem context (origin : Origin) : Stepwise (context origin) := by
  refine (nat 4).bind fun size => (take size).bind fun bytes => ?_
  split
  · exact throw _
  · exact pure _

theorem counter (origin : Origin) : Stepwise (counter origin) :=
  name.bind fun _ => (context origin).bind fun _ => int64.bind fun _ => int64.bind fun _ => pure _

theorem tombstone : Stepwise tombstone :=
  name.bind fun _ => int64.bind fun _ => int32.bind fun _ => pure _

theorem cell (origin : Origin) : Stepwise (cell origin) := by
  refine (nat 1).bind fun mask => ?_
  dsimp only
  split
  · exact (counter origin).bind fun _ => pure _
  · split
    · exact tombstone.bind fun _ => pure _
    · exact throw _

end Stepwise

structure Within (input : Bytes) (r : Reader) : Prop where
  offset_le : r.offset ≤ input.length
  rest_eq : r.rest = input.drop r.offset

theorem Within.start (input : Bytes) : Within input ⟨0, input⟩ := ⟨Nat.zero_le _, rfl⟩

theorem Within.offset_add_length (h : Within input r) :
    r.offset + r.rest.length = input.length := by
  rw [h.rest_eq, List.length_drop]
  exact Nat.add_sub_cancel' h.offset_le

theorem Within.take {size : Nat} {bytes : Bytes} (hr : Within input r)
    (h : take size r = .ok (bytes, r')) : Within input r' := by
  obtain ⟨hle, -, rfl⟩ := take_eq_ok h
  refine ⟨?_, ?_⟩
  · show r.offset + size ≤ input.length
    rw [← hr.offset_add_length]
    exact Nat.add_le_add_left hle _
  · show r.rest.drop size = input.drop (r.offset + size)
    rw [hr.rest_eq, List.drop_drop]

namespace Runs

theorem within (h : Runs read r stops outcome) (hr : Within input r) :
    (∀ s ∈ stops, Within input s) ∧ ∀ a r', outcome = .ok (a, r') → Within input r' := by
  -- Induction on the run: whatever a reader is made of, it moves only by taking bytes that are there.
  induction h with
  | pure a r =>
    refine ⟨fun s hs => absurd hs List.not_mem_nil, fun a r' hok => ?_⟩
    cases hok
    exact hr
  | throw e r => exact ⟨fun s hs => absurd hs List.not_mem_nil, fun a r' hok => nomatch hok⟩
  | take size r =>
    refine ⟨fun s hs => ?_, fun bytes r' hok => hr.take hok⟩
    rw [List.mem_singleton.mp hs]
    exact hr
  | bind hread hnext ihread ihnext =>
    obtain ⟨hstops, hend⟩ := ihread hr
    obtain ⟨hlater, hend⟩ := ihnext (hend _ _ rfl)
    exact ⟨fun s hs => (List.mem_append.mp hs).elim (hstops s) (hlater s), hend⟩
  | fail hread ihread => exact ⟨(ihread hr).1, fun a r' hok => nomatch hok⟩

theorem extend (h : Runs read r stops outcome) (hok : outcome = .ok (a, r')) (more : Bytes) :
    read ⟨r.offset, r.rest ++ more⟩ = .ok (a, ⟨r'.offset, r'.rest ++ more⟩) := by
  induction h generalizing r' with
  | pure a r =>
    cases hok
    rfl
  | throw e r => contradiction
  | take size r =>
    obtain ⟨hle, rfl, rfl⟩ := take_eq_ok hok
    have hle' : size ≤ (r.rest ++ more).length := by
      rw [List.length_append]
      omega
    rw [take_of_le hle', List.take_append_of_le_length hle, List.drop_append_of_le_length hle]
  | bind hread hnext ihread ihnext => rw [bind_of_ok _ (ihread rfl), ihnext hok]
  | fail hread ihread => contradiction

end Runs

def IsTruncated (size : Nat) (e : CellError) : Prop :=
  ∃ needed offset left, e = .malformed (.truncated needed offset left) ∧ offset + left = size ∧
    left < needed

/-- With its last bytes cut off, the reader either has not come to them yet or runs out of bytes. -/
theorem Runs.cut {cut tail : Bytes} (h : Runs read r stops outcome) (hok : outcome = .ok (a, r'))
    (hrest : r.rest = cut ++ tail) :
    (∃ left, r'.rest = left ++ tail ∧ r'.offset + left.length = r.offset + cut.length ∧
      read ⟨r.offset, cut⟩ = .ok (a, ⟨r'.offset, left⟩)) ∨
    ∃ e, read ⟨r.offset, cut⟩ = .error e ∧ IsTruncated (r.offset + cut.length) e := by
  induction h generalizing cut r' with
  | pure a r =>
    cases hok
    exact .inl ⟨cut, hrest, rfl, rfl⟩
  | throw e r => contradiction
  | take size r =>
    obtain ⟨-, rfl, rfl⟩ := take_eq_ok hok
    rcases Nat.lt_or_ge cut.length size with hlt | hle
    · exact .inr ⟨_, take_of_lt hlt, size, r.offset, cut.length, rfl, rfl, hlt⟩
    · refine .inl ⟨cut.drop size, ?_, ?_, ?_⟩
      · rw [hrest, List.drop_append_of_le_length hle]
      · show r.offset + size + (cut.drop size).length = r.offset + cut.length
        rw [List.length_drop]
        omega
      · rw [take_of_le hle, hrest, List.take_append_of_le_length hle]
  | bind hread hnext ihread ihnext =>
    -- What the first part has left of the cut bytes stands before the same tail.
    rcases ihread rfl hrest with ⟨left, hleft, hlength, hcut⟩ | ⟨e, hcut, he⟩
    · rw [bind_of_ok _ hcut, ← hlength]
      exact ihnext hok hleft
    · exact .inr ⟨e, bind_of_error _ hcut, he⟩
  | fail hread ihread => contradiction

/-- The reader can be followed from stop to stop through this input, and no way to follow it leaves
the input. -/
def StaysWithin (read : Read α) (input : Bytes) : Prop :=
  (∃ stops, Runs read ⟨0, input⟩ stops (read ⟨0, input⟩)) ∧
  ∀ stops outcome, Runs read ⟨0, input⟩ stops outcome →
    (∀ s ∈ stops, Within input s) ∧ ∀ a r, outcome = .ok (a, r) → Within input r

namespace Stepwise

variable {bytes : Bytes}

theorem run_cut (hread : Stepwise read) (h : run read bytes = .ok a) {cut : Bytes}
    (hcut : cut <+: bytes) (hne : cut ≠ bytes) :
    ∃ e, run read cut = .error e ∧ IsTruncated cut.length e := by
  obtain ⟨tail, rfl⟩ := hcut
  obtain ⟨offset, hok⟩ := read_of_run h
  obtain ⟨stops, hstops⟩ := hread ⟨0, cut ++ tail⟩
  rcases hstops.cut hok rfl with ⟨left, hleft, -, -⟩ | ⟨e, he, htruncated⟩
  · have htail : tail = [] := (List.append_eq_nil_iff.mp hleft.symm).2
    rw [htail, List.append_nil] at hne
    exact absurd rfl hne
  · rw [Nat.zero_add] at htruncated
    refine ⟨e, ?_, htruncated⟩
    unfold run
    rw [he, Except.error_bind]

theorem run_extend (hread : Stepwise read) (h : run read bytes = .ok a) {more : Bytes}
    (hmore : more ≠ []) :
    run read (bytes ++ more) = .error (.malformed (.trailingBytes more.length)) := by
  obtain ⟨offset, hok⟩ := read_of_run h
  obtain ⟨stops, hstops⟩ := hread ⟨0, bytes⟩
  have hextend := hstops.extend hok more
  unfold run
  rw [hextend, Except.ok_bind]
  exact if_neg (by simpa using hmore)

theorem staysWithin (hread : Stepwise read) (input : Bytes) : StaysWithin read input :=
  ⟨hread ⟨0, input⟩, fun _ _ h => h.within (.start input)⟩

end Stepwise

/-- Of bytes that are accepted, whoever wrote them, any shorter ones lack a piece and any longer ones
have bytes to spare, whoever is said to have written these. -/
def Delimits (decode : Origin → Bytes → Except CellError α) : Prop :=
  ∀ origin bytes a, decode origin bytes = .ok a → ∀ origin',
    (∀ cut, cut <+: bytes → cut ≠ bytes →
      ∃ e, decode origin' cut = .error e ∧ IsTruncated cut.length e) ∧
    ∀ more, more ≠ [] →
      decode origin' (bytes ++ more) = .error (.malformed (.trailingBytes more.length))

section origins

variable {read : Origin → Read α} {clear : α → α}
  (hremote : read .remote = clear <$> read .ownProcess)

include hremote

theorem exists_run_of_run {origin : Origin} {bytes : Bytes} (h : run (read origin) bytes = .ok a)
    (origin' : Origin) : ∃ a', run (read origin') bytes = .ok a' := by
  have hown : ∃ sent, run (read .ownProcess) bytes = .ok sent := by
    cases origin with
    | ownProcess => exact ⟨a, h⟩
    | remote =>
      rw [hremote, run_map] at h
      obtain ⟨sent, hsent, -⟩ := Except.map_eq_ok_iff.mp h
      exact ⟨sent, hsent⟩
  obtain ⟨sent, hsent⟩ := hown
  cases origin' with
  | ownProcess => exact ⟨sent, hsent⟩
  | remote =>
    rw [hremote, run_map, hsent]
    exact ⟨clear sent, rfl⟩

theorem delimits_of_stepwise (hread : ∀ origin, Stepwise (read origin)) :
    Delimits fun origin bytes => run (read origin) bytes := by
  intro origin bytes a h origin'
  obtain ⟨a', h'⟩ := exists_run_of_run hremote h origin'
  exact ⟨fun cut hcut hne => (hread origin').run_cut h' hcut hne,
    fun more hmore => (hread origin').run_extend h' hmore⟩

end origins
end Reader

/-- The wire forms of cells and of counters mark their own end, and however far a reader gets through
whatever input, it takes its bytes at positions within it. -/
theorem decode_delimits :
    Reader.Delimits Cell.decode ∧ Reader.Delimits Counter.decode ∧
      ∀ origin input, Reader.StaysWithin (Reader.cell origin) input ∧
        Reader.StaysWithin (Reader.counter origin) input :=
  ⟨Reader.delimits_of_stepwise Reader.cell_remote .cell,
    Reader.delimits_of_stepwise Reader.counter_remote .counter,
    fun origin input => ⟨(Reader.Stepwise.cell origin).staysWithin input,
      (Reader.Stepwise.counter origin).staysWithin input⟩⟩

namespace Delimiting

def foremost : Shard := ⟨.pending (Bytes.toVector 16 [1]), 1, 5⟩

def last : Shard := ⟨.stable (Bytes.toVector 16 [2]), 1, 7⟩

def sent : Counter := ⟨⟨[120]⟩, .ofSorted #[foremost, last], 5, Counter.neverDeleted⟩

def shorter : Context := .ofSorted #[foremost]

def body : Bytes :=
  [0, 1, 120, 0, 0, 0, 68] ++ shorter.encode ++ last.encode ++ Bytes.ofInt64 5 ++
    Bytes.ofInt64 Counter.neverDeleted

end Delimiting

open Delimiting in
theorem decode_delimits_of_shorter_context :
    Cell.decode .ownProcess (counterMask :: body) = .ok (.counter sent) ∧
      Counter.decode .ownProcess body = .ok sent ∧
      Context.decode ((body.take 43).drop 7) = .ok shorter ∧
      (∃ e, Cell.decode .remote (counterMask :: body.take 43) = .error e ∧
        Reader.IsTruncated 44 e) ∧
      (∃ e, Counter.decode .remote (body.take 43) = .error e ∧ Reader.IsTruncated 43 e) ∧
      Cell.decode .remote (counterMask :: body ++ [0]) =
        .error (.malformed (.trailingBytes 1)) := by
  have hcanonical : sent.context.Canonical := by decide +kernel
  have hbody : sent.encode = .ok body := by decide +kernel
  have hcell : (Cell.counter sent).encode = .ok (counterMask :: body) := by
    rw [Cell.encode, hbody]
    rfl
  have hdecode := Cell.decode_of_encode (Cell.canonical_counter_iff.mpr hcanonical) hcell .ownProcess
  have hdecode' := Counter.decode_of_encode hcanonical hbody
  have hshorter : (body.take 43).drop 7 = shorter.encode := by decide +kernel
  have hlength : (body.take 43).length = 43 := by decide +kernel
  have hne : body.take 43 ≠ body := by decide +kernel
  obtain ⟨hcut, hlonger⟩ := decode_delimits.1 _ _ _ hdecode .remote
  obtain ⟨hcut', -⟩ := decode_delimits.2.1 _ _ _ hdecode' .remote
  have hcut := hcut (counterMask :: body.take 43)
    (List.cons_prefix_cons.mpr ⟨rfl, List.take_prefix 43 body⟩) fun h => hne (List.cons.inj h).2
  have hcut' := hcut' (body.take 43) (List.take_prefix 43 body) hne
  rw [List.length_cons, hlength] at hcut
  rw [hlength] at hcut'
  refine ⟨hdecode, hdecode', ?_, hcut, hcut', hlonger [0] (List.cons_ne_nil _ _)⟩
  rw [hshorter]
  exact Context.decode_encode (Context.canonical_ofSorted_singleton foremost)

end ShardCounter
