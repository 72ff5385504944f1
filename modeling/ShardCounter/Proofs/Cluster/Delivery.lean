import ShardCounter.Proofs.Clearing
import ShardCounter.Proofs.Cluster.Exchange
import ShardCounter.Proofs.LeastUpperBound
import ShardCounter.Proofs.Mismatch
/-! One push from node to node, on nodes that are changed in place. A push looks and checks first and
writes last, so one that fails has changed nothing; one that does not fail leaves the target with all
that the sender has, and the next one finds nothing to do. -/
namespace ShardCounter

/-- Runs on nodes that are changed in place: what it has written stays, whatever fails later on. -/
abbrev InPlace := ExceptT CellError (StateM Cluster)

namespace InPlace

variable {α β : Type} {x : InPlace α} {cluster : Cluster} {result : Except CellError (α × Cluster)}

def on (x : InPlace α) (cluster : Cluster) : Except CellError α × Cluster := x.run.run cluster

theorem on_bind (x : InPlace α) (next : α → InPlace β) (cluster : Cluster) :
    (x >>= next).on cluster = match x.on cluster with
      | (.ok a, after) => (next a).on after
      | (.error e, after) => (.error e, after) := by
  change (match x.on cluster with
    | (outcome, after) => (ExceptT.bindCont next outcome).run after : Except CellError β × Cluster) = _
  rcases x.on cluster with ⟨e | a, after⟩ <;> rfl

/-- Comes to what is computed here aside, or fails and leaves the nodes as they are. Of two runs in a
row this does not follow from what it says of each: the second may fail when the first has written. -/
def Commits (cluster : Cluster) (x : InPlace α) (result : Except CellError (α × Cluster)) : Prop :=
  x.on cluster = match result with
    | .ok (a, after) => (.ok a, after)
    | .error e => (.error e, cluster)

namespace Commits

theorem done (a : α) : Commits cluster (pure a) (.ok (a, cluster)) := rfl

theorem look {next : Cluster → InPlace α} (h : Commits cluster (next cluster) result) :
    Commits cluster (get >>= next) result := h

theorem write (change : Cluster → Cluster) :
    Commits cluster (modify change) (.ok ((), change cluster)) := rfl

/-- A check leaves the nodes alone, so what comes after it still starts from them. -/
theorem check {checked : Except CellError β} {next : β → InPlace α}
    {result : β → Except CellError (α × Cluster)}
    (h : ∀ b, checked = .ok b → Commits cluster (next b) (result b)) :
    Commits cluster (liftM checked >>= next) (checked >>= result) := by
  cases checked with
  | ok b => exact h b rfl
  | error e => rfl

theorem answer (b : β) (h : Commits cluster x result) :
    Commits cluster (x >>= fun _ => pure b) ((fun r => (b, r.2)) <$> result) := by
  unfold Commits at h ⊢
  rw [on_bind, h]
  rcases result with e | ⟨a, after⟩ <;> rfl

theorem result_eq (h : Commits cluster x result) {outcome : Except CellError α} {after : Cluster}
    (hrun : x.on cluster = (outcome, after)) : result = (·, after) <$> outcome := by
  unfold Commits at h
  rw [hrun] at h
  rcases result with e | ⟨a, after'⟩ <;> cases h <;> rfl

end Commits
end InPlace

theorem Cell.diff?_of_name_ne {current outgoing : Cell} (h : current.name ≠ outgoing.name) :
    current.diff? outgoing = .error (.nameMismatch current.name outgoing.name) := by
  unfold diff? checkNames
  rw [if_pos h, Except.error_bind]

namespace Exchange

variable {outgoing cell : Cell} {receiver : Slot}

/-- The sender's cell as it was, with its marks, is dominated by what came of its cleared copy. -/
theorem dominates_of_transfer (hout : outgoing.Canonical)
    (hreceiver : ∀ current, receiver = some current → current.Canonical)
    (h : transfer .remote outgoing receiver = .ok cell) : Cell.Dominates cell outgoing := by
  have habsorb := absorb_of_transfer hout h
  have hclear : outgoing.Alike outgoing.clearPending := (Cell.Alike.refl hout).clearPending
  cases receiver with
  | none =>
    cases habsorb
    exact hclear.symm.dominates
  | some current =>
    have hcurrent := hreceiver current rfl
    have hleast := Cell.isLeastUpperBound_reconcile hcurrent hclear.symm.canonical habsorb
    have hcell := Cell.canonical_reconcile hcurrent hclear.symm.canonical habsorb
    exact (Cell.dominates_iff.mp hleast.dominates_right).congr (.refl hcell) hclear.symm

inductive Hindrance (outgoing : Cell) (receiver : Slot) : CellError → Prop where
  | names (current : Cell) (hreceiver : receiver = some current)
    (hname : current.name ≠ outgoing.name) :
    Hindrance outgoing receiver (.nameMismatch current.name outgoing.name)
  | longName (h : maxNameSize < outgoing.name.size) :
    Hindrance outgoing receiver (.malformed (.nameTooLong outgoing.name.size))
  | largeContext (c : Counter) (hout : outgoing = .counter c)
    (h : maxContextSize < c.context.encodedSize) :
    Hindrance outgoing receiver (.malformed .contextTooLarge)
  | conflict (l r : Counter) (hreceiver : receiver = some (.counter l)) (hout : outgoing = .counter r)
    (s t : Shard) (hs : s ∈ l.context.shards) (ht : t ∈ r.context.shards)
    (hconflict : s.Conflicts t) :
    Hindrance outgoing receiver
      (.context (.clockCountMismatch s.id.toStable s.clock s.count t.count))
  | positions (l r : Counter) (hreceiver : receiver = some (.counter l))
    (hout : outgoing = .counter r) {reason : Malformation} (hlimit : reason.OverLimit) :
    Hindrance outgoing receiver (.context (.malformed reason))

variable {e : CellError}

theorem hindrance_of_encode (h : outgoing.encode = .error e) : Hindrance outgoing receiver e := by
  rcases Nat.lt_or_ge maxNameSize outgoing.name.size with hlong | hname
  · have hname := CellName.encode_of_lt hlong
    cases outgoing with
    | counter c =>
      rw [Cell.encode, Counter.encode, show c.name.encode = _ from hname] at h
      cases h
      exact .longName hlong
    | tombstone t =>
      rw [Cell.encode, show t.name.encode = _ from hname] at h
      cases h
      exact .longName hlong
  · have hencode := CellName.encode_of_le hname
    cases outgoing with
    | counter c =>
      have hlarge : maxContextSize < c.context.encodedSize := by
        by_contra hle
        rw [Cell.encode, Counter.encode_of_le hname (not_lt.mp hle)] at h
        contradiction
      rw [Cell.encode, Counter.encode, show c.name.encode = _ from hencode] at h
      simp only [Except.ok_bind, hlarge, ↓reduceIte] at h
      cases h
      exact .largeContext c rfl hlarge
    | tombstone t =>
      rw [Cell.encode, show t.name.encode = _ from hencode] at h
      contradiction

theorem hindrance_of_merge {l r : Counter} {e : ContextError} (hl : l.context.Canonical)
    (hr : r.context.Canonical) (h : l.context.merge r.context.clearPending = .error e) :
    Hindrance (.counter r) (some (.counter l)) (.context e) := by
  rcases Context.merge_eq_error hl hr.clearPending h with
    ⟨s, hs, t, ht, hconflict, rfl⟩ | ⟨-, reason, -, -, hlimit, rfl⟩
  · rw [hr.shards_clearPending, Array.mem_map] at ht
    obtain ⟨t, ht, rfl⟩ := ht
    exact .conflict l r rfl rfl s t hs ht hconflict
  · exact .positions l r rfl rfl hlimit

theorem hindrance_of_reconcile {current : Cell} (hcurrent : current.Canonical)
    (hout : outgoing.Canonical) (h : current.reconcile outgoing.clearPending = .error e) :
    Hindrance outgoing (some current) e := by
  have hclear : outgoing.name = outgoing.clearPending.name :=
    (Cell.Alike.refl hout).clearPending.name_eq
  by_cases hname : current.name = outgoing.clearPending.name
  · cases current with
    | counter l =>
      cases outgoing with
      | counter r =>
        cases hmerge : l.context.merge r.context.clearPending with
        | ok m =>
          rw [Cell.clearPending, Cell.reconcile_counters_of_merge hname hmerge] at h
          contradiction
        | error e' =>
          have hl := Cell.canonical_counter_iff.mp hcurrent
          have hr := Cell.canonical_counter_iff.mp hout
          rw [Cell.clearPending, Cell.reconcile_counters hname,
            Counter.reconcile_of_merge_error (r := r.clearPending) hname hmerge] at h
          cases h
          exact hindrance_of_merge hl hr hmerge
      | tombstone t =>
        rw [Cell.clearPending, Cell.reconcile_counter_tombstone hname] at h
        contradiction
    | tombstone t =>
      cases outgoing with
      | counter r =>
        rw [Cell.clearPending, Cell.reconcile_tombstone_counter hname] at h
        contradiction
      | tombstone u =>
        rw [Cell.clearPending, Cell.reconcile_tombstones hname] at h
        contradiction
  · rw [Cell.reconcile_of_name_ne hname, ← hclear] at h
    cases h
    exact .names current rfl (hclear ▸ hname)

theorem hindrance_of_transfer (hout : outgoing.Canonical)
    (hreceiver : ∀ current, receiver = some current → current.Canonical)
    (h : transfer .remote outgoing receiver = .error e) : Hindrance outgoing receiver e := by
  cases hencode : outgoing.encode with
  | error e' =>
    rw [transfer, hencode] at h
    cases h
    exact hindrance_of_encode hencode
  | ok bytes =>
    obtain ⟨bytes', hbytes', hdecode⟩ :=
      Cell.decode_encode (Cell.encodable_of_encode hout hencode)
    rw [transfer, hbytes', Except.ok_bind, hdecode .remote, Except.ok_bind] at h
    cases receiver with
    | none => contradiction
    | some current => exact hindrance_of_reconcile (hreceiver current rfl) hout h

end Exchange

namespace Cluster

/-- The slot is written when there is nothing left that can fail. -/
def absorbAt (target : Nat) (incoming : Cell) : InPlace Unit := do
  let absorbed ← (slot (← get) target).absorb incoming
  modify (setSlot · target absorbed)

def ship (target : Nat) (outgoing : Cell) : InPlace Bool := do
  let bytes ← outgoing.encode
  let incoming ← Cell.decode .remote bytes
  absorbAt target incoming
  return true

def push (source target : Nat) : InPlace Bool := do
  if source = target then return false
  match slot (← get) source with
  | none => return false
  | some outgoing =>
    match slot (← get) target with
    | none => ship target outgoing
    | some current =>
      match ← current.diff? outgoing with
      | none => return false
      | some _ => ship target outgoing

section push

open InPlace

variable {cluster after : Cluster} {source target : Nat} {outgoing current cell : Cell}

theorem absorbAt_commits (target : Nat) (incoming : Cell) :
    Commits cluster (absorbAt target incoming)
      ((slot cluster target).absorb incoming >>= fun absorbed =>
        .ok ((), cluster.setSlot target absorbed)) :=
  .look (.check fun _ _ => .write _)

def receive (cluster : Cluster) (target : Nat) (outgoing : Cell) : Except CellError (Bool × Cluster) :=
  (fun cell => (true, cluster.setSlot target cell)) <$>
    Exchange.transfer .remote outgoing (slot cluster target)

theorem ship_commits (target : Nat) (outgoing : Cell) :
    Commits cluster (ship target outgoing) (receive cluster target outgoing) := by
  have hship : Commits cluster (ship target outgoing) (outgoing.encode >>= fun bytes =>
      Cell.decode .remote bytes >>= fun incoming => (fun r => (true, r.2)) <$>
        ((slot cluster target).absorb incoming >>= fun absorbed =>
          .ok ((), cluster.setSlot target absorbed))) :=
    .check fun bytes _ => .check fun incoming _ => (absorbAt_commits target incoming).answer true
  convert hship using 1
  simp only [receive, Exchange.transfer, map_eq_pure_bind, bind_assoc]
  rfl

section sync

variable (hne : source ≠ target)

include hne

theorem sync_from_empty (hsource : slot cluster source = none) :
    sync cluster source target false = .ok (false, cluster) := by
  unfold sync
  rw [if_neg hne, hsource]
  rfl

theorem sync_to_empty (hsource : slot cluster source = some outgoing)
    (htarget : slot cluster target = none) :
    sync cluster source target false = receive cluster target outgoing := by
  have hrun : Exchange.run .remote false (some outgoing) none =
      Exchange.sent <$> Exchange.transfer .remote outgoing none := rfl
  unfold sync receive
  rw [if_neg hne, hsource, htarget, hrun]
  cases Exchange.transfer .remote outgoing none <;> rfl

theorem sync_to_some (hsource : slot cluster source = some outgoing)
    (htarget : slot cluster target = some current) :
    sync cluster source target false = current.diff? outgoing >>= fun
      | none => .ok (false, cluster)
      | some _ => receive cluster target outgoing := by
  have hrun : Exchange.run .remote false (some outgoing) (some current) =
      current.diff? outgoing >>= fun lacked =>
        if lacked.isSome then
          Exchange.sent <$> Exchange.transfer .remote outgoing (some current)
        else .ok .skipped := by
    unfold Exchange.run
    cases hdiff : current.diff? outgoing <;> simp only [hdiff] <;> rfl
  unfold sync receive
  rw [if_neg hne, hsource, htarget, hrun]
  rcases current.diff? outgoing with e | _ | lacked
  · rfl
  · rfl
  · cases Exchange.transfer .remote outgoing (some current) <;> rfl

end sync

/-- In place a push does what a sync computes. -/
theorem push_commits (cluster : Cluster) (source target : Nat) :
    Commits cluster (push source target) (sync cluster source target false) := by
  unfold push
  rcases eq_or_ne source target with rfl | hne
  · rw [if_pos rfl, sync_self]
    exact .done false
  rw [if_neg hne]
  apply Commits.look
  cases hsource : slot cluster source with
  | none =>
    rw [sync_from_empty hne hsource]
    exact .done false
  | some outgoing =>
    apply Commits.look
    cases htarget : slot cluster target with
    | none =>
      rw [sync_to_empty hne hsource htarget]
      exact ship_commits target outgoing
    | some current =>
      rw [sync_to_some hne hsource htarget]
      apply Commits.check
      rintro (_ | lacked) -
      · exact .done false
      · exact ship_commits target outgoing

theorem sync_cases (hne : source ≠ target) :
    (sync cluster source target false = .ok (false, cluster) ∧
      ∀ outgoing, slot cluster source = some outgoing →
        ∃ current, slot cluster target = some current ∧ Cell.Dominates current outgoing) ∨
    ∃ outgoing, slot cluster source = some outgoing ∧
      ((∃ current, slot cluster target = some current ∧ current.name ≠ outgoing.name ∧
          sync cluster source target false =
            .error (.nameMismatch current.name outgoing.name)) ∨
        sync cluster source target false = receive cluster target outgoing) := by
  cases hsource : slot cluster source with
  | none => exact .inl ⟨sync_from_empty hne hsource, nofun⟩
  | some outgoing =>
    cases htarget : slot cluster target with
    | none => exact .inr ⟨outgoing, rfl, .inr (sync_to_empty hne hsource htarget)⟩
    | some current =>
      rw [sync_to_some hne hsource htarget]
      by_cases hname : current.name = outgoing.name
      · rcases Cell.diff?_cases hname with hdiff | hdiff
        · refine .inl ⟨by rw [hdiff, Except.ok_bind], ?_⟩
          rintro _ ⟨⟩
          exact ⟨current, rfl, Cell.diff?_eq_none_iff.mp hdiff⟩
        · exact .inr ⟨outgoing, rfl, .inr (by rw [hdiff, Except.ok_bind])⟩
      · have hdiff := Cell.diff?_of_name_ne hname
        exact .inr ⟨outgoing, rfl, .inl ⟨current, rfl, hname, by rw [hdiff, Except.error_bind]⟩⟩

/-- The target has all that was sent to it, nothing else has changed, and nothing is left to send. -/
structure Delivered (source target : Nat) (outgoing : Cell) (before after : Cluster) : Prop where
  dominates : ∃ received, slot after target = some received ∧
    Reconcile.dominates received outgoing = .ok true
  others : ∀ i, i ≠ target → after[i]? = before[i]?
  settled : (push source target).on after = (.ok false, after)

theorem slot_setSlot_self (cell : Cell) (h : target < cluster.size) :
    slot (cluster.setSlot target cell) target = some cell := by
  have hnode : cluster[target]? = some cluster[target] := Array.getElem?_eq_getElem h
  exact slot_eq (getElem?_modify_self _ hnode)

theorem delivered_of_dominates {before : Cluster} {received : Cell} (hne : source ≠ target)
    (hothers : ∀ i, i ≠ target → after[i]? = before[i]?)
    (hsource : slot before source = some outgoing) (htarget : slot after target = some received)
    (hdominates : Cell.Dominates received outgoing) : Delivered source target outgoing before after := by
  have hsource' : slot after source = some outgoing := by
    rw [← hsource, slot, slot, hothers source hne]
  have hsync : sync after source target false = .ok (false, after) := by
    rw [sync_to_some hne hsource' htarget, Cell.diff?_eq_none_iff.mpr hdominates, Except.ok_bind]
  refine ⟨⟨received, htarget, Cell.dominates_iff.mpr hdominates⟩, hothers, ?_⟩
  have hcommits := push_commits after source target
  rwa [hsync] at hcommits

/-- A push delivers all that the source has or changes nothing. Where it sends nothing, or fails at any
point, the nodes are as they were; it fails for a hindrance and for nothing else. -/
theorem push_delivers {outcome : Except CellError Bool}
    (hslots : ∀ i k, slot cluster i = some (.counter k) → k.context.Canonical)
    (hne : source ≠ target) (htarget : target < cluster.size)
    (hpush : (push source target).on cluster = (outcome, after)) :
    sync cluster source target false = (·, after) <$> outcome ∧
    (∀ moved outgoing, outcome = .ok moved → slot cluster source = some outgoing →
      Delivered source target outgoing cluster after) ∧
    (outcome = .ok false → after = cluster) ∧
    ∀ e, outcome = .error e → after = cluster ∧ ∃ outgoing, slot cluster source = some outgoing ∧
      Exchange.Hindrance outgoing (slot cluster target) e := by
  have hcanonical {i : Nat} {cell : Cell} (hcell : slot cluster i = some cell) : cell.Canonical :=
    fun k hk => hslots i k (hk ▸ hcell)
  refine ⟨(push_commits cluster source target).result_eq hpush, ?_⟩
  have hcommits := hpush.symm.trans (push_commits cluster source target)
  rcases sync_cases hne with ⟨hsync, hdominates⟩ |
    ⟨outgoing, hsource, ⟨current, hcurrent, hname, hsync⟩ | hsync⟩
  · rw [hsync] at hcommits
    cases hcommits
    refine ⟨?_, fun _ => rfl, nofun⟩
    rintro _ outgoing - hsource
    obtain ⟨current, hcurrent, hdominates⟩ := hdominates outgoing hsource
    exact delivered_of_dominates hne (fun _ _ => rfl) hsource hcurrent hdominates
  · rw [hsync] at hcommits
    cases hcommits
    refine ⟨nofun, nofun, ?_⟩
    rintro _ ⟨⟩
    exact ⟨rfl, outgoing, hsource, .names current hcurrent hname⟩
  · rw [hsync, receive] at hcommits
    cases htransfer : Exchange.transfer .remote outgoing (slot cluster target) with
    | error e =>
      rw [htransfer] at hcommits
      cases hcommits
      have hhindrance := Exchange.hindrance_of_transfer (hcanonical hsource) (fun _ => hcanonical)
        htransfer
      refine ⟨nofun, nofun, ?_⟩
      rintro _ ⟨⟩
      exact ⟨rfl, outgoing, hsource, hhindrance⟩
    | ok cell =>
      rw [htransfer] at hcommits
      cases hcommits
      have hdominates := Exchange.dominates_of_transfer (hcanonical hsource) (fun _ => hcanonical)
        htransfer
      refine ⟨?_, nofun, nofun⟩
      rintro _ outgoing' - hsource'
      cases hsource.symm.trans hsource'
      exact delivered_of_dominates hne (fun i => getElem?_modify_of_ne cluster _) hsource
        (slot_setSlot_self cell htarget) hdominates

end push

namespace Delivery

def key : CellName := ⟨[120]⟩

def counter (isPending : Bool) (count writtenAt lastDelete : Int64) : Cell :=
  .counter ⟨key, .ofSorted #[⟨⟨Bytes.toVector 16 [1], isPending⟩, 1, count⟩], writtenAt, lastDelete⟩

def before : Cluster :=
  #[⟨⟨1, 7⟩, some (counter true 5 25 20)⟩, ⟨⟨2, 7⟩, some (.tombstone ⟨key, 4, 22⟩)⟩,
    ⟨⟨3, 7⟩, some (counter false 6 20 20)⟩]

def delivered : Cluster :=
  #[⟨⟨1, 7⟩, some (counter true 5 25 20)⟩, ⟨⟨2, 7⟩, some (counter false 5 25 22)⟩,
    ⟨⟨3, 7⟩, some (counter false 6 20 20)⟩]

def conflict : CellError :=
  .context (.clockCountMismatch (.stable (Bytes.toVector 16 [1])) 1 6 5)

theorem canonical_before (i : Nat) (k : Counter) (hk : slot before i = some (.counter k)) :
    k.context.Canonical := by
  match i with
  | 0 =>
    cases hk
    exact Context.canonical_ofSorted_singleton _
  | 1 => nomatch hk
  | 2 =>
    cases hk
    exact Context.canonical_ofSorted_singleton _
  | i + 3 => nomatch hk

end Delivery

open Delivery in
theorem push_delivers_of_delete :
    (push 0 1).on before = (.ok true, delivered) ∧
    Delivered 0 1 (counter true 5 25 20) before delivered ∧
    (push 0 2).on before = (.error conflict, before) ∧
    Exchange.Hindrance (counter true 5 25 20) (slot before 2) conflict := by
  have hsent : (push 0 1).on before = (.ok true, delivered) := by decide +kernel
  have hrefused : (push 0 2).on before = (.error conflict, before) := by decide +kernel
  obtain ⟨-, hdelivered, -⟩ := push_delivers canonical_before (by decide) (by decide) hsent
  obtain ⟨-, -, -, hfailed⟩ := push_delivers canonical_before (by decide) (by decide) hrefused
  obtain ⟨-, outgoing, hsource, hhindrance⟩ := hfailed conflict rfl
  cases hsource
  exact ⟨hsent, hdelivered true _ rfl rfl, hrefused, hhindrance⟩

end Cluster
end ShardCounter
