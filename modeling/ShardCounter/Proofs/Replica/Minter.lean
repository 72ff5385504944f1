import ShardCounter.Proofs.Bytes
import ShardCounter.Replica.Minter
/-! Minted ids tell apart the nodes, and on one node the mints, until its sequence has gone round. -/
namespace ShardCounter.Minter

theorem length_idBytes (nodeId sequence : UInt64) : (idBytes nodeId sequence).length = 16 := by
  rw [idBytes, List.length_append, Bytes.length_ofUInt64, Bytes.length_ofUInt64]

theorem ofUInt64_injective {a b : UInt64} (h : Bytes.ofUInt64 a = Bytes.ofUInt64 b) : a = b := by
  rw [← Bytes.toUInt64_ofUInt64 a, h, Bytes.toUInt64_ofUInt64]

theorem idBytes_injective {nodeId nodeId' sequence sequence' : UInt64}
    (h : Bytes.toVector 16 (idBytes nodeId sequence) =
      Bytes.toVector 16 (idBytes nodeId' sequence')) :
    nodeId = nodeId' ∧ sequence = sequence' := by
  have hlist := congrArg Vector.toList h
  rw [Bytes.toList_toVector (length_idBytes _ _), Bytes.toList_toVector (length_idBytes _ _)]
    at hlist
  have hlength : (Bytes.ofUInt64 nodeId).length = (Bytes.ofUInt64 nodeId').length := by
    rw [Bytes.length_ofUInt64, Bytes.length_ofUInt64]
  obtain ⟨hnode, hsequence⟩ := List.append_inj hlist hlength
  exact ⟨ofUInt64_injective hnode, ofUInt64_injective hsequence⟩

def sequenceAfter (m : Minter) (mints : Nat) : UInt64 := m.sequence + UInt64.ofNat mints

def after (m : Minter) (mints : Nat) : Minter := ⟨m.nodeId, m.sequenceAfter mints⟩

def mintedBytes (m : Minter) (mints : Nat) : Vector UInt8 16 :=
  Bytes.toVector 16 (idBytes m.nodeId (m.sequenceAfter mints))

@[simp] theorem after_zero (m : Minter) : m.after 0 = m := by
  simp [after, sequenceAfter]

theorem mint_after (m : Minter) (mints : Nat) :
    (m.after mints).mint = (.pending (m.mintedBytes mints), m.after (mints + 1)) := by
  simp only [mint, after, mintedBytes, sequenceAfter, UInt64.ofNat_add, UInt64.add_assoc]
  rfl

theorem mintMany_succ (m : Minter) (count : Nat) :
    m.mintMany (count + 1) =
      ((m.mintMany count).1 ++ [(m.mintMany count).2.mint.1], (m.mintMany count).2.mint.2) := by
  induction count generalizing m with
  | zero => rfl
  | succ count ih =>
    show (m.mint.1 :: (m.mint.2.mintMany (count + 1)).1, (m.mint.2.mintMany (count + 1)).2) = _
    rw [ih]
    rfl

theorem mintedBytes_injective {m m' : Minter} {mints mints' : Nat}
    (h : m.mintedBytes mints = m'.mintedBytes mints') :
    m.nodeId = m'.nodeId ∧ m.sequenceAfter mints = m'.sequenceAfter mints' :=
  idBytes_injective h

theorem sequenceAfter_injective {m : Minter} {mints mints' : Nat} (hlt : mints < 2 ^ 64)
    (hlt' : mints' < 2 ^ 64) (h : m.sequenceAfter mints = m.sequenceAfter mints') :
    mints = mints' := by
  have hword : UInt64.ofNat mints = UInt64.ofNat mints' :=
    (UInt64.add_right_inj m.sequence).mp h
  rw [← UInt64.toNat_ofNat_of_lt' hlt, hword, UInt64.toNat_ofNat_of_lt' hlt']

end ShardCounter.Minter
