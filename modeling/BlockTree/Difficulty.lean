import BlockTree.Header

namespace BlockTree

structure Difficulty where
  bits : Nat
  le_max : bits ≤ 255
  deriving DecidableEq, Repr

namespace Difficulty

def zero : Difficulty :=
  ⟨0, Nat.zero_le 255⟩

def ofNumber? (x : Number) : Option Difficulty :=
  match x.toInt? with
  | some n => if h : 0 ≤ n ∧ n ≤ 255 then some ⟨n.toNat, Int.toNat_le.2 h.2⟩ else none
  | none => none

def ofNumber (x : Number) : Except Fault Difficulty :=
  match ofNumber? x with
  | some d => .ok d
  | none => .error (.difficultyRange x)

def threshold (d : Difficulty) : Nat :=
  Nat.pow 2 (256 - d.bits) - 1

def work (d : Difficulty) : Nat :=
  Nat.pow 2 d.bits

theorem threshold_add_one_mul_work (d : Difficulty) : (d.threshold + 1) * d.work = Nat.pow 2 256 := by
  have hpos : 0 < Nat.pow 2 (256 - d.bits) := Nat.pow_pos (by decide)
  unfold threshold work
  rw [Nat.sub_add_cancel hpos]
  calc Nat.pow 2 (256 - d.bits) * Nat.pow 2 d.bits
      = Nat.pow 2 (256 - d.bits + d.bits) := (Nat.pow_add 2 _ _).symm
    _ = Nat.pow 2 256 := by rw [Nat.sub_add_cancel (Nat.le_trans d.le_max (by decide))]

def admits (d : Difficulty) (id : String) : Bool :=
  decide (Hex.toNat id ≤ d.threshold)

end Difficulty

structure DigestFailure where
  hash : String
  threshold : Nat
  deriving DecidableEq, Repr

namespace Header

def checkDigest (h : Header) (d : Difficulty) : Except Fault (Except DigestFailure Unit) := do
  let id ← h.id
  return if d.admits id then .ok () else .error ⟨id, d.threshold⟩

def carries (h : Header) (d : Difficulty) : Except Fault Bool := do
  let verdict ← h.checkDigest d
  return verdict.isOk

end Header

end BlockTree
