import BlockTree.Bytes
import BlockTree.Fault
import BlockTree.Text

namespace BlockTree.Hex

def digit? (u : Nat) : Option Nat :=
  if 48 ≤ u ∧ u ≤ 57 then some (u - 48)
  else if 65 ≤ u ∧ u ≤ 70 then some (u - 55)
  else if 97 ≤ u ∧ u ≤ 102 then some (u - 87)
  else none

def byteChars (x : UInt8) : List Char :=
  [Nat.digitChar (x.toNat / 16), Nat.digitChar (x.toNat % 16)]

def chars (b : Bytes) : List Char :=
  b.flatMap byteChars

def plain (b : Bytes) : String :=
  String.ofList (chars b)

def encode (b : Bytes) : String :=
  String.ofList ('0' :: 'x' :: chars b)

def decodePairs (index : Nat) : List Nat → Except Fault Bytes
  | u :: v :: rest =>
      match digit? u, digit? v with
      | some h, some l => do
          let bytes ← decodePairs (index + 2) rest
          return UInt8.ofNat (16 * h + l) :: bytes
      | _, _ => .error (.nonHexPair (Text.ofUnits [u, v]) index)
  | _ => .ok []

def decodeUnits (us : List Nat) : Except Fault Bytes :=
  if us.length % 2 = 1 then .error (.unpaddedHex us.length) else decodePairs 0 us

def decode (s : String) : Except Fault Bytes :=
  decodeUnits ((Text.units s).drop 2)

def toNat (s : String) : Nat :=
  (s.toList.drop 2).foldl (fun n c => n * 16 + (digit? c.toNat).getD 0) 0

def isLowerDigit (c : Char) : Bool :=
  ('0' ≤ c && c ≤ '9') || ('a' ≤ c && c ≤ 'f')

def isDigest (s : String) : Bool :=
  match s.toList with
  | '0' :: 'x' :: cs => cs.length == 64 && cs.all isLowerDigit
  | _ => false

theorem length_chars (b : Bytes) : (chars b).length = 2 * b.length := by
  induction b with
  | nil => rfl
  | cons x b ih =>
      simp only [chars, List.flatMap_cons, List.length_append, List.length_cons] at ih ⊢
      simp only [byteChars, List.length_cons, List.length_nil]
      omega

theorem isLowerDigit_digitChar : ∀ n < 16, isLowerDigit (Nat.digitChar n) = true := by
  decide

theorem isDigest_encode {b : Bytes} (h : b.length = 32) : isDigest (encode b) = true := by
  have hall : (chars b).all isLowerDigit = true := by
    rw [List.all_eq_true]
    intro c hc
    simp only [chars, List.mem_flatMap, byteChars, List.mem_cons, List.not_mem_nil, or_false] at hc
    obtain ⟨x, _, rfl | rfl⟩ := hc
    · exact isLowerDigit_digitChar _ (by have := x.toNat_lt; omega)
    · exact isLowerDigit_digitChar _ (by omega)
  simp [isDigest, encode, length_chars, h, hall]

end BlockTree.Hex
