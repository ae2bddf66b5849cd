import BlockTree.Lex

namespace BlockTree

abbrev Bytes := List UInt8

namespace Bytes

def toNat (b : Bytes) : Nat :=
  b.foldl (fun n x => n * 256 + x.toNat) 0

def le (a b : Bytes) : Bool :=
  Lex.le (a.map UInt8.toNat) (b.map UInt8.toNat)

def ofNat (n : Nat) : Bytes :=
  if n = 0 then [] else ofNat (n / 256) ++ [UInt8.ofNat (n % 256)]

@[simp] theorem ofNat_zero : ofNat 0 = [] := by
  rw [ofNat]; rfl

theorem ofNat_pos {n : Nat} (h : n ≠ 0) :
    ofNat n = ofNat (n / 256) ++ [UInt8.ofNat (n % 256)] := by
  rw [ofNat]; simp [h]

theorem toNat_append_singleton (b : Bytes) (x : UInt8) :
    toNat (b ++ [x]) = toNat b * 256 + x.toNat := by
  simp [toNat]

theorem toNat_ofNat (n : Nat) : toNat (ofNat n) = n := by
  induction n using Nat.strongRecOn with
  | ind n ih =>
      by_cases h : n = 0
      · subst h; simp [toNat]
      · rw [ofNat_pos h, toNat_append_singleton, ih (n / 256) (by omega)]
        simp only [UInt8.toNat_ofNat']
        omega

theorem ofNat_injective {m n : Nat} (h : ofNat m = ofNat n) : m = n := by
  rw [← toNat_ofNat m, h, toNat_ofNat]

end Bytes

end BlockTree
