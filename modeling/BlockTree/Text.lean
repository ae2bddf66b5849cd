import BlockTree.Lex
import BlockTree.Sorting

namespace BlockTree.Text

def charUnits (c : Char) : List Nat :=
  if c.toNat < 0x10000 then [c.toNat]
  else [0xD800 + (c.toNat - 0x10000) / 0x400, 0xDC00 + (c.toNat - 0x10000) % 0x400]

def units (s : String) : List Nat :=
  s.toList.flatMap charUnits

def charsOfUnits : List Nat → List Char
  | [] => []
  | [u] => [if 0xD800 ≤ u ∧ u < 0xE000 then '\uFFFD' else Char.ofNat u]
  | u :: v :: rest =>
      if 0xD800 ≤ u ∧ u < 0xDC00 ∧ 0xDC00 ≤ v ∧ v < 0xE000 then
        Char.ofNat (0x10000 + (u - 0xD800) * 0x400 + (v - 0xDC00)) :: charsOfUnits rest
      else if 0xD800 ≤ u ∧ u < 0xE000 then '\uFFFD' :: charsOfUnits (v :: rest)
      else Char.ofNat u :: charsOfUnits (v :: rest)

def ofUnits (us : List Nat) : String :=
  String.ofList (charsOfUnits us)

def le (a b : String) : Bool :=
  Lex.le (units a) (units b)

def lt (a b : String) : Bool :=
  Lex.lt (units a) (units b)

theorem le_total (a b : String) : le a b = true ∨ le b a = true :=
  Lex.le_total ..

theorem le_trans (a b c : String) (hab : le a b = true) (hbc : le b c = true) :
    le a c = true :=
  Lex.le_trans _ _ _ hab hbc

theorem charsOfUnits_append_charUnits (c : Char) (us : List Nat) :
    charsOfUnits (charUnits c ++ us) = c :: charsOfUnits us := by
  have hvalid : c.toNat < 0x110000 ∧ ¬(0xD800 ≤ c.toNat ∧ c.toNat < 0xE000) := by
    simp only [Char.toNat]
    rcases c.valid with h | h <;> constructor <;> omega
  obtain ⟨hmax, hnot⟩ := hvalid
  unfold charUnits
  split
  · rename_i hsmall
    cases us with
    | nil => simp [charsOfUnits, hnot]
    | cons u us =>
        have hpair : ¬(0xD800 ≤ c.toNat ∧ c.toNat < 0xDC00 ∧ 0xDC00 ≤ u ∧ u < 0xE000) := by
          omega
        simp only [List.cons_append, List.nil_append, charsOfUnits, hpair, hnot, if_false,
          Char.ofNat_toNat]
  · rename_i hlarge
    have hpair : 0xD800 ≤ 0xD800 + (c.toNat - 0x10000) / 0x400 ∧
        0xD800 + (c.toNat - 0x10000) / 0x400 < 0xDC00 ∧
        0xDC00 ≤ 0xDC00 + (c.toNat - 0x10000) % 0x400 ∧
        0xDC00 + (c.toNat - 0x10000) % 0x400 < 0xE000 := by omega
    have hback : 0x10000 + (0xD800 + (c.toNat - 0x10000) / 0x400 - 0xD800) * 0x400 +
        (0xDC00 + (c.toNat - 0x10000) % 0x400 - 0xDC00) = c.toNat := by omega
    simp only [List.cons_append, List.nil_append, charsOfUnits, hpair, and_self, if_true, hback,
      Char.ofNat_toNat]

theorem charsOfUnits_units (s : String) : charsOfUnits (units s) = s.toList := by
  unfold units
  induction s.toList with
  | nil => rfl
  | cons c cs ih => rw [List.flatMap_cons, charsOfUnits_append_charUnits, ih]

theorem units_injective {s t : String} (h : units s = units t) : s = t := by
  apply String.toList_inj.1
  rw [← charsOfUnits_units s, h, charsOfUnits_units]

theorem le_antisymm (a b : String) (hab : le a b = true) (hba : le b a = true) : a = b :=
  units_injective (Lex.le_antisymm _ _ hab hba)

def sort (xs : List String) : List String :=
  Sorting.sort le xs

theorem sort_perm (xs : List String) : (sort xs).Perm xs :=
  Sorting.sort_perm le xs

theorem sort_pairwise (xs : List String) : (sort xs).Pairwise (le · · = true) :=
  Sorting.sort_pairwise le_total le_trans xs

theorem sort_eq_of_perm {xs ys : List String} (h : xs.Perm ys) : sort xs = sort ys :=
  List.Perm.eq_of_pairwise (fun a b _ _ => le_antisymm a b) (sort_pairwise xs) (sort_pairwise ys)
    ((sort_perm xs).trans (h.trans (sort_perm ys).symm))

def utf8 (s : String) : List UInt8 :=
  s.toUTF8.toList

structure Utf16 where
  units : List UInt16
  deriving DecidableEq, Repr

namespace Utf16

def ofString (s : String) : Utf16 :=
  ⟨(Text.units s).map UInt16.ofNat⟩

-- a unit that is half of a character is read as U+FFFD, so two sequences may be read alike
def read (t : Utf16) : String :=
  ofUnits (t.units.map UInt16.toNat)

def WellFormed (t : Utf16) : Prop :=
  ofString t.read = t

instance (t : Utf16) : Decidable t.WellFormed :=
  inferInstanceAs (Decidable (ofString t.read = t))

theorem WellFormed.eq_of_read_eq {t u : Utf16} (ht : t.WellFormed) (hu : u.WellFormed)
    (h : t.read = u.read) : t = u := by
  rw [← ht, h, hu]

example : (⟨[0xD800]⟩ : Utf16).read = (⟨[0xD801]⟩ : Utf16).read := by decide

end Utf16

end BlockTree.Text
