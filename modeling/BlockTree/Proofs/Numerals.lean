import BlockTree.Config
import Mathlib.Data.List.Induction

namespace BlockTree

def Spells (s : String) (n : Nat) : Prop :=
  ∃ zeros, s.toList = List.replicate zeros '0' ++ Nat.toDigits 10 n

theorem digitChar_of_isDigit {c : Char} (h : c.isDigit = true) :
    c.toNat - 48 < 10 ∧ Nat.digitChar (c.toNat - 48) = c := by
  have hrange := Char.isDigit_iff_toNat.1 h
  have hlow : 48 ≤ c.toNat := hrange.1
  have hhigh : c.toNat ≤ 57 := hrange.2
  have hall : ∀ d < 10, Nat.digitChar d = Char.ofNat (d + 48) := by decide
  refine ⟨by omega, ?_⟩
  rw [hall _ (by omega), Nat.sub_add_cancel hlow, Char.ofNat_toNat]

theorem exists_toDigits_append {n d : Nat} (hd : d < 10) :
    ∃ zeros, Nat.toDigits 10 n ++ [Nat.digitChar d] =
      List.replicate zeros '0' ++ Nat.toDigits 10 (10 * n + d) := by
  rcases Nat.eq_zero_or_pos n with rfl | hn
  · refine ⟨1, ?_⟩
    rw [Nat.toDigits_zero, Nat.mul_zero, Nat.zero_add, Nat.toDigits_of_lt_base hd]
    rfl
  · refine ⟨0, ?_⟩
    rw [← Nat.toDigits_append_toDigits (by decide) hn hd, Nat.toDigits_of_lt_base hd]
    rfl

theorem exists_eq_zeros_append {cs : List Char} (hne : cs ≠ []) (h : ∀ c ∈ cs, c.isDigit = true) :
    ∃ zeros, cs = List.replicate zeros '0' ++ Nat.toDigits 10 (Nat.ofDigitChars 10 cs 0) := by
  induction cs using List.reverseRec with
  | nil => exact absurd rfl hne
  | append_singleton cs c ih =>
      obtain ⟨hd, hc⟩ := digitChar_of_isDigit (h c (by simp))
      have hvalue : Nat.ofDigitChars 10 (cs ++ [c]) 0 =
          10 * Nat.ofDigitChars 10 cs 0 + (c.toNat - 48) := by
        rw [Nat.ofDigitChars_append, Nat.ofDigitChars_cons, Nat.ofDigitChars_nil]
        rfl
      rw [hvalue]
      rcases eq_or_ne cs [] with rfl | hcs
      · refine ⟨0, ?_⟩
        rw [Nat.ofDigitChars_nil, Nat.mul_zero, Nat.zero_add, Nat.toDigits_of_lt_base hd, hc]
        rfl
      · obtain ⟨zeros, hzeros⟩ := ih hcs fun c hc => h c (List.mem_append_left _ hc)
        obtain ⟨more, hmore⟩ := exists_toDigits_append (n := Nat.ofDigitChars 10 cs 0) hd
        refine ⟨zeros + more, ?_⟩
        calc cs ++ [c]
            = List.replicate zeros '0' ++
                (Nat.toDigits 10 (Nat.ofDigitChars 10 cs 0) ++ [Nat.digitChar (c.toNat - 48)]) := by
              rw [hc, ← List.append_assoc, ← hzeros]
          _ = List.replicate (zeros + more) '0' ++
                Nat.toDigits 10 (10 * Nat.ofDigitChars 10 cs 0 + (c.toNat - 48)) := by
              rw [hmore, ← List.append_assoc, List.replicate_append_replicate]

namespace Config

theorem isDigits_iff {s : String} :
    isDigits s = true ↔ s.toList ≠ [] ∧ ∀ c ∈ s.toList, c.isDigit = true := by
  simp [isDigits]

theorem digitsValue_eq (s : String) : digitsValue s = Nat.ofDigitChars 10 s.toList 0 := by
  have hstep : (fun (n : Nat) (d : Char) => n * 10 + (d.toNat - 48)) =
      fun n d => 10 * n + (d.toNat - '0'.toNat) := by
    funext n d
    rw [Nat.mul_comm]
    rfl
  rw [digitsValue, Nat.ofDigitChars_eq_foldl, hstep]

end Config

theorem spells_iff {s : String} {n : Nat} :
    Spells s n ↔ Config.isDigits s = true ∧ Config.digitsValue s = n := by
  rw [Config.isDigits_iff, Config.digitsValue_eq]
  constructor
  · rintro ⟨zeros, hs⟩
    rw [hs]
    refine ⟨⟨by simp [Nat.toDigits_ne_nil], fun c hc => ?_⟩, ?_⟩
    · rcases List.mem_append.1 hc with hc | hc
      · rw [List.eq_of_mem_replicate hc]
        rfl
      · exact Nat.isDigit_of_mem_toDigits (by decide) (by decide) hc
    · rw [Nat.ofDigitChars_append, Nat.ofDigitChars_replicate_zero, Nat.mul_zero,
        Nat.ofDigitChars_ten_toDigits]
  · rintro ⟨⟨hne, hdigits⟩, rfl⟩
    exact exists_eq_zeros_append hne hdigits

theorem Spells.unique {s : String} {m n : Nat} (hm : Spells s m) (hn : Spells s n) : m = n :=
  (spells_iff.1 hm).2.symm.trans (spells_iff.1 hn).2

theorem spells_digitsValue {s : String} (h : Config.isDigits s = true) :
    Spells s (Config.digitsValue s) :=
  spells_iff.2 ⟨h, rfl⟩

theorem spells_pow10 (k : Nat) :
    Spells (String.ofList ('1' :: List.replicate k '0')) (Nat.pow 10 k) := by
  rw [spells_iff, Config.isDigits_iff, Config.digitsValue_eq, String.toList_ofList]
  refine ⟨⟨by simp, fun c hc => ?_⟩, ?_⟩
  · rcases List.mem_cons.1 hc with rfl | hc
    · rfl
    · rw [List.eq_of_mem_replicate hc]
      rfl
  · rw [Nat.ofDigitChars_cons, Nat.ofDigitChars_replicate_zero]
    exact Nat.mul_one _

end BlockTree
