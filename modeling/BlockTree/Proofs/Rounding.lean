import BlockTree.Proofs.GenesisState

namespace BlockTree.Number

theorem pow2_neg_natCast (k : Nat) : pow2 (-(k : Int)) = 1 := by
  have h : (-(k : Int)).toNat = 0 := by omega
  rw [pow2, h]

section RoundHalfEven

variable {num den k : Nat}

theorem roundHalfEven_near (num : Nat) (hden : 0 < den) :
    2 * (roundHalfEven num den * den) ≤ 2 * num + den ∧
      2 * num ≤ 2 * (roundHalfEven num den * den) + den := by
  have hdiv := Nat.div_add_mod' num den
  have hmod := Nat.mod_lt num hden
  unfold roundHalfEven
  simp only
  split
  · omega
  · rw [Nat.add_mul, Nat.one_mul]
    omega

theorem roundHalfEven_mul (hden : 0 < den) : roundHalfEven (k * den) den = k := by
  simp [roundHalfEven, Nat.mul_div_cancel _ hden, hden]

theorem le_roundHalfEven (hden : 0 < den) (h : k * den ≤ num) : k ≤ roundHalfEven num den := by
  have hk : k ≤ num / den := (Nat.le_div_iff_mul_le hden).2 h
  unfold roundHalfEven
  simp only
  split <;> omega

theorem roundHalfEven_le (hden : 0 < den) (h : num ≤ k * den) : roundHalfEven num den ≤ k := by
  rcases Nat.lt_or_ge (num / den) k with hlt | hge
  · unfold roundHalfEven
    simp only
    split <;> omega
  · have hnum : num = k * den := Nat.le_antisymm h ((Nat.le_div_iff_mul_le hden).1 hge)
    rw [hnum, roundHalfEven_mul hden]

theorem le_roundHalfEven_iff (num : Nat) (hden : 0 < den) (heven : k % 2 = 0) :
    k ≤ roundHalfEven num den ↔ 2 * (k * den) ≤ 2 * num + den := by
  constructor
  · intro h
    have hmul := Nat.mul_le_mul_right den h
    have hnear := (roundHalfEven_near num hden).1
    omega
  · intro h
    by_contra hlt
    have hq : num / den < k := by
      by_contra hq
      exact hlt (le_roundHalfEven hden ((Nat.le_div_iff_mul_le hden).1 (Nat.not_lt.1 hq)))
    have hmul := Nat.mul_le_mul_right den (show num / den + 1 ≤ k from hq)
    have hdiv := Nat.div_add_mod' num den
    have hmod := Nat.mod_lt num hden
    rw [Nat.add_mul, Nat.one_mul] at hmul
    have hodd : num / den + 1 = k := by
      by_contra hne
      have hmul := Nat.mul_le_mul_right den (show num / den + 2 ≤ k by omega)
      rw [Nat.add_mul] at hmul
      omega
    subst hodd
    rw [Nat.add_mul, Nat.one_mul] at h
    refine hlt ?_
    unfold roundHalfEven
    simp only
    split <;> omega

theorem roundHalfEven_nearest (num : Nat) (hden : 0 < den) (k : Nat) :
    (((roundHalfEven num den * den : Nat) : Int) - num).natAbs ≤
      (((k * den : Nat) : Int) - num).natAbs := by
  obtain ⟨habove, hbelow⟩ := roundHalfEven_near num hden
  rcases Nat.lt_trichotomy k (roundHalfEven num den) with hlt | rfl | hgt
  · have hmul := Nat.mul_le_mul_right den (show k + 1 ≤ _ from hlt)
    rw [Nat.add_mul, Nat.one_mul] at hmul
    omega
  · exact Nat.le_refl _
  · have hmul := Nat.mul_le_mul_right den (show roundHalfEven num den + 1 ≤ k from hgt)
    rw [Nat.add_mul, Nat.one_mul] at hmul
    omega

end RoundHalfEven

def shift (n : Nat) : Nat :=
  n.log2 - 52

def spacing (n : Nat) : Nat :=
  Nat.pow 2 (shift n)

def rounded (n : Nat) : Nat :=
  roundHalfEven n (spacing n) * spacing n

def Representable (n : Nat) : Prop :=
  ∃ m k, m < 2 * leastFull ∧ n = m * Nat.pow 2 k

theorem spacing_pos (n : Nat) : 0 < spacing n :=
  Nat.pow_pos (by decide)

theorem spacing_of_lt {n : Nat} (h : n < 2 * leastFull) : spacing n = 1 := by
  have hshift : shift n = 0 := by
    rcases Nat.eq_zero_or_pos n with rfl | hn
    · rfl
    · have hlog : n.log2 < 53 := (Nat.log2_lt (Nat.ne_of_gt hn)).2 h
      unfold shift
      omega
  rw [spacing, hshift]

theorem leastFull_mul_spacing_le {n : Nat} (h : leastFull ≤ n) :
    leastFull * spacing n ≤ n ∧ n < 2 * (leastFull * spacing n) := by
  have hn : n ≠ 0 := fun hzero => absurd (hzero ▸ h) (by decide)
  have hlog : 52 ≤ n.log2 := (Nat.le_log2 hn).2 h
  have hfull : leastFull * spacing n = Nat.pow 2 n.log2 := by
    calc leastFull * spacing n = Nat.pow 2 (52 + shift n) := (Nat.pow_add 2 52 _).symm
      _ = Nat.pow 2 n.log2 := by rw [shift, Nat.add_sub_cancel' hlog]
  have hlow : Nat.pow 2 n.log2 ≤ n := Nat.log2_self_le hn
  have hhigh : n < Nat.pow 2 n.log2 * 2 := Nat.lt_log2_self
  rw [hfull]
  omega

theorem mantissa_bounds {n : Nat} (h : leastFull ≤ n) :
    leastFull ≤ roundHalfEven n (spacing n) ∧ roundHalfEven n (spacing n) ≤ 2 * leastFull := by
  obtain ⟨hlow, hhigh⟩ := leastFull_mul_spacing_le h
  refine ⟨le_roundHalfEven (spacing_pos n) hlow, roundHalfEven_le (spacing_pos n) ?_⟩
  rw [Nat.mul_assoc]
  exact Nat.le_of_lt hhigh

theorem rounded_of_lt {n : Nat} (h : n < 2 * leastFull) : rounded n = n := by
  have hround := roundHalfEven_mul (k := n) Nat.one_pos
  rw [Nat.mul_one] at hround
  rw [rounded, spacing_of_lt h, Nat.mul_one, hround]

theorem representable_rounded (n : Nat) : Representable (rounded n) := by
  rcases Nat.lt_or_ge n (2 * leastFull) with hlt | hge
  · rw [rounded_of_lt hlt]
    exact ⟨n, 0, hlt, (Nat.mul_one n).symm⟩
  obtain ⟨_, hhigh⟩ := mantissa_bounds (Nat.le_trans (by decide) hge)
  rcases Nat.lt_or_eq_of_le hhigh with hlt | heq
  · exact ⟨_, _, hlt, rfl⟩
  · -- a mantissa of 54 bits is half of it at twice the spacing
    refine ⟨leastFull, shift n + 1, by decide, ?_⟩
    rw [rounded, heq, Nat.mul_comm 2, Nat.mul_assoc, Nat.mul_comm 2]
    rfl

theorem dvd_or_lt_of_representable {v : Nat} (hv : Representable v) (n : Nat) :
    spacing n ∣ v ∨ v < leastFull * spacing n := by
  obtain ⟨m, k, hm, rfl⟩ := hv
  rcases Nat.lt_or_ge k (shift n) with hlt | hge
  · right
    have hdouble : Nat.pow 2 (k + 1) = Nat.pow 2 k * 2 := rfl
    have hpow : Nat.pow 2 (k + 1) ≤ spacing n := Nat.pow_le_pow_right (by decide) hlt
    calc m * Nat.pow 2 k
        < 2 * leastFull * Nat.pow 2 k := Nat.mul_lt_mul_of_pos_right hm (Nat.pow_pos (by decide))
      _ = leastFull * Nat.pow 2 (k + 1) := by
          rw [hdouble, Nat.mul_comm 2, Nat.mul_assoc, Nat.mul_comm 2]
      _ ≤ leastFull * spacing n := Nat.mul_le_mul_left _ hpow
  · exact .inl ((Nat.pow_dvd_pow 2 hge).mul_left m)

theorem rounded_near (n : Nat) {v : Nat} (hv : Representable v) :
    ((rounded n : Int) - n).natAbs ≤ ((v : Int) - n).natAbs := by
  rcases Nat.lt_or_ge n (2 * leastFull) with hlt | hge
  · rw [rounded_of_lt hlt]
    omega
  have hmultiple := fun k => roundHalfEven_nearest n (spacing_pos n) k
  rcases dvd_or_lt_of_representable hv n with ⟨k, rfl⟩ | hbelow
  · rw [Nat.mul_comm]
    exact hmultiple k
  · -- the least multiple with a mantissa of 53 bits stands between `v` and `n`
    obtain ⟨hlow, _⟩ := leastFull_mul_spacing_le (Nat.le_trans (by decide) hge)
    have hfull := hmultiple leastFull
    rw [rounded]
    omega

theorem rounded_eq_self_iff {n : Nat} : rounded n = n ↔ Representable n := by
  constructor
  · intro h
    exact h ▸ representable_rounded n
  · intro h
    have hnear := rounded_near n h
    omega

theorem le_rounded {n : Nat} (h : 2 * leastFull ≤ n) : 2 * leastFull ≤ rounded n := by
  have hfull : Representable (2 * leastFull) := ⟨leastFull, 1, by decide, rfl⟩
  have hnear := rounded_near n hfull
  omega

theorem le_rounded_iff {n k : Nat} (hk : k < 2 * leastFull) : k ≤ rounded n ↔ k ≤ n := by
  rcases Nat.lt_or_ge n (2 * leastFull) with hlt | hge
  · rw [rounded_of_lt hlt]
  · have hround := le_rounded hge
    omega

def halfway (k : Nat) : Nat :=
  (4 * leastFull - 1) * Nat.pow 2 k

def overflow : Nat :=
  halfway 970

theorem leastFull_le_scaled {n : Nat} (hn : n ≠ 0) :
    leastFull * pow2 ((n.log2 : Int) - 52) ≤ n * pow2 (-((n.log2 : Int) - 52)) := by
  calc leastFull * pow2 ((n.log2 : Int) - 52)
      = Nat.pow 2 (52 + ((n.log2 : Int) - 52).toNat) := (Nat.pow_add 2 52 _).symm
    _ = Nat.pow 2 (n.log2 + (-((n.log2 : Int) - 52)).toNat) := by congr 1; omega
    _ = Nat.pow 2 n.log2 * pow2 (-((n.log2 : Int) - 52)) := Nat.pow_add 2 _ _
    _ ≤ n * pow2 (-((n.log2 : Int) - 52)) := Nat.mul_le_mul_right _ (Nat.log2_self_le hn)

theorem exponentFor_one {n : Nat} (hn : n ≠ 0) : exponentFor n 1 = (n.log2 : Int) - 52 := by
  have hlog : Nat.log2 1 = 0 := by decide
  have hfull : ¬ n * pow2 (-((n.log2 : Int) - 52)) / (1 * pow2 ((n.log2 : Int) - 52)) <
      leastFull := by
    rw [Nat.one_mul, Nat.not_lt, Nat.le_div_iff_mul_le (pow2_pos _)]
    exact leastFull_le_scaled hn
  simp only [exponentFor, hlog, Int.ofNat_zero, Int.sub_zero, if_neg hfull]
  omega

theorem toInt?_finite (m k : Nat) :
    (finite false m k).toInt? = some ((m * Nat.pow 2 k : Nat) : Int) := by
  simp only [toInt?, pow2_neg_natCast, Nat.mod_one, Nat.div_one, if_true]
  rfl

theorem toInt?_ofRatio_of_lt {n : Nat} (hn : n ≠ 0) (h : n < leastFull) :
    (ofRatio false n 1).toInt? = some (n : Int) := by
  have hlog : n.log2 < 52 := (Nat.log2_lt hn).2 h
  obtain ⟨zeros, hzeros⟩ : ∃ zeros : Nat, n.log2 + zeros = 52 := ⟨52 - n.log2, by omega⟩
  have hexponent : exponentFor n 1 = -(zeros : Int) := by
    rw [exponentFor_one hn]
    omega
  have hscale : pow2 (- -(zeros : Int)) = Nat.pow 2 zeros := by
    rw [Int.neg_neg]
    rfl
  have hpos : 0 < Nat.pow 2 zeros := Nat.pow_pos (by decide)
  have hround := roundHalfEven_mul (k := n * Nat.pow 2 zeros) Nat.one_pos
  rw [Nat.mul_one] at hround
  have hne : n * Nat.pow 2 zeros ≠ 0 := Nat.mul_ne_zero hn (Nat.ne_of_gt hpos)
  have hfull : n * Nat.pow 2 zeros < 2 * leastFull := by
    calc n * Nat.pow 2 zeros
        < Nat.pow 2 (n.log2 + 1) * Nat.pow 2 zeros := Nat.mul_lt_mul_of_pos_right Nat.lt_log2_self hpos
      _ = Nat.pow 2 (n.log2 + 1 + zeros) := (Nat.pow_add 2 _ _).symm
      _ = 2 * leastFull := by rw [Nat.add_right_comm, hzeros]; rfl
  have hsmall : ¬ -(zeros : Int) > 971 := by omega
  simp only [ofRatio, hn, hexponent, pow2_neg_natCast, hscale, hround, hne, Nat.ne_of_lt hfull,
    hsmall, if_false, toInt?, Nat.mul_mod_left, if_true, Nat.mul_div_cancel _ hpos, Nat.mul_one]
  rfl

theorem ofRatio_of_ge (negative : Bool) {n : Nat} (h : leastFull ≤ n) :
    ofRatio negative n 1 =
      if roundHalfEven n (spacing n) = 2 * leastFull then
        if (shift n : Int) + 1 > 971 then .infinite negative
        else .finite negative leastFull (shift n + 1)
      else if (shift n : Int) > 971 then .infinite negative
      else .finite negative (roundHalfEven n (spacing n)) (shift n) := by
  have hn : n ≠ 0 := fun hzero => absurd (hzero ▸ h) (by decide)
  have hlog : 52 ≤ n.log2 := (Nat.le_log2 hn).2 h
  have hexponent : exponentFor n 1 = (shift n : Int) := by
    rw [exponentFor_one hn, shift]
    omega
  have hspacing : pow2 (shift n) = spacing n := rfl
  have hmantissa : roundHalfEven n (spacing n) ≠ 0 :=
    Nat.ne_of_gt (Nat.lt_of_lt_of_le (by decide) (mantissa_bounds h).1)
  simp only [ofRatio, hn, if_false, hexponent, pow2_neg_natCast, Nat.mul_one, Nat.one_mul, hspacing,
    hmantissa]

theorem le_halfway (k : Nat) : 2 * leastFull ≤ halfway k :=
  Nat.le_trans (by decide) (Nat.le_mul_of_pos_right (4 * leastFull - 1) (Nat.pow_pos (by decide)))

theorem halfway_le_iff {n : Nat} (h : leastFull ≤ n) (k : Nat) :
    halfway k ≤ n ↔
      k + 1 < shift n ∨ (shift n = k + 1 ∧ roundHalfEven n (spacing n) = 2 * leastFull) := by
  obtain ⟨hlow, hhigh⟩ := leastFull_mul_spacing_le h
  have hdouble : ∀ k, Nat.pow 2 (k + 1) = Nat.pow 2 k * 2 := fun _ => rfl
  rw [halfway]
  rcases Nat.lt_trichotomy (shift n) (k + 1) with hlt | heq | hgt
  · have hspacing : spacing n ≤ Nat.pow 2 k :=
      Nat.pow_le_pow_right (by decide) (Nat.le_of_lt_succ hlt)
    unfold leastFull at *
    omega
  · have hspacing : spacing n = Nat.pow 2 k * 2 := by
      rw [spacing, heq, hdouble]
    have hmantissa := le_roundHalfEven_iff (k := 2 * leastFull) n (spacing_pos n)
      (by decide)
    have hmost := (mantissa_bounds h).2
    rw [hspacing] at hmantissa hmost ⊢
    unfold leastFull at *
    omega
  · have hspacing : Nat.pow 2 k * 2 * 2 ≤ spacing n := by
      rw [← hdouble, ← hdouble]
      exact Nat.pow_le_pow_right (by decide) hgt
    unfold leastFull at *
    omega

theorem ofDecimal_natural (negative : Bool) {n : Nat} (hn : n ≠ 0) :
    ofDecimal negative n 0 = ofRatio negative n 1 := by
  have hlow : ¬ (0 : Int) < -400 - n.log2 := by omega
  have hone : n * pow10 0 = n := Nat.mul_one n
  simp only [ofDecimal, hn, hlow, hone, if_false]
  rfl

theorem ofDecimal_of_overflow (negative : Bool) {n : Nat} (h : overflow ≤ n) :
    ofDecimal negative n 0 = .infinite negative := by
  have hfull : leastFull ≤ n := Nat.le_trans (by decide) (Nat.le_trans (le_halfway 970) h)
  have hn : n ≠ 0 := fun hzero => absurd (hzero ▸ hfull) (by decide)
  rw [ofDecimal_natural negative hn, ofRatio_of_ge negative hfull]
  rcases (halfway_le_iff hfull 970).1 h with hshift | ⟨hshift, hmantissa⟩
  · have hbeyond : (shift n : Int) + 1 > 971 ∧ (shift n : Int) > 971 := by omega
    simp only [hbeyond, if_true, ite_self]
  · have hbeyond : (shift n : Int) + 1 > 971 := by omega
    simp only [hmantissa, hbeyond, if_true]

theorem toInt?_ofDecimal {n : Nat} (h : n < overflow) :
    (ofDecimal false n 0).toInt? = some (rounded n : Int) := by
  rcases Nat.eq_zero_or_pos n with rfl | hpos
  · rfl
  rw [ofDecimal_natural false (Nat.ne_of_gt hpos)]
  rcases Nat.lt_or_ge n leastFull with hlt | hfull
  · rw [toInt?_ofRatio_of_lt (Nat.ne_of_gt hpos) hlt,
      rounded_of_lt (Nat.lt_of_lt_of_le hlt (by decide))]
  · have hbelow := (halfway_le_iff hfull 970).not.1 (Nat.not_le.2 h)
    rw [ofRatio_of_ge false hfull]
    split
    · rename_i hmantissa
      have hshift : ¬ (shift n : Int) + 1 > 971 := by omega
      have hrounded : rounded n = leastFull * Nat.pow 2 (shift n + 1) := by
        rw [rounded, hmantissa, Nat.mul_comm 2, Nat.mul_assoc, Nat.mul_comm 2]
        rfl
      rw [if_neg hshift, hrounded]
      exact toInt?_finite leastFull (shift n + 1)
    · have hshift : ¬ (shift n : Int) > 971 := by omega
      rw [if_neg hshift]
      exact toInt?_finite _ (shift n)

section Comparison

variable {x : Number} {n : Int}

theorem exists_quotient_of_toInt? {negative : Bool} {m : Nat} {e : Int}
    (h : (finite negative m e).toInt? = some n) :
    ∃ q : Nat, m = q * pow2 (-e) ∧ n = signed negative q * pow2 e := by
  simp only [toInt?] at h
  split at h
  · rename_i hmod
    obtain rfl := Option.some.inj h
    refine ⟨m / pow2 (-e), (Nat.div_mul_cancel (Nat.dvd_of_mod_eq_zero hmod)).symm, ?_⟩
    cases negative with
    | false => exact Int.natCast_mul _ _
    | true => simp [signed]
  · simp at h

theorem signed_mul (negative : Bool) (q k : Nat) :
    signed negative (q * k) = signed negative q * k := by
  cases negative <;> simp [signed]

theorem below_eq (h : x.toInt? = some n) (c : Int) : x.below c = decide (n < c) := by
  cases x with
  | nan => simp [toInt?] at h
  | infinite negative => simp [toInt?] at h
  | finite negative m e =>
      obtain ⟨q, rfl, rfl⟩ := exists_quotient_of_toInt? h
      have hscale : (0 : Int) < pow2 (-e) := Int.natCast_pos.2 (pow2_pos _)
      have hmul : signed negative (q * pow2 (-e)) * pow2 e < c * pow2 (-e) ↔
          signed negative q * pow2 e < c := by
        rw [signed_mul, Int.mul_right_comm, Int.mul_lt_mul_right hscale]
      simp only [below, hmul]

theorem above_eq (h : x.toInt? = some n) (c : Int) : x.above c = decide (c < n) := by
  cases x with
  | nan => simp [toInt?] at h
  | infinite negative => simp [toInt?] at h
  | finite negative m e =>
      obtain ⟨q, rfl, rfl⟩ := exists_quotient_of_toInt? h
      have hscale : (0 : Int) < pow2 (-e) := Int.natCast_pos.2 (pow2_pos _)
      have hmul : c * pow2 (-e) < signed negative (q * pow2 (-e)) * pow2 e ↔
          c < signed negative q * pow2 e := by
        rw [signed_mul, Int.mul_right_comm, Int.mul_lt_mul_right hscale]
      simp only [above, hmul]

theorem below_ofDecimal (n : Nat) {k : Nat} (hk : k < 2 * leastFull) :
    (ofDecimal false n 0).below k = decide (n < k) := by
  rcases Nat.lt_or_ge n overflow with hlt | hge
  · have hround := le_rounded_iff (n := n) hk
    rw [below_eq (toInt?_ofDecimal hlt), decide_eq_decide]
    omega
  · have hnot : ¬ n < k := Nat.not_lt.2 (Nat.le_trans (Nat.le_of_lt hk)
      (Nat.le_trans (le_halfway 970) hge))
    rw [ofDecimal_of_overflow false hge, decide_eq_false hnot]
    rfl

theorem above_ofDecimal (n : Nat) {k : Nat} (hk : k + 1 < 2 * leastFull) :
    (ofDecimal false n 0).above k = decide (k < n) := by
  rcases Nat.lt_or_ge n overflow with hlt | hge
  · have hround := le_rounded_iff (n := n) hk
    rw [above_eq (toInt?_ofDecimal hlt), decide_eq_decide]
    omega
  · have hbeyond : k < n := Nat.lt_of_lt_of_le (Nat.lt_of_succ_lt hk)
      (Nat.le_trans (le_halfway 970) hge)
    rw [ofDecimal_of_overflow false hge, decide_eq_true hbeyond]
    rfl

end Comparison

end BlockTree.Number
