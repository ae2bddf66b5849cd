import BlockTree.Json.Reader
import BlockTree.Proofs.Documents
import BlockTree.Proofs.Numerals
import BlockTree.Proofs.Rounding

namespace BlockTree

namespace Number

section Scale

theorem roundHalfEven_mul_mul {num den k : Nat} (hk : 0 < k) :
    roundHalfEven (k * num) (k * den) = roundHalfEven num den := by
  have hdouble : ∀ r, 2 * (k * r) = k * (2 * r) := fun r => Nat.mul_left_comm 2 k r
  simp only [roundHalfEven, Nat.mul_div_mul_left _ _ hk, Nat.mul_mod_mul_left, hdouble,
    Nat.mul_lt_mul_left hk, Nat.mul_left_cancel_iff hk]

theorem log2_mul {n d : Nat} (hn : n ≠ 0) (hd : d ≠ 0) :
    (n * d).log2 = n.log2 + d.log2 ∨ (n * d).log2 = n.log2 + d.log2 + 1 := by
  have hne : n * d ≠ 0 := Nat.mul_ne_zero hn hd
  have hlow : n.log2 + d.log2 ≤ (n * d).log2 := by
    rw [Nat.le_log2 hne, Nat.pow_add]
    exact Nat.mul_le_mul (Nat.log2_self_le hn) (Nat.log2_self_le hd)
  have hhigh : (n * d).log2 < n.log2 + 1 + (d.log2 + 1) := by
    rw [Nat.log2_lt hne, Nat.pow_add]
    exact Nat.mul_lt_mul'' Nat.lt_log2_self Nat.lt_log2_self
  omega

theorem scaled_lt_leastFull (n : Nat) :
    n * pow2 (-((n.log2 : Int) - 51)) < leastFull * pow2 ((n.log2 : Int) - 51) := by
  calc n * pow2 (-((n.log2 : Int) - 51))
      < Nat.pow 2 (n.log2 + 1) * pow2 (-((n.log2 : Int) - 51)) :=
        Nat.mul_lt_mul_of_pos_right Nat.lt_log2_self (pow2_pos _)
    _ = Nat.pow 2 (n.log2 + 1 + (-((n.log2 : Int) - 51)).toNat) := (Nat.pow_add 2 _ _).symm
    _ = Nat.pow 2 (52 + ((n.log2 : Int) - 51).toNat) := by congr 1; omega
    _ = leastFull * pow2 ((n.log2 : Int) - 51) := Nat.pow_add 2 52 _

theorem exponentFor_mul {n d : Nat} (hn : n ≠ 0) (hd : 0 < d) :
    exponentFor (n * d) d = exponentFor n 1 := by
  have hquotient : ∀ e, n * d * pow2 (-e) / (d * pow2 e) = n * pow2 (-e) / pow2 e := by
    intro e
    rw [Nat.mul_comm n, Nat.mul_assoc, Nat.mul_div_mul_left _ _ hd]
  rw [exponentFor_one hn]
  simp only [exponentFor, hquotient]
  -- the logarithms may count one bit too many, and then the mantissa does not fill 53
  rcases log2_mul hn (Nat.ne_of_gt hd) with hlog | hlog
  · have hexponent : (((n * d).log2 : Int) - d.log2 - 52) = (n.log2 : Int) - 52 := by omega
    have hfull := (Nat.le_div_iff_mul_le (pow2_pos _)).2 (leastFull_le_scaled hn)
    rw [hexponent, if_neg (Nat.not_lt.2 hfull)]
    omega
  · have hexponent : (((n * d).log2 : Int) - d.log2 - 52) = (n.log2 : Int) - 51 := by omega
    have hshort := (Nat.div_lt_iff_lt_mul (pow2_pos _)).2 (scaled_lt_leastFull n)
    rw [hexponent, if_pos hshort]
    omega

theorem ofRatio_mul (negative : Bool) (n : Nat) {d : Nat} (hd : 0 < d) :
    ofRatio negative (n * d) d = ofRatio negative n 1 := by
  rcases eq_or_ne n 0 with rfl | hn
  · simp [ofRatio]
  have hne : n * d ≠ 0 := Nat.mul_ne_zero hn (Nat.ne_of_gt hd)
  have hround : ∀ e, roundHalfEven (n * d * pow2 (-e)) (d * pow2 e) =
      roundHalfEven (n * pow2 (-e)) (1 * pow2 e) := by
    intro e
    rw [Nat.mul_comm n, Nat.mul_assoc, roundHalfEven_mul_mul hd, Nat.one_mul]
  simp only [ofRatio, hne, hn, exponentFor_mul hn hd, hround]

end Scale

theorem toInt?_ofRatio_true (num den : Nat) :
    (ofRatio true num den).toInt? = (ofRatio false num den).toInt?.map Neg.neg := by
  have hfinite : ∀ m e, (finite true m e).toInt? = (finite false m e).toInt?.map Neg.neg := by
    intro m e
    simp only [toInt?]
    split <;> rfl
  simp only [ofRatio]
  repeat' split
  all_goals first | exact hfinite _ _ | rfl

theorem toInt?_ofDecimal_true (n : Nat) :
    (ofDecimal true n 0).toInt? = (ofDecimal false n 0).toInt?.map Neg.neg := by
  rcases eq_or_ne n 0 with rfl | hn
  · rfl
  · rw [ofDecimal_natural true hn, ofDecimal_natural false hn, toInt?_ofRatio_true]

theorem halfway_le_pow10 {k e : Nat} (h : 54 + k ≤ 3 * e) : halfway k ≤ Nat.pow 10 e := by
  calc halfway k ≤ Nat.pow 2 54 * Nat.pow 2 k := Nat.mul_le_mul_right _ (by decide)
    _ = Nat.pow 2 (54 + k) := (Nat.pow_add 2 54 k).symm
    _ ≤ Nat.pow 2 (3 * e) := Nat.pow_le_pow_right (by decide) h
    _ = Nat.pow 8 e := Nat.pow_mul 2 3 e
    _ ≤ Nat.pow 10 e := Nat.pow_le_pow_left (by decide) e

theorem lt_pow10 {n : Nat} {e : Int} (h : n.log2 < e) : n < pow10 e := by
  calc n < Nat.pow 2 (n.log2 + 1) := Nat.lt_log2_self
    _ ≤ Nat.pow 2 e.toNat := Nat.pow_le_pow_right (by decide) (by omega)
    _ ≤ pow10 e := Nat.pow_le_pow_left (by decide) _

theorem pow10_of_nonpos {e : Int} (h : e ≤ 0) : pow10 e = 1 := by
  rw [pow10, Int.toNat_of_nonpos h]

theorem pow10_pos (e : Int) : 0 < pow10 e :=
  Nat.pow_pos (by decide)

theorem ofDecimal_eq {negative : Bool} {digits n : Nat} {e : Int}
    (h : digits * pow10 e = n * pow10 (-e)) : ofDecimal negative digits e = ofDecimal negative n 0 := by
  rcases eq_or_ne digits 0 with rfl | hdigits
  · have hn : n = 0 := by
      rw [Nat.zero_mul] at h
      exact (Nat.mul_eq_zero.1 h.symm).resolve_right (Nat.ne_of_gt (pow10_pos _))
    subst hn
    rfl
  have hn : n ≠ 0 := by
    rintro rfl
    rw [Nat.zero_mul] at h
    exact Nat.mul_ne_zero hdigits (Nat.ne_of_gt (pow10_pos _)) h
  rcases Int.lt_or_le 400 e with hlarge | hlarge
  · have hvalue : n = digits * pow10 e := by
      rw [h, pow10_of_nonpos (by omega), Nat.mul_one]
    have hoverflow : overflow ≤ n := by
      calc overflow ≤ pow10 e := halfway_le_pow10 (by omega)
        _ ≤ digits * pow10 e := Nat.le_mul_of_pos_left _ (Nat.pos_of_ne_zero hdigits)
        _ = n := hvalue.symm
    rw [ofDecimal_of_overflow negative hoverflow, ofDecimal, if_neg hdigits, if_pos hlarge]
  · have hsmall : ¬ e < -400 - digits.log2 := by
      -- the digits would not reach the point
      intro hsmall
      have hpoint : digits < pow10 (-e) := lt_pow10 (by omega)
      rw [pow10_of_nonpos (by omega), Nat.mul_one] at h
      have hle : pow10 (-e) ≤ n * pow10 (-e) := Nat.le_mul_of_pos_left _ (Nat.pos_of_ne_zero hn)
      omega
    rw [ofDecimal_natural negative hn, ← ofRatio_mul negative n (pow10_pos (-e)), ← h, ofDecimal,
      if_neg hdigits, if_neg (Int.not_lt.2 hlarge), if_neg hsmall]

def ReadFrom (x : Number) (z : Int) : Prop :=
  ∃ negative digits exponent, x = ofDecimal negative digits exponent ∧
    signed negative digits * pow10 exponent = z * pow10 (-exponent)

theorem toInt?_of_ge {n : Nat} (h : overflow ≤ n) (negative : Bool) :
    (ofDecimal negative n 0).toInt? = none := by
  rw [ofDecimal_of_overflow negative h]
  rfl

theorem exists_natural_of_mul {a q : Nat} {z : Int} (hq : 0 < q) (h : (a : Int) = z * q) :
    ∃ N : Nat, z = N ∧ a = N * q := by
  have hq : (0 : Int) < q := Int.natCast_pos.2 hq
  have hz : 0 ≤ z := Int.nonneg_of_mul_nonneg_left (h ▸ Int.natCast_nonneg a) hq
  obtain ⟨N, rfl⟩ := Int.eq_ofNat_of_zero_le hz
  exact ⟨N, rfl, by exact_mod_cast h⟩

theorem exists_rounded_of_readFrom {x : Number} {n z : Int} (hx : x.toInt? = some n) (hn : 0 ≤ n)
    (h : x.ReadFrom z) : ∃ N : Nat, z = N ∧ n = rounded N := by
  obtain ⟨negative, digits, exponent, rfl, hvalue⟩ := h
  have hfits : ∀ {negative N}, (ofDecimal negative N 0).toInt? = some n → N < overflow := by
    intro negative N hN
    by_contra hover
    rw [toInt?_of_ge (Nat.not_lt.1 hover)] at hN
    simp at hN
  cases negative with
  | false =>
      have hproduct : ((digits * pow10 exponent : Nat) : Int) = z * pow10 (-exponent) := by
        rw [Int.natCast_mul]
        exact hvalue
      obtain ⟨N, rfl, hN⟩ := exists_natural_of_mul (pow10_pos _) hproduct
      rw [ofDecimal_eq hN] at hx
      exact ⟨N, rfl, Option.some.inj (hx.symm.trans (toInt?_ofDecimal (hfits hx)))⟩
  | true =>
      have hproduct : ((digits * pow10 exponent : Nat) : Int) = -z * pow10 (-exponent) := by
        rw [Int.natCast_mul, Int.neg_mul, ← hvalue, signed, if_pos rfl, Int.neg_mul, Int.neg_neg]
      obtain ⟨N, hz, hN⟩ := exists_natural_of_mul (pow10_pos _) hproduct
      rw [ofDecimal_eq hN] at hx
      have hlt := hfits hx
      rw [toInt?_ofDecimal_true, toInt?_ofDecimal hlt] at hx
      -- only a zero is not negative with a sign
      have hneg : n = -(rounded N : Int) := (Option.some.inj hx).symm
      have hone := le_rounded_iff (n := N) (k := 1) (by decide)
      have hzero : N = 0 := by omega
      subst hzero
      exact ⟨0, by omega, by rw [hneg]; rfl⟩

theorem rounded_eq_of_le_maxSafe {N : Nat} (h : rounded N ≤ maxSafe) : rounded N = N := by
  rcases Nat.lt_or_ge N (2 * leastFull) with hlt | hge
  · exact rounded_of_lt hlt
  · have hbeyond : maxSafe < 2 * leastFull := by decide
    exact absurd (le_rounded hge) (Nat.not_le.2 (Nat.lt_of_le_of_lt h hbeyond))

end Number

namespace Genesis

open Reading

theorem gives_readWord {w : Json} {n : Int} : Gives readWord w n ↔ n ≤ SumProduct.maxWord ∧
    ((∃ s, ∃ N : Nat, w = .text s ∧ Spells s N ∧ n = N) ∨
      ∃ x, w = .number x ∧ x.toInt? = some n ∧ 0 ≤ n) := by
  have htext : ∀ s, (readWordText s).result = .ok n ↔ ∃ N : Nat, Spells s N ∧ n = N := by
    intro s
    simp only [readWordText, result_convert, result_require, result_hold, Option.some.injEq,
      spells_iff]
    constructor
    · rintro ⟨_, ⟨rfl, hs⟩, hn⟩
      exact ⟨_, ⟨hs, rfl⟩, hn.symm⟩
    · rintro ⟨_, ⟨hs, rfl⟩, hn⟩
      exact ⟨s, ⟨rfl, hs⟩, hn.symm⟩
  have hnumber : ∀ x, (readWordNumber x).result = .ok n ↔ x.toInt? = some n ∧ 0 ≤ n := by
    intro x
    simp only [readWordNumber, result_convert, result_require, result_hold]
    constructor
    · rintro ⟨_, ⟨⟨rfl, _⟩, hbelow⟩, hn⟩
      rw [Number.below_eq hn] at hbelow
      exact ⟨hn, by simpa using hbelow⟩
    · rintro ⟨hn, hnonneg⟩
      refine ⟨x, ⟨⟨rfl, by rw [hn]; rfl⟩, ?_⟩, hn⟩
      rw [Number.below_eq hn]
      simpa using hnonneg
  unfold Gives readWord
  rw [result_require, decide_eq_true_iff, and_comm]
  refine and_congr_right fun _ => ?_
  cases w with
  | text s => simp [htext]
  | number x => simp [hnumber]
  | _ => simp

inductive SaysWritten : Json → Int → Prop
  | text {s : String} {N : Nat} : Spells s N → SaysWritten (.text s) N
  | number {x : Number} {n : Int} : x.toInt? = some n →
      (∀ z, x.ReadFrom z → ∃ N : Nat, z = N ∧ n = Number.rounded N ∧
        (n = z ↔ Number.Representable N) ∧ (n ≤ Number.maxSafe → n = z)) →
      SaysWritten (.number x) n

theorem saysWritten_of_gives {w : Json} {n : Int} (h : Gives readWord w n) :
    SaysWritten w n := by
  obtain ⟨_, ⟨s, N, rfl, hs, rfl⟩ | ⟨x, rfl, hx, hn⟩⟩ := gives_readWord.1 h
  · exact .text hs
  · refine .number hx fun z hz => ?_
    obtain ⟨N, rfl, rfl⟩ := Number.exists_rounded_of_readFrom hx hn hz
    refine ⟨N, rfl, rfl, ?_, fun hsafe => ?_⟩
    · rw [Int.natCast_inj, Number.rounded_eq_self_iff]
    · rw [Number.rounded_eq_of_le_maxSafe (Int.ofNat_le.1 hsafe)]

theorem accepted_integers_as_written {j : Json} {g : Genesis} (h : parse j = .ok g) :
    Says SaysWritten j g :=
  (parse_eq_ok_iff_said.1 h).imp fun _ _ => saysWritten_of_gives

def widest : Json :=
  .object [("machine", .text "sum-product"), ("state", .object
    [("sum", .number (.ofDecimal false 90071992547409910 (-1))),
     ("product", .text "00018446744073709551615")])]

theorem parse_widest : parse widest =
    .ok ⟨none, .sumProduct ⟨9007199254740991, 18446744073709551615⟩⟩ := by
  rfl

theorem widest_sum_as_written :
    parse widest = .ok ⟨none, .sumProduct ⟨9007199254740991, 18446744073709551615⟩⟩ ∧
      ∀ z, (Number.ofDecimal false 90071992547409910 (-1)).ReadFrom z → z = 9007199254740991 := by
  refine ⟨parse_widest, fun z hz => ?_⟩
  obtain ⟨state, hstate, hsum, _⟩ := (accepted_integers_as_written parse_widest).state
  obtain rfl := Option.some.inj hstate
  obtain ⟨w, hw, hsaid⟩ := hsum
  obtain rfl := Option.some.inj hw
  cases hsaid with
  | number _ hwritten =>
      obtain ⟨_, _, _, _, hsafe⟩ := hwritten z hz
      exact (hsafe (by decide)).symm

inductive SaysSafely : Json → Int → Prop
  | text {s : String} {N : Nat} : Spells s N → SaysSafely (.text s) N
  | number {x : Number} {n : Int} : n ≤ Number.maxSafe → (∀ z, x.ReadFrom z → n = z) →
      SaysSafely (.number x) n

deriving instance DecidableEq for Table, Founding, Genesis

def beyondSafe : String :=
  "\x7b\"machine\":\"sum-product\",\"state\":\x7b\"sum\":9007199254740993,\"product\":1\x7d\x7d"

theorem sum_beyond_safe_rounded :
    Genesis.load (some beyondSafe) = .ok ⟨none, .sumProduct ⟨9007199254740992, 1⟩⟩ ∧
      ¬ ∀ j g, parse j = .ok g → Says SaysSafely j g := by
  refine ⟨by decide +kernel, fun hall => ?_⟩
  have hparse : parse (.object [("machine", .text "sum-product"), ("state", .object
      [("sum", .number (.ofDecimal false 9007199254740993 0)),
       ("product", .number (.ofDecimal false 1 0))])]) =
        .ok ⟨none, .sumProduct ⟨9007199254740992, 1⟩⟩ := by
    rfl
  obtain ⟨state, hstate, hsum, _⟩ := (hall _ _ hparse).state
  obtain rfl := Option.some.inj hstate
  obtain ⟨w, hw, hsaid⟩ := hsum
  obtain rfl := Option.some.inj hw
  cases hsaid with
  | number hsafe _ => exact absurd hsafe (by decide)

end Genesis

end BlockTree
