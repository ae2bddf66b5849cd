import BlockTree.Proofs.Amounts

namespace BlockTree

namespace Number

theorem pow2_pos (e : Int) : 0 < pow2 e :=
  Nat.pow_pos (by decide)

theorem nonneg_of_not_below_zero {x : Number} {n : Int} (hn : x.toInt? = some n)
    (h : x.below 0 = false) : 0 ≤ n := by
  cases x with
  | nan => simp [toInt?] at hn
  | infinite negative => simp [toInt?] at hn
  | finite negative m e =>
      simp only [toInt?] at hn
      split at hn
      · obtain rfl := Option.some.inj hn
        cases negative with
        | false => exact Int.natCast_nonneg _
        | true =>
            -- only a zero has a sign and is not below zero
            have hm : m = 0 := by
              simp only [below, signed, if_true, Int.zero_mul, decide_eq_false_iff_not,
                Int.not_lt] at h
              have hpow : (0 : Int) < pow2 e := Int.natCast_pos.2 (pow2_pos e)
              have := Int.nonneg_of_mul_nonneg_left h hpow
              omega
            simp [hm]
      · simp at hn

end Number

theorem Assoc.mem_of_get? {κ α : Type} [DecidableEq κ] {k : κ} {a : α} {es : List (κ × α)}
    (h : get? k es = some a) : (k, a) ∈ es := by
  induction es with
  | nil => simp [get?] at h
  | cons e es ih =>
      unfold get? at h
      split at h
      · rename_i hk
        obtain rfl := Option.some.inj h
        exact hk ▸ .head _
      · exact .tail _ (ih h)

namespace Founding

def kind : Founding → Genesis.Kind
  | .lightSwitch _ => .lightSwitch
  | .twoSwitches _ => .twoSwitches
  | .atm _ => .atm
  | .currency _ => .currency
  | .cash _ => .cash
  | .sumProduct _ => .sumProduct

def state : (f : Founding) → f.kind.State
  | .lightSwitch on => on
  | .twoSwitches s => s
  | .atm s => s
  | .currency s => s
  | .cash s => s
  | .sumProduct s => s

def Natural (f : Founding) : Prop :=
  f.kind.Natural f.state

end Founding

namespace Genesis

open Reading

theorem nonneg_of_readWord {j : Json} {n : Int} (h : (readWord j).result = .ok n) : 0 ≤ n := by
  obtain ⟨h, _⟩ := result_require.1 h
  cases j with
  | text s =>
      obtain ⟨s, _, hs⟩ := result_convert.1 h
      obtain rfl := Option.some.inj hs
      exact Int.natCast_nonneg _
  | number x =>
      obtain ⟨x, hx, hint⟩ := result_convert.1 h
      obtain ⟨_, hbelow⟩ := result_require.1 hx
      exact Number.nonneg_of_not_below_zero hint (by simpa using hbelow)
  | _ => simp at h

theorem nonneg_of_field {key : String} {fields : List (String × Json)} {n : Int}
    (h : (field key readWord fields).result = .ok n) : 0 ≤ n := by
  obtain ⟨j, _, h⟩ := result_field.1 h
  exact nonneg_of_readWord h

theorem natural_of_readAtm {j : Json} {s : Atm.State} (h : (readAtm j).result = .ok s) :
    0 ≤ s.cashInside := by
  obtain ⟨cash, hcash, hs⟩ := result_convert.1 h
  obtain ⟨fields, _, hcash⟩ := result_object.1 hcash
  obtain rfl := Option.some.inj hs
  exact nonneg_of_field hcash

theorem mem_openAccounts {entries : List (String × Int)} {n : Int}
    (hn : n ∈ (openAccounts entries).values) : n ≠ 0 ∧ ∃ user, (user, n) ∈ entries := by
  obtain ⟨account, haccount, rfl⟩ := List.mem_map.1 (Table.mem_values_of_ofList hn)
  obtain ⟨user, _, hopen⟩ := List.mem_filterMap.1 haccount
  split at hopen
  · rename_i amount hamount
    split at hopen
    · simp at hopen
    · rename_i hamount'
      obtain rfl := Option.some.inj hopen
      exact ⟨hamount', user, Assoc.mem_of_get? hamount⟩
  · simp at hopen

theorem solvent_openAccounts {entries : List (String × Int)} (h : ∀ e ∈ entries, 0 ≤ e.2) :
    Currency.Solvent (openAccounts entries) := by
  intro n hn
  obtain ⟨_, user, huser⟩ := mem_openAccounts hn
  exact h _ huser

theorem solvent_of_readBalances {j : Json} {s : Currency.Balances}
    (h : (readBalances j).result = .ok s) : Currency.Solvent s := by
  obtain ⟨entries, hentries, hs⟩ := result_convert.1 h
  obtain rfl := Option.some.inj hs
  refine solvent_openAccounts fun e he => ?_
  obtain ⟨x, hx⟩ := mem_record hentries he
  exact nonneg_of_readWord hx

theorem natural_of_readBill {j : Json} {b : Cash.Bill} (h : (readBill j).result = .ok b) :
    b.Natural := by
  obtain ⟨fields, _, h⟩ := result_object.1 h
  obtain ⟨owner, _, _, hnumbers, rfl⟩ := result_combine.1 h
  obtain ⟨amount, serial, hamount, hserial, rfl⟩ := result_combine.1 hnumbers
  exact ⟨nonneg_of_field hamount, nonneg_of_field hserial⟩

theorem natural_openCash {bills : List Cash.Bill} {nextSerial : Option Int}
    (hbills : ∀ b ∈ bills, b.Natural) (hnext : ∀ n, nextSerial = some n → 0 ≤ n) :
    Cash.Natural (openCash bills nextSerial) := by
  have hsorted : ∀ b ∈ Cash.sortBills bills, b.Natural :=
    fun b hb => hbills b (Sorting.mem_sort.1 hb)
  refine ⟨hsorted, ?_⟩
  cases nextSerial with
  | some n => exact hnext n rfl
  | none =>
      simp only [openCash, Option.getD_none, serialAfter]
      split
      · rename_i b hlast
        have hserial := (hsorted b (List.mem_of_getLast? hlast)).2
        omega
      · exact Int.le_refl 0

theorem natural_of_readCash {j : Json} {s : Cash.State} (h : (readCash j).result = .ok s) :
    Cash.Natural s := by
  obtain ⟨hopened, _⟩ := result_require.1 h
  obtain ⟨read, hrequired, hs⟩ := result_convert.1 hopened
  obtain rfl := Option.some.inj hs
  obtain ⟨hread, _⟩ := result_require.1 hrequired
  obtain ⟨fields, _, hparts⟩ := result_object.1 hread
  obtain ⟨bills, nextSerial, hbills, hnext, rfl⟩ := result_combine.1 hparts
  refine natural_openCash (fun b hb => ?_) ?_
  · obtain ⟨j, _, hbills⟩ := result_field.1 hbills
    obtain ⟨x, hx⟩ := mem_array hbills hb
    exact natural_of_readBill hx
  · rintro n rfl
    have hfield := result_optionalField.1 hnext
    split at hfield
    · simp at hfield
    · obtain ⟨m, hm, hx⟩ := hfield
      obtain rfl := Option.some.inj hm
      exact nonneg_of_readWord hx

theorem natural_of_readSumProduct {j : Json} {s : SumProduct.State}
    (h : (readSumProduct j).result = .ok s) : SumProduct.Natural s := by
  obtain ⟨fields, _, h⟩ := result_object.1 h
  obtain ⟨sum, product, hsum, hproduct, rfl⟩ := result_combine.1 h
  exact ⟨nonneg_of_field hsum, nonneg_of_field hproduct⟩

theorem natural_of_readState {k : Kind} {j : Json} {f : Founding}
    (h : (Kind.readState j k).result = .ok f) : f.Natural := by
  cases k <;> obtain ⟨s, hs, hf⟩ := result_convert.1 h <;> obtain rfl := Option.some.inj hf
  case lightSwitch => trivial
  case twoSwitches => trivial
  case atm => exact natural_of_readAtm hs
  case currency => exact solvent_of_readBalances hs
  case cash => exact natural_of_readCash hs
  case sumProduct => exact natural_of_readSumProduct hs

theorem parse_eq_ok_iff {j : Json} {g : Genesis} : parse j = .ok g ↔ (read j).result = .ok g := by
  unfold parse
  cases (read j).result <;> simp

theorem readState_of_parse {j : Json} {g : Genesis} (h : parse j = .ok g) :
    ∃ kind state, (Kind.readState state kind).result = .ok g.founding := by
  obtain ⟨fields, _, h⟩ := result_object.1 (parse_eq_ok_iff.1 h)
  split at h
  · simp at h
  rename_i named _
  simp only at h
  split at h
  · rename_i kind _
    obtain ⟨difficulty, founding, _, hstate, rfl⟩ := result_combine.1 h
    obtain ⟨state, _, hstate⟩ := result_field.1 hstate
    exact ⟨kind, state, hstate⟩
  · simp [result] at h

theorem natural_of_parse {j : Json} {g : Genesis} (h : parse j = .ok g) : g.founding.Natural := by
  obtain ⟨kind, state, hstate⟩ := readState_of_parse h
  exact natural_of_readState hstate

end Genesis

end BlockTree
