import BlockTree.Proofs.Encodability
import BlockTree.Proofs.MachineEncoding
import BlockTree.Proofs.Reading
import BlockTree.Proofs.Spending

namespace BlockTree

namespace Table

variable {κ α : Type} [DecidableEq κ] {t : Table κ α}

theorem mem_values_iff {a : α} : a ∈ t.values ↔ ∃ k, t.get? k = some a := by
  simp only [values, List.mem_map, get?_eq_some_iff]
  constructor
  · rintro ⟨e, he, rfl⟩
    exact ⟨e.1, he⟩
  · rintro ⟨k, hk⟩
    exact ⟨(k, a), hk, rfl⟩

theorem mem_values_of_set {k : κ} {a b : α} (h : b ∈ (t.set k a).values) : b = a ∨ b ∈ t.values := by
  obtain ⟨j, hj⟩ := mem_values_iff.1 h
  rw [get?_set] at hj
  split at hj
  · exact .inl (Option.some.inj hj).symm
  · exact .inr (mem_values_iff.2 ⟨j, hj⟩)

theorem mem_values_of_erase {k : κ} {b : α} (h : b ∈ (t.erase k).values) : b ∈ t.values := by
  obtain ⟨j, hj⟩ := mem_values_iff.1 h
  rw [get?_erase] at hj
  split at hj
  · simp at hj
  · exact mem_values_iff.2 ⟨j, hj⟩

theorem mem_values_of_foldl_set {es : List (κ × α)} {b : α}
    (h : b ∈ (es.foldl (fun t e => t.set e.1 e.2) t).values) :
    b ∈ t.values ∨ b ∈ es.map Prod.snd := by
  induction es generalizing t with
  | nil => exact .inl h
  | cons e es ih =>
      rcases ih h with h | h
      · rcases mem_values_of_set h with rfl | h
        · exact .inr (.head _)
        · exact .inl h
      · exact .inr (.tail _ h)

theorem mem_values_of_ofList {es : List (κ × α)} {b : α} (h : b ∈ (ofList es).values) :
    b ∈ es.map Prod.snd :=
  (mem_values_of_foldl_set h).resolve_left (by simp [empty, values])

end Table

namespace Atm

theorem cashInside_nonneg_next {s : State} (hs : 0 ≤ s.cashInside) (a : Action) :
    0 ≤ (next s a).cashInside := by
  have henter : 0 ≤ (enter s).cashInside := by
    unfold enter
    split
    · exact hs
    · exact hs
    · simp only
      split
      · omega
      · exact hs
  cases a with
  | swipeCard pinHash =>
      simp only [next]
      split <;> exact hs
  | pressKey k =>
      simp only [next, press]
      split
      · exact hs
      · exact henter
      · exact hs

theorem not_flaw_stateValue {s : State} (hs : 0 ≤ s.cashInside) (fault : Fault) :
    ¬(stateValue s).Flaw fault := by
  have hstage : ¬(stageValue s.stage).Flaw fault := by cases s.stage <;> simp [stageValue]
  have hkeys : ¬(keysValue s.keystrokes).Flaw fault := by simp [keysValue]
  simp [stateValue, hstage, hkeys, Int.not_lt.2 hs]

end Atm

namespace Currency

def Solvent (s : Balances) : Prop :=
  ∀ n ∈ s.values, 0 ≤ n

variable {s s' : Balances}

theorem Solvent.held (hs : Solvent s) {user : String} {n : Int} (h : s.get? user = some n) : 0 ≤ n :=
  hs n (Table.mem_values_iff.2 ⟨user, h⟩)

theorem Solvent.balance (hs : Solvent s) (user : String) : 0 ≤ s.balance user := by
  unfold Balances.balance
  cases h : s.get? user with
  | none => exact Int.le_refl 0
  | some n => exact hs.held h

theorem Solvent.withBalance (hs : Solvent s) (user : String) {n : Int} (hn : 0 ≤ n) :
    Solvent (s.withBalance user n) := by
  intro m hm
  unfold Balances.withBalance at hm
  split at hm
  · exact hs m (Table.mem_values_of_erase hm)
  · rcases Table.mem_values_of_set hm with rfl | hm
    · exact hn
    · exact hs m hm

theorem Solvent.credit (hs : Solvent s) (user : String) {n : Int} (hn : 0 ≤ n) :
    Solvent (s.credit user n) :=
  hs.withBalance user (Int.add_nonneg (hs.balance user) hn)

theorem Solvent.transfer (hs : Solvent s) {sender receiver : String} {n : Int} (hn : 0 ≤ n)
    (h : transfer s sender receiver n = .ok s') : Solvent s' := by
  unfold Currency.transfer at h
  split at h
  · simp at h
  rename_i held hheld
  split at h
  · simp at h
  split at h
  · cases h
    exact hs
  · cases h
    exact (hs.withBalance sender (by omega)).credit receiver hn

theorem Solvent.burn (hs : Solvent s) {burner : String} {n : Int}
    (h : burn s burner n = .ok s') : Solvent s' := by
  unfold Currency.burn at h
  split at h
  · simp at h
  · cases h
    refine hs.withBalance burner ?_
    split <;> omega

theorem Solvent.step (hs : Solvent s) {t : Transaction} (h : step s t = .ok s') : Solvent s' := by
  unfold Currency.step at h
  split at h
  · simp at h
  rename_i hpositive
  have hn : 0 ≤ t.amount := by omega
  split at h
  · cases h
    exact hs.credit _ hn
  · exact hs.burn h
  · exact hs.transfer hn h

theorem not_flaw_stateValue (hs : Solvent s) (fault : Fault) : ¬(stateValue s).Flaw fault := by
  intro h
  obtain ⟨e, he, h⟩ := Value.flaw_dict_iff.1 h
  obtain ⟨⟨user, n⟩, hmem, rfl⟩ := List.mem_map.1 he
  rcases h with h | h
  · exact Value.not_flaw_text h
  · exact absurd (Value.flaw_integer_iff.1 h).1 (Int.not_lt.2 (hs n (List.mem_map_of_mem hmem)))

end Currency

namespace Cash

def Bill.amounts (b : Bill) : List Int :=
  [b.amount, b.serial]

def Transaction.amounts : Transaction → List Int
  | .mint _ amount => [amount]
  | .transfer spends receives => (spends ++ receives).flatMap Bill.amounts

def Bill.Natural (b : Bill) : Prop :=
  0 ≤ b.amount ∧ 0 ≤ b.serial

structure Natural (s : State) : Prop where
  bills : ∀ b ∈ s.bills, b.Natural
  nextSerial : 0 ≤ s.nextSerial

theorem flaw_billValue_iff {b : Bill} {fault : Fault} :
    (billValue b).Flaw fault ↔ ∃ n ∈ b.amounts, n < 0 ∧ fault = .negativeInteger n := by
  simp [billValue, Bill.amounts]

theorem flaw_billsValue_iff {bs : List Bill} {fault : Fault} :
    (billsValue bs).Flaw fault ↔
      ∃ n ∈ bs.flatMap Bill.amounts, n < 0 ∧ fault = .negativeInteger n := by
  simp only [billsValue, Value.flaw_list_map_iff, flaw_billValue_iff, List.mem_flatMap]
  exact ⟨fun ⟨b, hb, n, hn, h⟩ => ⟨n, ⟨b, hb, hn⟩, h⟩, fun ⟨n, ⟨b, hb, hn⟩, h⟩ => ⟨b, hb, n, hn, h⟩⟩

theorem flaw_transactionValue_iff {t : Transaction} {fault : Fault} :
    (transactionValue t).Flaw fault ↔ ∃ n ∈ t.amounts, n < 0 ∧ fault = .negativeInteger n := by
  cases t with
  | mint minter amount => simp [transactionValue, Transaction.amounts]
  | transfer spends receives =>
      simp [transactionValue, Transaction.amounts, flaw_billsValue_iff, or_and_right, exists_or]

theorem not_flaw_stateValue {s : State} (hs : Natural s) (fault : Fault) :
    ¬(stateValue s).Flaw fault := by
  have hbills : ¬(billsValue s.bills).Flaw fault := by
    rw [flaw_billsValue_iff]
    rintro ⟨n, hn, hneg, _⟩
    obtain ⟨b, hb, hn⟩ := List.mem_flatMap.1 hn
    obtain ⟨hamount, hserial⟩ := hs.bills b hb
    simp only [Bill.amounts, List.mem_cons, List.not_mem_nil, or_false] at hn
    omega
  simp [stateValue, hbills, Int.not_lt.2 hs.nextSerial]

theorem Natural.mint {s s' : State} (hs : Natural s) {minter : String} {amount : Int}
    (h : mint s minter amount = .ok s') : Natural s' := by
  unfold Cash.mint at h
  split at h
  · simp at h
  cases h
  refine ⟨fun b hb => ?_, Int.add_nonneg hs.nextSerial (by decide)⟩
  rcases List.mem_append.1 (Sorting.mem_sort.1 hb) with hb | hb
  · exact hs.bills b hb
  · obtain rfl := List.mem_singleton.1 hb
    exact ⟨by simp only; omega, hs.nextSerial⟩

theorem Natural.transfer {s s' : State} (hs : Natural s) {spends receives : List Bill}
    (h : transfer s spends receives = .ok s') : Natural s' := by
  obtain ⟨hcleared, rfl⟩ := transfer_eq_ok_iff.1 h
  have hnext := hs.nextSerial
  refine ⟨fun b hb => ?_, by simp only; omega⟩
  rcases List.mem_append.1 (Sorting.mem_sort.1 hb) with hb | hb
  · have hheld := Table.mem_values_of_ofList (Table.mem_values_of_without hb)
    simp only [List.map_map, List.mem_map] at hheld
    obtain ⟨c, hc, rfl⟩ := hheld
    exact hs.bills c hc
  · have hpositive := hcleared.positive b hb
    have hserial := (hcleared.numbered.range hb).1
    exact ⟨by omega, by omega⟩

theorem Natural.step {s s' : State} (hs : Natural s) {t : Transaction} (h : step s t = .ok s') :
    Natural s' := by
  cases t with
  | mint minter amount => exact hs.mint h
  | transfer spends receives => exact hs.transfer h

end Cash

namespace SumProduct

structure Natural (s : State) : Prop where
  sum : 0 ≤ s.sum
  product : 0 ≤ s.product

theorem Natural.step {s s' : State} (hs : Natural s) {x : Int} (h : step s x = .ok s') :
    Natural s' := by
  obtain ⟨hx, _, _, rfl⟩ := step_eq_ok_iff.1 h
  exact ⟨Int.add_nonneg hs.sum hx, Int.mul_nonneg hs.product hx⟩

theorem not_flaw_stateValue {s : State} (hs : Natural s) (fault : Fault) :
    ¬(machine.stateValue s).Flaw fault := by
  simp [machine, Int.not_lt.2 hs.sum, Int.not_lt.2 hs.product]

end SumProduct

namespace Genesis.Kind

def amounts : (k : Kind) → k.Extrinsic → List Int
  | lightSwitch, _ => []
  | twoSwitches, _ => []
  | atm, _ => []
  | currency, t => [t.amount]
  | cash, t => t.amounts
  | sumProduct, x => [x]

def Natural : (k : Kind) → k.State → Prop
  | lightSwitch, _ => True
  | twoSwitches, _ => True
  | atm, s => 0 ≤ s.cashInside
  | currency, s => Currency.Solvent s
  | cash, s => Cash.Natural s
  | sumProduct, s => SumProduct.Natural s

theorem flaw_extrinsicValue_iff (k : Kind) (x : k.Extrinsic) (fault : Fault) :
    (k.machine.extrinsicValue x).Flaw fault ↔
      ∃ n ∈ k.amounts x, n < 0 ∧ fault = .negativeInteger n := by
  cases k with
  | lightSwitch => simp [machine, LightSwitch.machine, amounts]
  | twoSwitches => simp [machine, TwoSwitches.machine, amounts]
  | atm => cases x <;> simp [machine, Atm.machine, Atm.actionValue, amounts]
  | currency =>
      cases x <;> simp [machine, Currency.machine, Currency.transactionValue, amounts,
        Currency.Transaction.amount]
  | cash => exact Cash.flaw_transactionValue_iff
  | sumProduct => simp [machine, SumProduct.machine, amounts]

theorem not_flaw_stateValue {k : Kind} {s : k.State} (hs : k.Natural s) (fault : Fault) :
    ¬(k.machine.stateValue s).Flaw fault := by
  cases k with
  | lightSwitch => exact Value.not_flaw_bool
  | twoSwitches => simp [machine, TwoSwitches.machine]
  | atm => exact Atm.not_flaw_stateValue hs fault
  | currency => exact Currency.not_flaw_stateValue hs fault
  | cash => exact Cash.not_flaw_stateValue hs fault
  | sumProduct => exact SumProduct.not_flaw_stateValue hs fault

theorem Natural.step {k : Kind} {s s' : k.State} {x : k.Extrinsic} (hs : k.Natural s)
    (h : k.machine.step s x = .ok s') : k.Natural s' := by
  cases k with
  | lightSwitch => trivial
  | twoSwitches => trivial
  | atm =>
      cases h
      exact Atm.cashInside_nonneg_next hs x
  | currency => exact Currency.Solvent.step hs h
  | cash => exact Cash.Natural.step hs h
  | sumProduct => exact SumProduct.Natural.step hs h

theorem exists_stateRoot {k : Kind} {s : k.State} (hs : k.Natural s) :
    ∃ root, k.machine.stateRoot s = .ok root := by
  obtain ⟨b, hb⟩ := Value.exists_encode_iff.2 (not_flaw_stateValue hs)
  have hbytes : k.machine.stateBytes s = .ok b := by
    rw [Machine.stateBytes, k.faithful.encodeState_eq]
    exact hb
  exact ⟨_, Machine.stateRoot_eq_ok_iff.2 ⟨b, hbytes, rfl⟩⟩

theorem negative_of_bodyRoot {k : Kind} {body : List k.Extrinsic} {fault : Fault}
    (h : k.machine.bodyRoot body = .error fault) :
    ∃ x ∈ body, ∃ n ∈ k.amounts x, n < 0 ∧ fault = .negativeInteger n := by
  obtain ⟨v, hv, hflaw⟩ := Commitment.flaw_of_bodyRoot h
  obtain ⟨x, hx, rfl⟩ := List.mem_map.1 hv
  exact ⟨x, hx, (flaw_extrinsicValue_iff k x fault).1 hflaw⟩

theorem bodyRoot_of_negative {k : Kind} {body : List k.Extrinsic} {x : k.Extrinsic} {n : Int}
    (hx : x ∈ body) (hn : n ∈ k.amounts x) (hneg : n < 0) :
    ∃ fault, k.machine.bodyRoot body = .error fault :=
  Commitment.bodyRoot_of_flaw (List.mem_map_of_mem hx)
    ((flaw_extrinsicValue_iff k x _).2 ⟨n, hn, hneg, rfl⟩)

end Genesis.Kind

end BlockTree
