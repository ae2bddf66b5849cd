import BlockTree.Proofs.SafeChains
import Mathlib.Data.List.Forall2

namespace BlockTree

namespace Assoc

variable {κ α β : Type} [DecidableEq κ] {k : κ}

theorem get?_map_self {ks : List κ} {f : κ → α} (hk : k ∈ ks) :
    get? k (ks.map fun j => (j, f j)) = some (f k) := by
  induction ks with
  | nil => simp at hk
  | cons j ks ih =>
      rw [List.map_cons, get?]
      split
      · rename_i hj
        rw [← hj]
      · rename_i hj
        exact ih ((List.mem_cons.1 hk).resolve_left (Ne.symm hj))

theorem get?_filterMap_self {ks : List κ} {f : κ → Option α} :
    get? k (ks.filterMap fun j => (f j).map (j, ·)) = if k ∈ ks then f k else none := by
  induction ks with
  | nil => rfl
  | cons j ks ih =>
      by_cases hj : j = k
      · subst hj
        cases hf : f j with
        | none => simp [hf, ih]
        | some a => simp [hf, get?]
      · have hmem : k ∈ j :: ks ↔ k ∈ ks := by simp [Ne.symm hj]
        cases hf : f j with
        | none => simp only [List.filterMap_cons, hf, Option.map_none, ih, hmem]
        | some a => simp only [List.filterMap_cons, hf, Option.map_some, get?, hj, if_false, ih, hmem]

theorem get?_filter {es : List (κ × α)} {p : κ → Prop} [DecidablePred p] (hk : p k) :
    get? k (es.filter fun e => p e.1) = get? k es := by
  induction es with
  | nil => rfl
  | cons e es ih =>
      by_cases he : p e.1
      · simp only [List.filter_cons, he, decide_true, if_true, get?, ih]
      · have hne : e.1 ≠ k := fun heq => he (heq ▸ hk)
        simp only [List.filter_cons, he, decide_false, Bool.false_eq_true, if_false, get?, hne, ih]

theorem get?_of_forall₂ {R : α → β → Prop} {es : List (κ × α)} {fs : List (κ × β)}
    (h : List.Forall₂ (fun e f => f.1 = e.1 ∧ R e.2 f.2) es fs) (k : κ) :
    Option.Rel R (get? k es) (get? k fs) := by
  induction h with
  | nil => exact .none
  | cons hentry _ ih =>
      obtain ⟨hkey, hvalue⟩ := hentry
      rw [get?, get?, hkey]
      split
      · exact .some hvalue
      · exact ih

end Assoc

namespace Json

theorem get?_insert_fieldLe {α : Type} {k : String} {f : String × α} {fs : List (String × α)} :
    Assoc.get? k (Sorting.insert fieldLe f fs) = Assoc.get? k (f :: fs) := by
  induction fs with
  | nil => rfl
  | cons g fs ih =>
      rw [Sorting.insert]
      split
      · rfl
      · rename_i hle
        -- a field is never moved behind another one of its name
        have hne : f.1 ≠ g.1 := by
          intro heq
          refine hle ?_
          unfold fieldLe
          rw [heq]
          split <;> simp_all
        simp only [Assoc.get?, ih]
        by_cases hf : f.1 = k <;> by_cases hg : g.1 = k <;> simp_all

theorem get?_arrange {α : Type} (k : String) (fs : List (String × α)) :
    Assoc.get? k (arrange fs) = Assoc.get? k fs := by
  unfold arrange
  induction fs with
  | nil => rfl
  | cons f fs ih => rw [Sorting.sort, get?_insert_fieldLe, Assoc.get?, Assoc.get?, ih]

theorem mem_arrange {α : Type} {f : String × α} {fs : List (String × α)} :
    f ∈ arrange fs ↔ f ∈ fs :=
  Sorting.mem_sort

def get? (key : String) (j : Json) : Option Json :=
  j.fields?.bind (Assoc.get? key)

def Has {α : Type} (key : String) (Says : Json → α → Prop) (j : Json) (a : α) : Prop :=
  ∃ w, j.get? key = some w ∧ Says w a

def Optional (absent : Prop) (Says : Json → Prop) : Option Json → Prop
  | none => absent
  | some w => Says w

theorem Optional.imp {absent : Prop} {P Q : Json → Prop} (h : ∀ w, P w → Q w)
    {held : Option Json} (hheld : Optional absent P held) : Optional absent Q held := by
  cases held with
  | none => exact hheld
  | some w => exact h w hheld

theorem get?_of_fields {j : Json} {fields : List (String × Json)} (h : j.fields? = some fields)
    (key : String) : j.get? key = Assoc.get? key fields := by
  rw [get?, h]
  rfl

theorem exists_fields_of_entry? {j w : Json} {key : String} (h : j.get? key = some w) :
    ∃ fields, j.fields? = some fields :=
  have ⟨fields, hfields, _⟩ := Option.bind_eq_some_iff.1 h
  ⟨fields, hfields⟩

theorem Has.imp {α : Type} {key : String} {P Q : Json → α → Prop} (h : ∀ w a, P w a → Q w a)
    {j : Json} {a : α} (hj : j.Has key P a) : j.Has key Q a :=
  have ⟨w, hw, ha⟩ := hj
  ⟨w, hw, h w a ha⟩

end Json

namespace Reading

variable {α β γ κ : Type}

def Gives {δ : Type} (read : δ → Reading α) (j : δ) (a : α) : Prop :=
  (read j).result = .ok a

theorem Gives.unique {δ : Type} {read : δ → Reading α} {j : δ} {a b : α} (ha : Gives read j a)
    (hb : Gives read j b) : a = b :=
  Except.ok.inj (ha.symm.trans hb)

theorem value_of_choice {name : α → String} {options : List α} {j : Json} {a : α} :
    (choice name options j).value = some a ↔ (choice name options j).result = .ok a := by
  have hissues : ∀ b, (choice name options j).value = some b →
      (choice name options j).issues = [] := by
    intro b hb
    unfold choice at *
    simp only at *
    split at hb
    · split at hb
      · rfl
      · simp [misfit, refuse] at hb
    · simp [misfit, refuse] at hb
  rw [result_eq_ok_iff]
  exact ⟨fun h => ⟨h, hissues a h⟩, And.left⟩

theorem result_choice {name : α → String} (hname : Function.Injective name) {options : List α}
    {j : Json} {a : α} :
    (choice name options j).result = .ok a ↔ j = .text (name a) ∧ a ∈ options := by
  cases j with
  | text s =>
      rw [Json.text.injEq]
      simp only [choice]
      split
      · rename_i b hfound
        have hb : name b = s := by simpa using List.find?_some hfound
        rw [result_hold]
        constructor
        · rintro rfl
          exact ⟨hb.symm, List.mem_of_find?_eq_some hfound⟩
        · rintro ⟨hs, _⟩
          exact hname (hb.trans hs)
      · rename_i hfound
        simp only [result_misfit, false_iff]
        rintro ⟨rfl, ha⟩
        simpa using List.find?_eq_none.1 hfound a ha
  | _ => simp [choice]

theorem result_bool {j : Json} {b : Bool} : (bool j).result = .ok b ↔ j = .bool b := by
  cases j <;> simp [bool]

theorem result_items {read : Json → Reading α} {index : Nat} {xs : List Json} {as : List α} :
    (items read index xs).result = .ok as ↔ List.Forall₂ (Gives read) xs as := by
  induction xs generalizing index as with
  | nil => rw [items, result_hold, List.forall₂_nil_left_iff, eq_comm]
  | cons x xs ih =>
      simp only [items, result_combine, result_under, ih, List.forall₂_cons_left_iff]
      constructor
      · rintro ⟨a, as, ha, has, rfl⟩
        exact ⟨a, as, ha, has, rfl⟩
      · rintro ⟨a, as, ha, has, rfl⟩
        exact ⟨a, as, ha, has, rfl⟩

theorem result_array {read : Json → Reading α} {j : Json} {as : List α} :
    (array read j).result = .ok as ↔ ∃ xs, j = .array xs ∧ List.Forall₂ (Gives read) xs as := by
  cases j <;> simp [array, result_items]

theorem result_entries {readKey : Json → Reading κ} {read : Json → Reading α}
    {fields : List (String × Json)} {es : List (κ × α)} :
    (entries readKey read fields).result = .ok es ↔
      List.Forall₂ (fun f e => Gives readKey (.text f.1) e.1 ∧ Gives read f.2 e.2) fields es := by
  induction fields generalizing es with
  | nil => rw [entries, result_hold, List.forall₂_nil_left_iff, eq_comm]
  | cons f fields ih =>
      simp only [entries, result_combine, result_under, ih, List.forall₂_cons_left_iff]
      constructor
      · rintro ⟨e, es, ⟨k, a, hk, ha, rfl⟩, hes, rfl⟩
        exact ⟨(k, a), es, ⟨hk, ha⟩, hes, rfl⟩
      · rintro ⟨⟨k, a⟩, es, ⟨hk, ha⟩, hes, rfl⟩
        exact ⟨(k, a), es, ⟨k, a, hk, ha, rfl⟩, hes, rfl⟩

theorem gives_object_combine {f : α → β → γ} {r : List (String × Json) → Reading α}
    {s : List (String × Json) → Reading β} {j : Json} {c : γ} :
    Gives (object fun fields => combine f (r fields) (s fields)) j c ↔
      ∃ a b, Gives (object r) j a ∧ Gives (object s) j b ∧ f a b = c := by
  simp only [Gives, result_object, result_combine]
  constructor
  · rintro ⟨fields, hfields, a, b, ha, hb, rfl⟩
    exact ⟨a, b, ⟨fields, hfields, ha⟩, ⟨fields, hfields, hb⟩, rfl⟩
  · rintro ⟨a, b, ⟨fields, hfields, ha⟩, ⟨fields', hfields', hb⟩, rfl⟩
    obtain rfl := Option.some.inj (hfields.symm.trans hfields')
    exact ⟨fields, hfields, a, b, ha, hb, rfl⟩

theorem gives_object_field {key : String} {read : Json → Reading α} {j : Json} {a : α} :
    Gives (object (field key read)) j a ↔ j.Has key (Gives read) a := by
  simp only [Gives, result_object, result_field, Json.Has, Json.get?, Option.bind_eq_some_iff]
  constructor
  · rintro ⟨fields, hfields, w, hw, ha⟩
    exact ⟨w, ⟨fields, hfields, hw⟩, ha⟩
  · rintro ⟨w, ⟨fields, hfields, hw⟩, ha⟩
    exact ⟨fields, hfields, w, hw, ha⟩

theorem gives_optionalField {key : String} {read : Json → Reading α}
    {fields : List (String × Json)} {a : Option α} :
    (optionalField key read fields).result = .ok a ↔
      Json.Optional (a = none) (fun w => ∃ b, a = some b ∧ Gives read w b)
        (Assoc.get? key fields) := by
  rw [result_optionalField]
  cases Assoc.get? key fields <;> rfl

theorem gives_object_optionalField {key : String} {read : Json → Reading α} {j : Json}
    {a : Option α} : Gives (object (optionalField key read)) j a ↔
      (∃ fields, j.fields? = some fields) ∧
        Json.Optional (a = none) (fun w => ∃ b, a = some b ∧ Gives read w b) (j.get? key) := by
  simp only [Gives, result_object, gives_optionalField]
  constructor
  · rintro ⟨fields, hfields, ha⟩
    exact ⟨⟨fields, hfields⟩, by rwa [Json.get?_of_fields hfields]⟩
  · rintro ⟨⟨fields, hfields⟩, ha⟩
    exact ⟨fields, hfields, by rwa [Json.get?_of_fields hfields] at ha⟩

end Reading

namespace Genesis

open Reading

section Says

-- `Word` is what is said of an integer at the place where it stands
variable (Word : Json → Int → Prop)

structure SaysBill (j : Json) (b : Cash.Bill) : Prop where
  owner : j.get? "owner" = some (.text b.owner)
  user : b.owner ∈ users
  amount : j.Has "amount" Word b.amount
  serial : j.Has "serial" Word b.serial

def SaysBalance (n : Int) : Option Json → Prop :=
  Json.Optional (n = 0) (Word · n)

structure SaysBalances (j : Json) (s : Currency.Balances) : Prop where
  opened : s = openAccounts (users.map fun user => (user, s.balance user))
  balances : ∀ user ∈ users, SaysBalance Word (s.balance user) (j.get? user)
  listed : ∃ fields, j.fields? = some fields ∧
    ∀ f ∈ fields, f.1 ∉ Json.reservedNames → f.1 ∈ users ∧ ∃ n, Word f.2 n

def SaysBills (j : Json) (held : List Cash.Bill) : Prop :=
  ∃ items bills, j = .array items ∧ List.Forall₂ (SaysBill Word) items bills ∧ bills.Perm held

structure SaysCash (j : Json) (s : Cash.State) : Prop where
  bills : j.Has "bills" (SaysBills Word) s.bills
  nextSerial : Json.Optional (s.nextSerial = serialAfter s.bills) (Word · s.nextSerial)
    (j.get? "nextSerial")
  ordered : Cash.Ordered s

def SaysState (j : Json) : Founding → Prop
  | .lightSwitch on => j = .bool on
  | .twoSwitches s => j.get? "first" = some (.bool s.first) ∧
      j.get? "second" = some (.bool s.second)
  | .atm s => ∃ cash, j.Has "cashInside" Word cash ∧ s = Atm.fresh cash
  | .currency s => SaysBalances Word j s
  | .cash s => SaysCash Word j s
  | .sumProduct s => j.Has "sum" Word s.sum ∧ j.Has "product" Word s.product

def SaysDifficulty (difficulty : Option Difficulty) : Option Json → Prop :=
  Json.Optional (difficulty = none) fun w => ∃ d, difficulty = some d ∧ Gives readDifficulty w d

structure Says (j : Json) (g : Genesis) : Prop where
  machine : j.get? "machine" = some (.text g.founding.kind.name)
  difficulty : SaysDifficulty g.difficulty (j.get? "difficulty")
  state : j.Has "state" (SaysState Word) g.founding

end Says

section Imp

variable {P Q : Json → Int → Prop} (h : ∀ w n, P w n → Q w n) {j : Json}

include h

theorem SaysBill.imp {b : Cash.Bill} (hb : SaysBill P j b) : SaysBill Q j b where
  owner := hb.owner
  user := hb.user
  amount := hb.amount.imp h
  serial := hb.serial.imp h

theorem SaysBalances.imp {s : Currency.Balances} (hs : SaysBalances P j s) :
    SaysBalances Q j s where
  opened := hs.opened
  balances user huser := (hs.balances user huser).imp fun w => h w _
  listed :=
    have ⟨fields, hfields, hlisted⟩ := hs.listed
    ⟨fields, hfields, fun f hf hname =>
      have ⟨huser, n, hn⟩ := hlisted f hf hname
      ⟨huser, n, h _ n hn⟩⟩

theorem SaysCash.imp {s : Cash.State} (hs : SaysCash P j s) : SaysCash Q j s where
  bills := hs.bills.imp fun _ _ ⟨items, bills, hitems, hbills, hperm⟩ =>
    ⟨items, bills, hitems, hbills.imp fun _ _ hb => hb.imp h, hperm⟩
  nextSerial := hs.nextSerial.imp fun w => h w _
  ordered := hs.ordered

theorem SaysState.imp {f : Founding} (hf : SaysState P j f) : SaysState Q j f := by
  cases f with
  | lightSwitch on => exact hf
  | twoSwitches s => exact hf
  | atm s =>
      obtain ⟨cash, hcash, hs⟩ := hf
      exact ⟨cash, hcash.imp h, hs⟩
  | currency s => exact SaysBalances.imp h hf
  | cash s => exact SaysCash.imp h hf
  | sumProduct s => exact ⟨hf.1.imp h, hf.2.imp h⟩

theorem Says.imp {g : Genesis} (hg : Says P j g) : Says Q j g where
  machine := hg.machine
  difficulty := hg.difficulty
  state := hg.state.imp fun _ _ hf => hf.imp h

end Imp

variable {j : Json}

theorem gives_readUser {user : String} :
    Gives readUser j user ↔ j = .text user ∧ user ∈ users :=
  result_choice Function.injective_id

theorem gives_readSwitches {s : TwoSwitches.Switches} : Gives readSwitches j s ↔
    j.get? "first" = some (.bool s.first) ∧ j.get? "second" = some (.bool s.second) := by
  have hbool : ∀ key b, Gives (object (field key Reading.bool)) j b ↔
      j.get? key = some (.bool b) := by
    intro key b
    rw [gives_object_field]
    simp only [Json.Has, Gives, result_bool]
    exact ⟨fun ⟨w, hw, hb⟩ => hb ▸ hw, fun h => ⟨_, h, rfl⟩⟩
  unfold readSwitches
  rw [gives_object_combine]
  simp only [hbool]
  constructor
  · rintro ⟨first, second, hfirst, hsecond, rfl⟩
    exact ⟨hfirst, hsecond⟩
  · rintro ⟨hfirst, hsecond⟩
    exact ⟨s.first, s.second, hfirst, hsecond, rfl⟩

theorem gives_readSumProduct {s : SumProduct.State} : Gives readSumProduct j s ↔
    j.Has "sum" (Gives readWord) s.sum ∧ j.Has "product" (Gives readWord) s.product := by
  unfold readSumProduct
  rw [gives_object_combine]
  simp only [gives_object_field]
  constructor
  · rintro ⟨sum, product, hsum, hproduct, rfl⟩
    exact ⟨hsum, hproduct⟩
  · rintro ⟨hsum, hproduct⟩
    exact ⟨s.sum, s.product, hsum, hproduct, rfl⟩

theorem gives_readBill {b : Cash.Bill} :
    Gives readBill j b ↔ SaysBill (Gives readWord) j b := by
  unfold readBill
  rw [gives_object_combine]
  simp only [gives_object_combine, gives_object_field]
  constructor
  · rintro ⟨owner, _, ⟨w, hw, howner⟩, ⟨amount, serial, hamount, hserial, rfl⟩, rfl⟩
    obtain ⟨rfl, huser⟩ := gives_readUser.1 howner
    exact ⟨hw, huser, hamount, hserial⟩
  · intro h
    exact ⟨b.owner, (b.amount, b.serial), ⟨_, h.owner, gives_readUser.2 ⟨rfl, h.user⟩⟩,
      ⟨b.amount, b.serial, h.amount, h.serial, rfl⟩, rfl⟩

def amountOf (es : List (String × Int)) (user : String) : Int :=
  (Assoc.get? user es).getD 0

theorem openAccounts_eq (es : List (String × Int)) :
    openAccounts es = .ofList (users.filterMap fun user =>
      (if amountOf es user = 0 then none else some (amountOf es user)).map (user, ·)) := by
  unfold openAccounts
  congr 1
  refine List.filterMap_congr fun user _ => ?_
  unfold amountOf
  cases Assoc.get? user es with
  | none => rfl
  | some n => by_cases hn : n = 0 <;> simp [hn]

theorem openAccounts_congr {es fs : List (String × Int)}
    (h : ∀ user ∈ users, amountOf es user = amountOf fs user) :
    openAccounts es = openAccounts fs := by
  rw [openAccounts_eq, openAccounts_eq]
  congr 1
  refine List.filterMap_congr fun user huser => ?_
  rw [h user huser]

theorem balance_openAccounts {es : List (String × Int)} {user : String} (h : user ∈ users) :
    (openAccounts es).balance user = amountOf es user := by
  have hkeys : ∀ {held : String → Option Int} (ks : List String),
      ((ks.filterMap fun user => (held user).map (user, ·)).map Prod.fst).Sublist ks := by
    intro held ks
    induction ks with
    | nil => exact .slnil
    | cons k ks ih => cases hk : held k <;> simp [hk, ih, List.Sublist.cons]
  rw [Currency.Balances.balance, Table.get?, openAccounts_eq,
    Table.entries_ofList ((hkeys users).nodup (by decide)), Assoc.get?_filterMap_self, if_pos h]
  split
  · rename_i hzero
    exact hzero.symm
  · rfl

theorem SaysBalance.unique {held : Option Json} {m n : Int}
    (hm : SaysBalance (Gives readWord) m held) (hn : SaysBalance (Gives readWord) n held) :
    m = n := by
  cases held with
  | none => exact hm.trans hn.symm
  | some w => exact Gives.unique hm hn

theorem exists_forall₂_iff {α β : Type} {R : α → β → Prop} {xs : List α} :
    (∃ ys, List.Forall₂ R xs ys) ↔ ∀ x ∈ xs, ∃ y, R x y := by
  induction xs with
  | nil => exact ⟨fun _ => by simp, fun _ => ⟨[], .nil⟩⟩
  | cons x xs ih =>
      rw [List.forall_mem_cons, ← ih]
      constructor
      · rintro ⟨_, h⟩
        cases h with
        | cons hy hys => exact ⟨⟨_, hy⟩, _, hys⟩
      · rintro ⟨⟨y, hy⟩, ys, hys⟩
        exact ⟨y :: ys, .cons hy hys⟩

theorem notMem_reservedNames : ∀ user ∈ users, user ∉ Json.reservedNames := by
  decide

def listed (fields : List (String × Json)) : List (String × Json) :=
  (Json.arrange fields).filter fun f => f.1 ∉ Json.reservedNames

theorem mem_listed {fields : List (String × Json)} {f : String × Json} :
    f ∈ listed fields ↔ f ∈ fields ∧ f.1 ∉ Json.reservedNames := by
  rw [listed, List.mem_filter, Json.mem_arrange, decide_eq_true_iff]

theorem saysBalance_of_entries {fields : List (String × Json)} {es : List (String × Int)}
    (h : Gives (entries readUser readWord) (listed fields) es) {user : String}
    (huser : user ∈ users) :
    SaysBalance (Gives readWord) (amountOf es user) (Assoc.get? user fields) := by
  have hrel := Assoc.get?_of_forall₂ (R := Gives readWord)
    ((result_entries.1 h).imp fun f e h =>
      ⟨(Json.text.inj (gives_readUser.1 h.1).1).symm, h.2⟩) user
  rw [listed, Assoc.get?_filter (p := (· ∉ Json.reservedNames)) (notMem_reservedNames user huser),
    Json.get?_arrange] at hrel
  unfold amountOf
  revert hrel
  generalize Assoc.get? user fields = held
  generalize Assoc.get? user es = amount
  rintro (⟨hword⟩ | _)
  · exact hword
  · rfl

theorem gives_readBalances {s : Currency.Balances} :
    Gives readBalances j s ↔ SaysBalances (Gives readWord) j s := by
  have hread : Gives readBalances j s ↔ ∃ fields es, j.fields? = some fields ∧
      Gives (entries readUser readWord) (listed fields) es ∧ s = openAccounts es := by
    simp only [Gives, readBalances, record, result_convert, result_object, Option.some.injEq]
    exact ⟨fun ⟨es, ⟨fields, hfields, hes⟩, hs⟩ => ⟨fields, es, hfields, hes, hs.symm⟩,
      fun ⟨fields, es, hfields, hes, hs⟩ => ⟨es, ⟨fields, hfields, hes⟩, hs.symm⟩⟩
  rw [hread]
  constructor
  · rintro ⟨fields, es, hfields, hes, rfl⟩
    refine ⟨openAccounts_congr fun user huser => ?_, fun user huser => ?_, fields, hfields, ?_⟩
    · rw [← balance_openAccounts huser, amountOf, Assoc.get?_map_self huser]
      rfl
    · rw [balance_openAccounts huser, Json.get?_of_fields hfields]
      exact saysBalance_of_entries hes huser
    · intro f hf hname
      obtain ⟨e, hkey, hvalue⟩ := exists_forall₂_iff.1 ⟨es, result_entries.1 hes⟩ f
        (mem_listed.2 ⟨hf, hname⟩)
      obtain ⟨hkey, huser⟩ := gives_readUser.1 hkey
      exact ⟨Json.text.inj hkey ▸ huser, e.2, hvalue⟩
  · intro h
    obtain ⟨fields, hfields, hlisted⟩ := h.listed
    obtain ⟨es, hes⟩ := exists_forall₂_iff.2 fun f hf =>
      have ⟨hmem, hname⟩ := mem_listed.1 hf
      have ⟨huser, n, hn⟩ := hlisted f hmem hname
      show ∃ e : String × Int, Gives readUser (.text f.1) e.1 ∧ Gives readWord f.2 e.2 from
        ⟨(f.1, n), gives_readUser.2 ⟨rfl, huser⟩, hn⟩
    have hes := result_entries.2 hes
    refine ⟨fields, es, hfields, hes, h.opened.trans (openAccounts_congr fun user huser => ?_)⟩
    have hsaid := saysBalance_of_entries hes huser
    have hbalance := h.balances user huser
    rw [Json.get?_of_fields hfields] at hbalance
    rw [amountOf, Assoc.get?_map_self huser, Option.getD_some]
    exact SaysBalance.unique hbalance hsaid

theorem nodup_serials {s : Cash.State} (hs : Cash.Ordered s) :
    (s.bills.map Cash.Bill.serial).Nodup :=
  List.pairwise_map.2 (hs.rising.imp Int.ne_of_lt)

theorem sortBills_eq_of_ordered {bills : List Cash.Bill} {s : Cash.State} (hs : Cash.Ordered s)
    (h : bills.Perm s.bills) : Cash.sortBills bills = s.bills := by
  have hserials := nodup_serials hs
  refine List.Perm.eq_of_pairwise (fun a b ha hb hab hba => ?_) (Cash.sorted_sortBills bills)
    (hs.rising.imp Int.le_of_lt) ((Sorting.sort_perm ..).trans h)
  have ha : a ∈ s.bills := h.mem_iff.1 (Sorting.mem_sort.1 ha)
  exact List.inj_on_of_nodup_map hserials ha hb (Int.le_antisymm hab hba)

theorem gives_readCashFields {bills : List Cash.Bill} {next : Option Int} :
    Gives readCashFields j (bills, next) ↔
      (∃ items, j.get? "bills" = some (.array items) ∧
        List.Forall₂ (SaysBill (Gives readWord)) items bills) ∧
      Json.Optional (next = none) (fun w => ∃ n, next = some n ∧ Gives readWord w n)
        (j.get? "nextSerial") := by
  have hbills : ∀ bills, Gives (object (field "bills" (array readBill))) j bills ↔
      ∃ items, j.get? "bills" = some (.array items) ∧
        List.Forall₂ (SaysBill (Gives readWord)) items bills := by
    intro bills
    rw [gives_object_field]
    constructor
    · rintro ⟨w, hw, hread⟩
      obtain ⟨items, rfl, hitems⟩ := result_array.1 hread
      exact ⟨items, hw, hitems.imp fun _ _ => gives_readBill.1⟩
    · rintro ⟨items, hw, hitems⟩
      exact ⟨_, hw, result_array.2 ⟨items, rfl, hitems.imp fun _ _ => gives_readBill.2⟩⟩
  unfold readCashFields
  rw [gives_object_combine]
  simp only [hbills, gives_object_optionalField, Prod.mk.injEq]
  constructor
  · rintro ⟨_, _, hitems, ⟨_, hnext⟩, rfl, rfl⟩
    exact ⟨hitems, hnext⟩
  · rintro ⟨⟨items, hw, hitems⟩, hnext⟩
    exact ⟨bills, next, ⟨items, hw, hitems⟩, ⟨Json.exists_fields_of_entry? hw, hnext⟩, rfl, rfl⟩

theorem gives_readCash {s : Cash.State} :
    Gives readCash j s ↔ SaysCash (Gives readWord) j s := by
  constructor
  · intro h
    have hordered := ordered_of_readCash h
    obtain ⟨hopened, _⟩ := result_require.1 h
    obtain ⟨⟨bills, next⟩, hrequired, hs⟩ := result_convert.1 hopened
    obtain ⟨⟨items, hw, hitems⟩, hnext⟩ := gives_readCashFields.1 (result_require.1 hrequired).1
    obtain rfl := Option.some.inj hs
    refine ⟨⟨_, hw, items, bills, rfl, hitems, (Sorting.sort_perm ..).symm⟩, ?_, hordered⟩
    cases hentry : j.get? "nextSerial" with
    | none =>
        rw [hentry] at hnext
        obtain rfl : next = none := hnext
        exact rfl
    | some w =>
        rw [hentry] at hnext
        obtain ⟨n, rfl, hn⟩ := hnext
        exact hn
  · intro h
    obtain ⟨_, hw, items, bills, rfl, hitems, hperm⟩ := h.bills
    have hsorted := sortBills_eq_of_ordered h.ordered hperm
    have hnodup : (bills.map Cash.Bill.serial).Nodup :=
      (hperm.map _).nodup_iff.2 (nodup_serials h.ordered)
    obtain ⟨next, hread, hopen⟩ : ∃ next, Gives readCashFields j (bills, next) ∧
        openCash bills next = s := by
      have hnext := h.nextSerial
      cases hentry : j.get? "nextSerial" with
      | none =>
          rw [hentry] at hnext
          have hnext : s.nextSerial = serialAfter s.bills := hnext
          refine ⟨none, gives_readCashFields.2 ⟨⟨items, hw, hitems⟩, by rw [hentry]; rfl⟩, ?_⟩
          simp only [openCash, hsorted, Option.getD_none, ← hnext]
      | some w =>
          rw [hentry] at hnext
          refine ⟨some s.nextSerial, gives_readCashFields.2 ⟨⟨items, hw, hitems⟩, ?_⟩, ?_⟩
          · rw [hentry]
            exact ⟨_, rfl, hnext⟩
          · simp only [openCash, hsorted, Option.getD_some]
    refine result_require.2 ⟨result_convert.2 ⟨(bills, next), ?_, congrArg some hopen⟩, ?_⟩
    · exact result_require.2 ⟨hread, decide_eq_true hnodup⟩
    · exact List.all_eq_true.2 fun b hb => decide_eq_true (h.ordered.below b hb)

theorem gives_readAtm {s : Atm.State} : Gives readAtm j s ↔
    ∃ cash, j.Has "cashInside" (Gives readWord) cash ∧ s = Atm.fresh cash := by
  have hcash : ∀ cash, (object (field "cashInside" readWord) j).result = .ok cash ↔
      j.Has "cashInside" (Gives readWord) cash := fun _ => gives_object_field
  unfold Gives readAtm
  rw [result_convert]
  simp only [hcash, Option.some.injEq, eq_comm (b := s)]
  rfl

theorem gives_readState {k : Kind} {f : Founding} :
    Gives (Kind.readState · k) j f ↔ f.kind = k ∧ SaysState (Gives readWord) j f := by
  have hconvert : ∀ {α : Type} {r : Reading α} {opened : α → Founding},
      (r.convert fun s => some (opened s)).result = .ok f ↔
        ∃ s, r.result = .ok s ∧ opened s = f := by
    simp [result_convert]
  cases k <;> simp only [Gives, Kind.readState, hconvert] <;> constructor
  case lightSwitch.mp => rintro ⟨s, hs, rfl⟩; exact ⟨rfl, result_bool.1 hs⟩
  case twoSwitches.mp => rintro ⟨s, hs, rfl⟩; exact ⟨rfl, gives_readSwitches.1 hs⟩
  case atm.mp => rintro ⟨s, hs, rfl⟩; exact ⟨rfl, gives_readAtm.1 hs⟩
  case currency.mp => rintro ⟨s, hs, rfl⟩; exact ⟨rfl, gives_readBalances.1 hs⟩
  case cash.mp => rintro ⟨s, hs, rfl⟩; exact ⟨rfl, gives_readCash.1 hs⟩
  case sumProduct.mp => rintro ⟨s, hs, rfl⟩; exact ⟨rfl, gives_readSumProduct.1 hs⟩
  all_goals
    rintro ⟨hkind, hs⟩
    cases f <;> cases hkind
    refine ⟨_, ?_, rfl⟩
  case lightSwitch => exact result_bool.2 hs
  case twoSwitches => exact gives_readSwitches.2 hs
  case atm => exact gives_readAtm.2 hs
  case currency => exact gives_readBalances.2 hs
  case cash => exact gives_readCash.2 hs
  case sumProduct => exact gives_readSumProduct.2 hs

theorem Kind.name_injective : Function.Injective Kind.name := by
  intro k k' h
  cases k <;> cases k' <;> first | rfl | exact absurd h (by decide)

theorem Kind.mem_all (k : Kind) : k ∈ all := by
  cases k <;> decide

theorem gives_machine {k : Kind} :
    (choice Kind.name Kind.all j).value = some k ↔ j = .text k.name := by
  rw [value_of_choice, result_choice Kind.name_injective]
  exact and_iff_left k.mem_all

theorem result_ofFields {k : Kind} {fields : List (String × Json)} {g : Genesis}
    (hfields : j.fields? = some fields) : (ofFields k fields).result = .ok g ↔
      SaysDifficulty g.difficulty (j.get? "difficulty") ∧
      g.founding.kind = k ∧ j.Has "state" (SaysState (Gives readWord)) g.founding := by
  unfold ofFields
  simp only [result_combine, gives_optionalField, result_field, Json.Has, SaysDifficulty,
    Json.get?_of_fields hfields]
  constructor
  · rintro ⟨difficulty, founding, hdifficulty, ⟨w, hw, hstate⟩, rfl⟩
    obtain ⟨hkind, hsaid⟩ := gives_readState.1 hstate
    exact ⟨hdifficulty, hkind, w, hw, hsaid⟩
  · rintro ⟨hdifficulty, hkind, w, hw, hsaid⟩
    exact ⟨g.difficulty, g.founding, hdifficulty, ⟨w, hw, gives_readState.2 ⟨hkind, hsaid⟩⟩, rfl⟩

theorem parse_eq_ok_iff_said {g : Genesis} :
    parse j = .ok g ↔ Says (Gives readWord) j g := by
  rw [parse_eq_ok_iff, read, result_object]
  constructor
  · rintro ⟨fields, hfields, h⟩
    split at h
    · simp at h
    rename_i w hw
    simp only at h
    split at h
    · rename_i k hk
      obtain ⟨hdifficulty, rfl, hstate⟩ := (result_ofFields hfields).1 h
      refine ⟨?_, hdifficulty, hstate⟩
      rw [Json.get?_of_fields hfields, hw, gives_machine.1 hk]
    · simp [result] at h
  · intro h
    obtain ⟨fields, hfields⟩ := Json.exists_fields_of_entry? h.machine
    have hmachine := h.machine
    rw [Json.get?_of_fields hfields] at hmachine
    refine ⟨fields, hfields, ?_⟩
    simp only [hmachine, gives_machine.2 rfl]
    exact (result_ofFields hfields).2 ⟨h.difficulty, rfl, h.state⟩

end Genesis

end BlockTree
