import BlockTree.Proofs.WrittenIntegers
import Mathlib.Data.List.Perm.Basic

namespace BlockTree

theorem spells_toString (n : Nat) : Spells (toString n) n :=
  ⟨0, by simp [Nat.toString_eq_repr, Nat.repr]⟩

theorem toString_injective : Function.Injective (toString : Nat → String) := by
  intro m n h
  exact (spells_toString m).unique (h ▸ spells_toString n)

namespace Json

theorem keys_itemFields (index : Nat) (xs : List Json) :
    (itemFields index xs).map Prod.fst = (List.range' index xs.length).map toString := by
  induction xs generalizing index with
  | nil => rfl
  | cons x xs ih => simp [itemFields, ih, List.range'_succ]

theorem nodup_itemFields (index : Nat) (xs : List Json) :
    ((itemFields index xs).map Prod.fst).Nodup := by
  rw [keys_itemFields]
  exact List.Nodup.map toString_injective List.nodup_range'

end Json

namespace Genesis

open Reading

inductive WritesWord : Json → Nat → Prop
  | text {s : String} {n : Nat} : Spells s n → WritesWord (.text s) n
  | number {x : Number} {n : Nat} : x.toInt? = some n → n ≤ Number.maxSafe →
      WritesWord (.number x) n

inductive Place where
  | plain
  | word
  | bill
  | bills
  | atm
  | balances
  | cash
  | sumProduct
  | document (k : Kind)

def Kind.place : Kind → Place
  | lightSwitch => .plain
  | twoSwitches => .plain
  | atm => .atm
  | currency => .balances
  | cash => .cash
  | sumProduct => .sumProduct

namespace Place

def field : Place → String → Place
  | bill, key => if key = "amount" ∨ key = "serial" then word else plain
  | atm, key => if key = "cashInside" then word else plain
  | balances, key => if key ∈ users then word else plain
  | cash, key => if key = "bills" then bills else if key = "nextSerial" then word else plain
  | sumProduct, key => if key = "sum" ∨ key = "product" then word else plain
  | document k, key => if key = "state" then k.place else plain
  | _, _ => plain

def Omits : Place → String → Json → Prop
  | balances, key, w => key ∈ users ∧ WritesWord w 0
  | _, _, _ => False

end Place

mutual

inductive Alike : Place → Json → Json → Prop
  | same {p : Place} (j : Json) : Alike p j j
  | word {a b : Json} {n : Nat} : WritesWord a n → WritesWord b n → Alike .word a b
  | array {p : Place} {xs ys : List Json} : p ≠ .bills → List.Forall₂ (Alike .plain) xs ys →
      Alike p (.array xs) (.array ys)
  | bills {xs ys zs : List Json} : xs.Perm zs → List.Forall₂ (Alike .bill) zs ys →
      Alike .bills (.array xs) (.array ys)
  | object {p : Place} {fs gs : List (String × Json)} :
      (fs.map Prod.fst).Nodup → (gs.map Prod.fst).Nodup →
      (∀ key, AlikeAt p key (Assoc.get? key fs) (Assoc.get? key gs)) →
      Alike p (.object fs) (.object gs)

inductive AlikeAt : Place → String → Option Json → Option Json → Prop
  | absent {p : Place} {key : String} : AlikeAt p key none none
  | present {p : Place} {key : String} {a b : Json} : Alike (p.field key) a b →
      AlikeAt p key (some a) (some b)
  | leftOut {p : Place} {key : String} {a : Json} : p.Omits key a → AlikeAt p key (some a) none
  | listed {p : Place} {key : String} {b : Json} : p.Omits key b → AlikeAt p key none (some b)

end

section Alike

variable {p : Place} {key : String} {a b : Json}

theorem Place.field_of_isDigits (h : Config.isDigits key = true) : p.field key = .plain := by
  have hne : ∀ {name}, Config.isDigits name = false → key ≠ name := by
    rintro name hname rfl
    simp [h] at hname
  have hnames : ∀ user ∈ users, Config.isDigits user = false := by decide
  have husers : key ∉ users := fun hmem => hne (hnames key hmem) rfl
  cases p <;> simp only [field, husers, if_false, ite_eq_right_iff]
  case bill => rintro (rfl | rfl) <;> exact absurd h (by decide)
  case sumProduct => rintro (rfl | rfl) <;> exact absurd h (by decide)
  case atm => rintro rfl; exact absurd h (by decide)
  case document => rintro rfl; exact absurd h (by decide)
  case cash => rw [if_neg (hne (by decide)), if_neg (hne (by decide))]

theorem AlikeAt.refl (p : Place) (key : String) (held : Option Json) : AlikeAt p key held held := by
  cases held with
  | none => exact .absent
  | some j => exact .present (.same j)

theorem get?_of_notMem {fs : List (String × Json)} (h : key ∉ fs.map Prod.fst) :
    Assoc.get? key fs = none := by
  induction fs with
  | nil => rfl
  | cons f fs ih =>
      rw [List.map_cons, List.mem_cons, not_or] at h
      rw [Assoc.get?, if_neg (Ne.symm h.1), ih h.2]

theorem AlikeAt.of_names {fs gs : List (String × Json)}
    (hnames : ∀ key ∈ gs.map Prod.fst, key ∈ fs.map Prod.fst)
    (h : ∀ key ∈ fs.map Prod.fst, AlikeAt p key (Assoc.get? key fs) (Assoc.get? key gs))
    (key : String) : AlikeAt p key (Assoc.get? key fs) (Assoc.get? key gs) := by
  by_cases hkey : key ∈ fs.map Prod.fst
  · exact h key hkey
  · rw [get?_of_notMem hkey, get?_of_notMem fun hmem => hkey (hnames key hmem)]
    exact .absent

theorem alikeAt_itemFields {xs ys : List Json} (h : List.Forall₂ (Alike .plain) xs ys)
    (index : Nat) : AlikeAt p key (Assoc.get? key (Json.itemFields index xs))
      (Assoc.get? key (Json.itemFields index ys)) := by
  induction h generalizing index with
  | nil => exact .absent
  | cons hxy _ ih =>
      simp only [Json.itemFields, Assoc.get?]
      split
      · rename_i hkey
        refine .present ?_
        rw [Place.field_of_isDigits (hkey ▸ (spells_iff.1 (spells_toString index)).1)]
        exact hxy
      · exact ih (index + 1)

theorem Alike.fields (h : Alike p a b) (hp : p ≠ .bills) :
    a = b ∨ (a.fields? = none ∧ b.fields? = none) ∨ ∃ fs gs,
      a.fields? = some fs ∧ b.fields? = some gs ∧ (fs.map Prod.fst).Nodup ∧
        (gs.map Prod.fst).Nodup ∧ ∀ key, AlikeAt p key (Assoc.get? key fs) (Assoc.get? key gs) := by
  cases h with
  | same => exact .inl rfl
  | word ha hb => cases ha <;> cases hb <;> exact .inr (.inl ⟨rfl, rfl⟩)
  | array _ hitems =>
      exact .inr (.inr ⟨_, _, rfl, rfl, Json.nodup_itemFields 0 _, Json.nodup_itemFields 0 _,
        fun _ => alikeAt_itemFields hitems 0⟩)
  | bills => exact absurd rfl hp
  | object hfs hgs hfields => exact .inr (.inr ⟨_, _, rfl, rfl, hfs, hgs, hfields⟩)

theorem Alike.entry (h : Alike p a b) (hp : p ≠ .bills) (key : String) :
    AlikeAt p key (a.get? key) (b.get? key) := by
  rcases h.fields hp with rfl | ⟨ha, hb⟩ | ⟨fs, gs, ha, hb, _, _, hfields⟩
  · exact .refl p key _
  · rw [Json.get?, Json.get?, ha, hb]
    exact .absent
  · rw [Json.get?_of_fields ha, Json.get?_of_fields hb]
    exact hfields key

theorem Alike.leaf_iff (h : Alike p a b) (hp : p ≠ .word) (Says : Json → Prop)
    (hleaf : ∀ j, Says j → j.fields? = none) : Says a ↔ Says b := by
  have hcontainer : ∀ {j fields}, j.fields? = some fields → ¬ Says j := by
    intro j fields hj hsaid
    simp [hleaf j hsaid] at hj
  cases h with
  | same => exact .rfl
  | word => exact absurd rfl hp
  | array => exact iff_of_false (hcontainer rfl) (hcontainer rfl)
  | bills => exact iff_of_false (hcontainer rfl) (hcontainer rfl)
  | object => exact iff_of_false (hcontainer rfl) (hcontainer rfl)

theorem AlikeAt.optional_iff {held held' : Option Json} (h : AlikeAt p key held held')
    {absent : Prop} {Says : Json → Prop} (homits : ∀ j, p.Omits key j → (Says j ↔ absent))
    (hsaid : ∀ {a b}, Alike (p.field key) a b → (Says a ↔ Says b)) :
    Json.Optional absent Says held ↔ Json.Optional absent Says held' := by
  cases h with
  | absent => exact .rfl
  | present hab => exact hsaid hab
  | leftOut ha => exact homits _ ha
  | listed hb => exact (homits _ hb).symm

theorem Alike.has_iff {α : Type} {Says : Json → α → Prop} {x : α} (h : Alike p a b)
    (hp : p ≠ .bills) (homits : ∀ j, ¬ p.Omits key j)
    (hsaid : ∀ {a b}, Alike (p.field key) a b → (Says a x ↔ Says b x)) :
    a.Has key Says x ↔ b.Has key Says x := by
  have hentry := h.entry hp key
  unfold Json.Has
  revert hentry
  generalize a.get? key = held
  generalize b.get? key = held'
  rintro (_ | hab | ha | hb)
  · exact .rfl
  · simp [hsaid hab]
  · exact absurd ha (homits _)
  · exact absurd hb (homits _)

theorem gives_of_writesWord {w : Json} {m : Nat} (hw : WritesWord w m) {n : Int} :
    Gives readWord w n ↔ n = m ∧ n ≤ SumProduct.maxWord := by
  rw [gives_readWord, and_comm]
  refine and_congr_left fun _ => ?_
  cases hw with
  | text hs =>
      constructor
      · rintro (⟨s, N, hs', hN, rfl⟩ | ⟨x, hx, _⟩)
        · obtain rfl := Json.text.inj hs'
          rw [hs.unique hN]
        · simp at hx
      · rintro rfl
        exact .inl ⟨_, m, rfl, hs, rfl⟩
  | number hx _ =>
      constructor
      · rintro (⟨s, N, hs, _⟩ | ⟨x, hx', hn, _⟩)
        · simp at hs
        · obtain rfl := Json.number.inj hx'
          exact Option.some.inj (hn.symm.trans hx)
      · rintro rfl
        exact .inr ⟨_, rfl, hx, Int.natCast_nonneg m⟩

theorem fields?_of_gives_readWord {w : Json} {n : Int} (h : Gives readWord w n) :
    w.fields? = none := by
  obtain ⟨_, ⟨s, N, rfl, _⟩ | ⟨x, rfl, _⟩⟩ := gives_readWord.1 h <;> rfl

theorem Alike.word_iff (h : Alike .word a b) (n : Int) :
    Gives readWord a n ↔ Gives readWord b n := by
  have hcontainer : ∀ {w fields}, w.fields? = some fields → ¬ Gives readWord w n := by
    intro w fields hw hn
    simp [fields?_of_gives_readWord hn] at hw
  cases h with
  | same => exact .rfl
  | word ha hb => rw [gives_of_writesWord ha, gives_of_writesWord hb]
  | array => exact iff_of_false (hcontainer rfl) (hcontainer rfl)
  | object => exact iff_of_false (hcontainer rfl) (hcontainer rfl)

theorem Alike.has_word_iff (h : Alike p a b) (hp : p ≠ .bills) (key : String)
    (hkey : p.field key = .word) (homits : ∀ j, ¬ p.Omits key j) (n : Int) :
    a.Has key (Gives readWord) n ↔ b.Has key (Gives readWord) n :=
  h.has_iff hp homits fun hab => (hkey ▸ hab : Alike .word _ _).word_iff n

theorem Alike.entry_eq_iff (h : Alike p a b) (hp : p ≠ .bills) (key : String)
    (hkey : p.field key = .plain) (homits : ∀ j, ¬ p.Omits key j) {w : Json}
    (hw : w.fields? = none) : a.get? key = some w ↔ b.get? key = some w := by
  have hleaf : ∀ j, j = w → j.fields? = none := by
    rintro j rfl
    exact hw
  have hhas : a.Has key Eq w ↔ b.Has key Eq w := h.has_iff hp homits fun hab =>
    (hkey ▸ hab : Alike .plain _ _).leaf_iff (by simp) (· = w) hleaf
  simpa [Json.Has] using hhas

theorem Alike.saysBill_iff (h : Alike .bill a b) (c : Cash.Bill) :
    SaysBill (Gives readWord) a c ↔ SaysBill (Gives readWord) b c := by
  have hp : Place.bill ≠ .bills := by simp
  have howner := h.entry_eq_iff hp "owner" rfl (fun _ => id) (w := .text c.owner) rfl
  have hamount := h.has_word_iff hp "amount" rfl (fun _ => id) c.amount
  have hserial := h.has_word_iff hp "serial" rfl (fun _ => id) c.serial
  exact ⟨fun hc => ⟨howner.1 hc.owner, hc.user, hamount.1 hc.amount, hserial.1 hc.serial⟩,
    fun hc => ⟨howner.2 hc.owner, hc.user, hamount.2 hc.amount, hserial.2 hc.serial⟩⟩

theorem forall₂_congr_left {α β : Type} {R : α → β → Prop} {S : α → α → Prop}
    (hR : ∀ {x y}, S x y → ∀ c, R x c ↔ R y c) {xs ys : List α} (h : List.Forall₂ S xs ys)
    (cs : List β) : List.Forall₂ R xs cs ↔ List.Forall₂ R ys cs := by
  induction h generalizing cs with
  | nil => exact .rfl
  | cons hxy _ ih =>
      cases cs with
      | nil => simp
      | cons c cs => rw [List.forall₂_cons, List.forall₂_cons, hR hxy c, ih cs]

theorem saysBills_of_perm {xs ys : List Json} {held : List Cash.Bill} (h : xs.Perm ys)
    (hys : SaysBills (Gives readWord) (.array ys) held) : SaysBills (Gives readWord) (.array xs) held := by
  obtain ⟨items, bills, hitems, hbills, hperm⟩ := hys
  obtain rfl := Json.array.inj hitems
  obtain ⟨cs, hcs, hcs'⟩ := List.perm_comp_forall₂ h hbills
  exact ⟨xs, cs, rfl, hcs, hcs'.trans hperm⟩

theorem Alike.saysBills_iff (h : Alike .bills a b) (held : List Cash.Bill) :
    SaysBills (Gives readWord) a held ↔ SaysBills (Gives readWord) b held := by
  have hobject : ∀ {fields}, ¬ SaysBills (Gives readWord) (.object fields) held := by
    rintro fields ⟨_, _, hitems, _⟩
    simp at hitems
  cases h with
  | same => exact .rfl
  | array hp => exact absurd rfl hp
  | @bills xs ys zs hperm hitems =>
      have hlike := forall₂_congr_left (fun hxy => Alike.saysBill_iff hxy) hitems
      have hzs : SaysBills (Gives readWord) (.array zs) held ↔ SaysBills (Gives readWord) (.array ys) held := by
        simp [SaysBills, hlike]
      exact ⟨fun hxs => hzs.1 (saysBills_of_perm hperm.symm hxs),
        fun hys => saysBills_of_perm hperm (hzs.2 hys)⟩
  | object => exact iff_of_false hobject hobject

theorem Alike.saysCash_iff (h : Alike .cash a b) (s : Cash.State) :
    SaysCash (Gives readWord) a s ↔ SaysCash (Gives readWord) b s := by
  have hp : Place.cash ≠ .bills := by simp
  have hbills : a.Has "bills" (SaysBills (Gives readWord)) s.bills ↔
      b.Has "bills" (SaysBills (Gives readWord)) s.bills :=
    h.has_iff hp (fun _ => id) fun hab => Alike.saysBills_iff hab s.bills
  have hnext : Json.Optional (s.nextSerial = serialAfter s.bills)
      (Gives readWord · s.nextSerial) (a.get? "nextSerial") ↔
        Json.Optional (s.nextSerial = serialAfter s.bills)
          (Gives readWord · s.nextSerial) (b.get? "nextSerial") :=
    (h.entry hp "nextSerial").optional_iff (fun _ homits => homits.elim)
      fun hab => Alike.word_iff hab s.nextSerial
  exact ⟨fun hs => ⟨hbills.1 hs.bills, hnext.1 hs.nextSerial, hs.ordered⟩,
    fun hs => ⟨hbills.2 hs.bills, hnext.2 hs.nextSerial, hs.ordered⟩⟩

def Admits (key : String) (w : Json) : Prop :=
  key ∉ Json.reservedNames → key ∈ users ∧ ∃ n, Gives readWord w n

theorem admits_iff_get? {fs : List (String × Json)} (h : (fs.map Prod.fst).Nodup) :
    (∀ f ∈ fs, Admits f.1 f.2) ↔ ∀ key, Json.Optional True (Admits key) (Assoc.get? key fs) := by
  have hget : ∀ key w, Assoc.get? key fs = some w ↔ (key, w) ∈ fs :=
    Table.get?_eq_some_iff ⟨fs, h⟩
  constructor
  · intro hall key
    cases hkey : Assoc.get? key fs with
    | none => trivial
    | some w => exact hall _ ((hget key w).1 hkey)
  · intro hall f hf
    have hkey := hall f.1
    rw [(hget f.1 f.2).2 hf] at hkey
    exact hkey

theorem AlikeAt.admits_iff {held held' : Option Json} (h : AlikeAt .balances key held held') :
    Json.Optional True (Admits key) held ↔ Json.Optional True (Admits key) held' := by
  refine h.optional_iff (fun j homits => ?_) fun hab => ?_
  · obtain ⟨huser, hzero⟩ := homits
    exact iff_true_intro fun _ => ⟨huser, 0, (gives_of_writesWord hzero).2 ⟨rfl, by decide⟩⟩
  · by_cases huser : key ∈ users
    · have hword : Place.balances.field key = .word := if_pos huser
      have hiff := (hword ▸ hab : Alike .word _ _).word_iff
      simp only [Admits, hiff]
    · simp [Admits, huser]

theorem Alike.saysBalances_iff (h : Alike .balances a b) (s : Currency.Balances) :
    SaysBalances (Gives readWord) a s ↔ SaysBalances (Gives readWord) b s := by
  have hp : Place.balances ≠ .bills := by simp
  have hbalance : ∀ user ∈ users, SaysBalance (Gives readWord) (s.balance user) (a.get? user) ↔
      SaysBalance (Gives readWord) (s.balance user) (b.get? user) := by
    intro user huser
    have hword : Place.balances.field user = .word := if_pos huser
    refine (h.entry hp user).optional_iff (fun j homits => ?_) fun hab =>
      (hword ▸ hab : Alike .word _ _).word_iff _
    rw [gives_of_writesWord homits.2]
    exact and_iff_left_of_imp fun hzero => hzero ▸ by decide
  have hlisted : (∃ fields, a.fields? = some fields ∧ ∀ f ∈ fields, Admits f.1 f.2) ↔
      ∃ fields, b.fields? = some fields ∧ ∀ f ∈ fields, Admits f.1 f.2 := by
    rcases h.fields hp with rfl | ⟨ha, hb⟩ | ⟨fs, gs, ha, hb, hfs, hgs, hfields⟩
    · exact .rfl
    · simp [ha, hb]
    · have hadmits : ∀ key, Json.Optional True (Admits key) (Assoc.get? key fs) ↔
          Json.Optional True (Admits key) (Assoc.get? key gs) := fun key => (hfields key).admits_iff
      simp only [ha, hb, Option.some.injEq, exists_eq_left', admits_iff_get? hfs,
        admits_iff_get? hgs, hadmits]
  exact ⟨fun hs => ⟨hs.opened, fun user huser => (hbalance user huser).1 (hs.balances user huser),
      hlisted.1 hs.listed⟩,
    fun hs => ⟨hs.opened, fun user huser => (hbalance user huser).2 (hs.balances user huser),
      hlisted.2 hs.listed⟩⟩

theorem Alike.saysSwitches_iff (h : Alike .plain a b) (first second : Bool) :
    (a.get? "first" = some (.bool first) ∧ a.get? "second" = some (.bool second)) ↔
      b.get? "first" = some (.bool first) ∧ b.get? "second" = some (.bool second) := by
  have hp : Place.plain ≠ .bills := by simp
  exact and_congr (h.entry_eq_iff hp "first" rfl (fun _ => id) rfl)
    (h.entry_eq_iff hp "second" rfl (fun _ => id) rfl)

theorem Alike.saysState_iff {f : Founding} (h : Alike f.kind.place a b) :
    SaysState (Gives readWord) a f ↔ SaysState (Gives readWord) b f := by
  cases f with
  | lightSwitch on =>
      refine h.leaf_iff (by simp [Founding.kind, Kind.place]) (· = .bool on) ?_
      rintro j rfl
      rfl
  | twoSwitches s => exact h.saysSwitches_iff s.first s.second
  | atm s =>
      have hword : ∀ cash, a.Has "cashInside" (Gives readWord) cash ↔
          b.Has "cashInside" (Gives readWord) cash :=
        h.has_word_iff (by simp [Founding.kind, Kind.place]) "cashInside" rfl fun _ => id
      simp only [SaysState, hword]
  | currency s => exact Alike.saysBalances_iff h s
  | cash s => exact Alike.saysCash_iff h s
  | sumProduct s =>
      have hp : (Founding.sumProduct s).kind.place ≠ .bills := by simp [Founding.kind, Kind.place]
      exact and_congr (h.has_word_iff hp "sum" rfl (fun _ => id) s.sum)
        (h.has_word_iff hp "product" rfl (fun _ => id) s.product)

theorem fields?_of_gives_readDifficulty {w : Json} {d : Difficulty} (h : Gives readDifficulty w d) :
    w.fields? = none := by
  cases w with
  | array xs => simp [Gives, readDifficulty, result_convert, result_require, Reading.number] at h
  | object fs => simp [Gives, readDifficulty, result_convert, result_require, Reading.number] at h
  | _ => rfl

theorem Alike.says_iff {k : Kind} (h : Alike (.document k) a b)
    (hmachine : a.get? "machine" = some (.text k.name)) (g : Genesis) :
    Says (Gives readWord) a g ↔ Says (Gives readWord) b g := by
  have hp : Place.document k ≠ .bills := by simp
  have hnamed := fun n => h.entry_eq_iff hp "machine" rfl (fun _ => id) (w := .text n) rfl
  have hdifficulty : SaysDifficulty g.difficulty (a.get? "difficulty") ↔
      SaysDifficulty g.difficulty (b.get? "difficulty") := by
    refine (h.entry hp "difficulty").optional_iff (fun _ homits => homits.elim) fun hab =>
      Alike.leaf_iff hab (by simp [Place.field])
        (fun w => ∃ d, g.difficulty = some d ∧ Gives readDifficulty w d) ?_
    rintro j ⟨d, _, hd⟩
    exact fields?_of_gives_readDifficulty hd
  have hstate : g.founding.kind = k → (a.Has "state" (SaysState (Gives readWord)) g.founding ↔
      b.Has "state" (SaysState (Gives readWord)) g.founding) := by
    rintro rfl
    exact h.has_iff hp (fun _ => id) fun hab => Alike.saysState_iff hab
  have hkind : ∀ {j : Json}, j.get? "machine" = some (.text k.name) →
      Says (Gives readWord) j g → g.founding.kind = k := by
    intro j hj hg
    have hname := Json.text.inj (Option.some.inj (hg.machine.symm.trans hj))
    exact Kind.name_injective hname
  constructor
  · intro hg
    exact ⟨(hnamed _).1 hg.machine, hdifficulty.1 hg.difficulty,
      (hstate (hkind hmachine hg)).1 hg.state⟩
  · intro hg
    exact ⟨(hnamed _).2 hg.machine, hdifficulty.2 hg.difficulty,
      (hstate (hkind ((hnamed _).1 hmachine) hg)).2 hg.state⟩

theorem Alike.parse_iff {k : Kind} (h : Alike (.document k) a b)
    (hmachine : a.get? "machine" = some (.text k.name)) (g : Genesis) :
    parse a = .ok g ↔ parse b = .ok g := by
  rw [parse_eq_ok_iff_said, parse_eq_ok_iff_said, h.says_iff hmachine]

end Alike

theorem exists_start {j : Json} {g : Genesis} (hg : parse j = .ok g) {configured : Number}
    {d : Difficulty} (hd : g.difficultyOr configured = .ok d) (choice : ForkChoice) :
    ∃ c, g.start configured choice = .ok c := by
  obtain ⟨root, hroot⟩ := Kind.exists_stateRoot (natural_of_parse hg)
  obtain ⟨t, ht⟩ : ∃ t, foundOn g.founding.kind.machine g.founding.state d choice = .ok t :=
    Tree.exists_found hroot
  rw [start_of_difficulty hd, ht]
  exact ⟨_, rfl⟩

end Genesis

def Chain.genesisId : Chain → String
  | .lightSwitch t => t.genesisId
  | .twoSwitches t => t.genesisId
  | .atm t => t.genesisId
  | .currency t => t.genesisId
  | .cash t => t.genesisId
  | .sumProduct t => t.genesisId

theorem genesis_independent_of_wording {k : Genesis.Kind} {a b : Json}
    (hmachine : a.get? "machine" = some (.text k.name))
    (h : Genesis.Alike (.document k) a b) :
    ((∃ g, Genesis.parse a = .ok g) ↔ ∃ g, Genesis.parse b = .ok g) ∧
      ∀ g g', Genesis.parse a = .ok g → Genesis.parse b = .ok g' →
        g.founding = g'.founding ∧ g.difficulty = g'.difficulty ∧
          ∀ configured choice d, g.difficultyOr configured = .ok d →
            ∃ c c', g.start configured choice = .ok c ∧ g'.start configured choice = .ok c' ∧
              c.genesisId = c'.genesisId := by
  have hiff := h.parse_iff hmachine
  refine ⟨exists_congr hiff, fun g g' hg hg' => ?_⟩
  obtain rfl : g = g' := Except.ok.inj (((hiff g).1 hg).symm.trans hg')
  refine ⟨rfl, rfl, fun configured choice d hd => ?_⟩
  obtain ⟨c, hc⟩ := Genesis.exists_start hg hd choice
  exact ⟨c, c, hc, hc, rfl⟩

namespace Cash.Purse

def rewritten : Json :=
  .object [("state", .object [("bills", .array
    [.object [("serial", .number (.finite false 1 0)), ("amount", .number (.finite false 5 2)),
      ("owner", .text "alice")],
     .object [("owner", .text "bob"), ("serial", .text "004"), ("amount", .text "5")]])]),
    ("machine", .text "digital-cash")]

open Genesis in
theorem rewritten_alike : Alike (.document .cash) document rewritten := by
  have hfive : WritesWord (.number (.finite false 5 0)) 5 := .number rfl (by decide)
  have hfour : WritesWord (.number (.finite false 1 2)) 4 := .number rfl (by decide)
  have htwenty : WritesWord (.number (.finite false 5 2)) 20 := .number rfl (by decide)
  have hone : WritesWord (.number (.finite false 1 0)) 1 := .number rfl (by decide)
  have hbob : Alike .bill
      (.object [("owner", .text "bob"), ("amount", .number (.finite false 5 0)),
        ("serial", .number (.finite false 1 2))])
      (.object [("owner", .text "bob"), ("serial", .text "004"), ("amount", .text "5")]) := by
    refine .object (by decide) (by decide) (.of_names (by decide) ?_)
    simp only [List.map_cons, List.map_nil, List.forall_mem_cons]
    exact ⟨.present (.same _), .present (.word hfive (.text ⟨0, rfl⟩)),
      .present (.word hfour (.text ⟨2, rfl⟩)), by simp⟩
  have halice : Alike .bill
      (.object [("owner", .text "alice"), ("amount", .text "20"), ("serial", .text "1")])
      (.object [("serial", .number (.finite false 1 0)), ("amount", .number (.finite false 5 2)),
        ("owner", .text "alice")]) := by
    refine .object (by decide) (by decide) (.of_names (by decide) ?_)
    simp only [List.map_cons, List.map_nil, List.forall_mem_cons]
    exact ⟨.present (.same _), .present (.word (.text ⟨0, rfl⟩) htwenty),
      .present (.word (.text ⟨0, rfl⟩) hone), by simp⟩
  refine .object (by decide) (by decide) (.of_names (by decide) ?_)
  simp only [List.map_cons, List.map_nil, List.forall_mem_cons]
  refine ⟨.present (.same _), .present (.object (by decide) (by decide) (.of_names (by decide) ?_)),
    by simp⟩
  simp only [List.map_cons, List.map_nil, List.forall_mem_cons]
  exact ⟨.present (.bills (.swap ..) (.cons halice (.cons hbob .nil))), by simp⟩

end Cash.Purse

theorem purse_independent_of_wording :
    Cash.Purse.document.get? "machine" = some (.text Genesis.Kind.cash.name) ∧
      Genesis.Alike (.document .cash) Cash.Purse.document Cash.Purse.rewritten ∧
      ∃ g, Genesis.parse Cash.Purse.rewritten = .ok g ∧ g.founding = .cash Cash.Purse.founded ∧
        ∃ c c', Genesis.start ⟨none, .cash Cash.Purse.founded⟩ (.finite false 1 4) = .ok c ∧
          g.start (.finite false 1 4) = .ok c' ∧ c.genesisId = c'.genesisId := by
  obtain ⟨haccepted, hsame⟩ :=
    genesis_independent_of_wording (k := .cash) (a := Cash.Purse.document) rfl
      Cash.Purse.rewritten_alike
  obtain ⟨g, hg⟩ := haccepted.1 ⟨_, Cash.Purse.parse_document⟩
  obtain ⟨hfounding, _, hstarts⟩ := hsame _ g Cash.Purse.parse_document hg
  obtain ⟨c, c', hc, hc', hid⟩ := hstarts (.finite false 1 4) Preference.heaviestChain.rule
    ⟨16, by decide⟩ rfl
  exact ⟨rfl, Cash.Purse.rewritten_alike, g, hg, hfounding.symm, c, c', hc, hc', hid⟩

end BlockTree
