import BlockTree.Genesis
import BlockTree.Proofs.ValueEncoding

namespace BlockTree

namespace Machine

variable {S T E : Type}

def StatesDefined (m : Machine S T E) : Prop :=
  ∀ s, m.isPresent s = true

structure Faithful (m : Machine S T E) (same : S → S → Prop) (mend : T → T) : Prop where
  encodeState_eq : m.encodeState = none
  state : ∀ {s t}, (m.stateValue s).Alike (m.stateValue t) → same s t
  extrinsic : ∀ {x y}, (m.extrinsicValue x).Alike (m.extrinsicValue y) → mend x = mend y

namespace Faithful

variable {m : Machine S T E} {same : S → S → Prop} {mend : T → T}

theorem same_of_stateBytes_eq (h : m.Faithful same mend) {s t : S} {b : Bytes}
    (hs : m.stateBytes s = .ok b) (ht : m.stateBytes t = .ok b) (hlen : b.length < Rlp.limit) :
    same s t := by
  rw [stateBytes, h.encodeState_eq] at hs ht
  exact h.state (Value.alike_of_encode_eq hs ht hlen)

theorem body_eq (h : m.Faithful same mend) {xs ys : List T} {bs : List Bytes}
    (hxs : (xs.map m.extrinsicValue).map Value.encode = bs.map .ok)
    (hys : (ys.map m.extrinsicValue).map Value.encode = bs.map .ok)
    (hshort : ∀ b ∈ bs, b.length < Rlp.limit) : xs.map mend = ys.map mend := by
  induction bs generalizing xs ys with
  | nil =>
      rw [List.map_nil, List.map_eq_nil_iff, List.map_eq_nil_iff] at hxs hys
      rw [hxs, hys]
  | cons b bs ih =>
      match xs, hxs with
      | x :: xs, hxs =>
          match ys, hys with
          | y :: ys, hys =>
              obtain ⟨hx, hxs⟩ := List.cons.inj hxs
              obtain ⟨hy, hys⟩ := List.cons.inj hys
              have hlen := hshort b (.head _)
              rw [List.map_cons, List.map_cons, h.extrinsic (Value.alike_of_encode_eq hx hy hlen),
                ih hxs hys fun b hb => hshort b (.tail _ hb)]

end Faithful

end Machine

namespace TwoSwitches

theorem stateValue_injective {s t : Switches}
    (h : (machine.stateValue s).Alike (machine.stateValue t)) : s = t := by
  have hfirst : s.first = t.first :=
    Value.bool_injective (Value.field_alike h "first" (by simp) (by simp) (by simp))
  have hsecond : s.second = t.second :=
    Value.bool_injective (Value.field_alike h "second" (by simp) (by simp) (by simp))
  cases s
  cases t
  cases hfirst
  cases hsecond
  rfl

theorem extrinsicValue_injective {x y : Toggle}
    (h : (machine.extrinsicValue x).Alike (machine.extrinsicValue y)) : x = y := by
  have hname : x.name = y.name := Value.text_injective h
  cases x <;> cases y <;> simp [Toggle.name] at hname ⊢

end TwoSwitches

namespace SumProduct

theorem stateValue_injective {s t : State}
    (h : (machine.stateValue s).Alike (machine.stateValue t)) : s = t := by
  have hsum : s.sum = t.sum :=
    Value.integer_injective (Value.field_alike h "sum" (by simp) (by simp) (by simp))
  have hproduct : s.product = t.product :=
    Value.integer_injective (Value.field_alike h "product" (by simp) (by simp) (by simp))
  cases s
  cases t
  cases hsum
  cases hproduct
  rfl

end SumProduct

namespace Atm

theorem name_injective {k l : Key} (h : k.name = l.name) : k = l := by
  cases k <;> cases l <;> simp [Key.name] at h ⊢

-- the pin hash as its encoding reads it
def Stage.mend : Stage → Stage
  | .authenticating pin => .authenticating (.ofString pin.read)
  | stage => stage

def State.mend (s : State) : State :=
  { s with stage := s.stage.mend }

def Action.mend : Action → Action
  | .swipeCard pin => .swipeCard (.ofString pin.read)
  | action => action

theorem stage_next (s : State) (a : Action) :
    (next s a).stage = s.stage ∨ (next s a).stage = .waiting ∨
      (next s a).stage = .authenticated ∨
      ∃ pin, a = .swipeCard pin ∧ (next s a).stage = .authenticating pin := by
  obtain ⟨cash, stage, keys⟩ := s
  cases a with
  | swipeCard pin =>
      cases stage with
      | waiting => exact .inr (.inr (.inr ⟨pin, rfl, rfl⟩))
      | authenticating expected | authenticated => exact .inl rfl
  | pressKey k =>
      cases stage with
      | waiting => exact .inl rfl
      | authenticating expected =>
          cases k with
          | enter =>
              simp only [next, press, enter]
              split
              · exact .inr (.inr (.inl rfl))
              · exact .inr (.inl rfl)
          | one | two | three | four => exact .inl rfl
      | authenticated =>
          cases k with
          | enter => exact .inr (.inl rfl)
          | one | two | three | four => exact .inl rfl

theorem mend_next {s : State} {a : Action} (hs : s.mend = s) (ha : a.mend = a) :
    (next s a).mend = next s a := by
  have hstage : (next s a).stage.mend = (next s a).stage := by
    rcases stage_next s a with h | h | h | ⟨pin, rfl, h⟩
    · rw [h]
      exact congrArg State.stage hs
    · rw [h]
      rfl
    · rw [h]
      rfl
    · rw [h, Stage.mend, Action.swipeCard.inj ha]
  rw [State.mend, hstage]

theorem Stage.mend_eq_of_alike {a b : Stage} (h : (stageValue a).Alike (stageValue b)) :
    a.mend = b.mend := by
  cases a with
  | waiting =>
      cases b with
      | waiting => rfl
      | authenticating q => exact absurd (Value.tag_eq h (by simp)) (by simp)
      | authenticated => exact absurd (Value.tag_eq h (by simp)) (by simp)
  | authenticating p =>
      cases b with
      | waiting => exact absurd (Value.tag_eq h (by simp)) (by simp)
      | authenticating q =>
          have hpin : p.read = q.read :=
            Value.text_injective (Value.field_alike h "pinHash" (by simp) (by simp) (by simp))
          rw [mend, mend, hpin]
      | authenticated => exact absurd (Value.tag_eq h (by simp)) (by simp)
  | authenticated =>
      cases b with
      | waiting => exact absurd (Value.tag_eq h (by simp)) (by simp)
      | authenticating q => exact absurd (Value.tag_eq h (by simp)) (by simp)
      | authenticated => rfl

theorem keysValue_injective {ks ls : List Key} (h : (keysValue ks).Alike (keysValue ls)) :
    ks = ls :=
  Value.list_injective (fun hkey => name_injective (Value.text_injective hkey)) h

theorem State.mend_eq_of_alike {s t : State} (h : (stateValue s).Alike (stateValue t)) :
    s.mend = t.mend := by
  have hcash : s.cashInside = t.cashInside :=
    Value.integer_injective (Value.field_alike h "cashInside" (by simp) (by simp) (by simp))
  have hstage : s.stage.mend = t.stage.mend := by
    refine Stage.mend_eq_of_alike (Value.field_alike h "auth" (by simp) ?_ (by simp))
    cases s.stage <;> simp [stageValue]
  have hkeys : s.keystrokes = t.keystrokes :=
    keysValue_injective (Value.field_alike h "keystrokes" (by simp) (by simp [keysValue]) (by simp))
  rw [mend, mend, hcash, hstage, hkeys]

theorem Action.mend_eq_of_alike {a b : Action} (h : (actionValue a).Alike (actionValue b)) :
    a.mend = b.mend := by
  cases a with
  | swipeCard p =>
      cases b with
      | swipeCard q =>
          have hpin : p.read = q.read :=
            Value.text_injective (Value.field_alike h "pinHash" (by simp) (by simp) (by simp))
          rw [mend, mend, hpin]
      | pressKey l => exact absurd (Value.tag_eq h (by simp)) (by simp)
  | pressKey k =>
      cases b with
      | swipeCard q => exact absurd (Value.tag_eq h (by simp)) (by simp)
      | pressKey l =>
          have hname : k.name = l.name :=
            Value.text_injective (Value.field_alike h "key" (by simp) (by simp) (by simp))
          rw [name_injective hname]

end Atm

namespace Currency

theorem mem_entries_of_alike {s t : Balances} (h : (stateValue s).Alike (stateValue t))
    {user : String} {amount : Int} (hmem : (user, amount) ∈ s.entries) :
    (user, amount) ∈ t.entries := by
  have hentry := List.mem_map_of_mem
    (f := fun e : String × Int => (Value.text e.1, Value.integer e.2)) hmem
  obtain ⟨key, value, hmapped, hkey, hvalue⟩ := Value.exists_entry_of_alike h hentry
  obtain ⟨e, he, heq⟩ := List.mem_map.1 hmapped
  cases heq
  have huser : user = e.1 := Value.text_injective hkey
  have hamount : amount = e.2 := Value.integer_injective hvalue
  rw [huser, hamount]
  exact he

theorem get?_eq_of_alike {s t : Balances} (h : (stateValue s).Alike (stateValue t))
    (user : String) : s.get? user = t.get? user := by
  apply Option.ext
  intro amount
  rw [Table.get?_eq_some_iff, Table.get?_eq_some_iff]
  exact ⟨mem_entries_of_alike h, mem_entries_of_alike h.symm⟩

theorem transactionValue_injective {x y : Transaction}
    (h : (transactionValue x).Alike (transactionValue y)) : x = y := by
  cases x with
  | mint m a =>
      cases y with
      | mint m' a' =>
          have hminter : m = m' :=
            Value.text_injective (Value.field_alike h "minter" (by simp) (by simp) (by simp))
          have hamount : a = a' :=
            Value.integer_injective (Value.field_alike h "amount" (by simp) (by simp) (by simp))
          rw [hminter, hamount]
      | burn b' a' => exact absurd (Value.tag_eq h (by simp)) (by simp)
      | transfer s' r' a' => exact absurd (Value.tag_eq h (by simp)) (by simp)
  | burn b a =>
      cases y with
      | mint m' a' => exact absurd (Value.tag_eq h (by simp)) (by simp)
      | burn b' a' =>
          have hburner : b = b' :=
            Value.text_injective (Value.field_alike h "burner" (by simp) (by simp) (by simp))
          have hamount : a = a' :=
            Value.integer_injective (Value.field_alike h "amount" (by simp) (by simp) (by simp))
          rw [hburner, hamount]
      | transfer s' r' a' => exact absurd (Value.tag_eq h (by simp)) (by simp)
  | transfer s r a =>
      cases y with
      | mint m' a' => exact absurd (Value.tag_eq h (by simp)) (by simp)
      | burn b' a' => exact absurd (Value.tag_eq h (by simp)) (by simp)
      | transfer s' r' a' =>
          have hsender : s = s' :=
            Value.text_injective (Value.field_alike h "sender" (by simp) (by simp) (by simp))
          have hreceiver : r = r' :=
            Value.text_injective (Value.field_alike h "receiver" (by simp) (by simp) (by simp))
          have hamount : a = a' :=
            Value.integer_injective (Value.field_alike h "amount" (by simp) (by simp) (by simp))
          rw [hsender, hreceiver, hamount]

end Currency

namespace Cash

theorem billValue_injective {b c : Bill} (h : (billValue b).Alike (billValue c)) : b = c := by
  have howner : b.owner = c.owner :=
    Value.text_injective (Value.field_alike h "owner" (by simp) (by simp) (by simp))
  have hamount : b.amount = c.amount :=
    Value.integer_injective (Value.field_alike h "amount" (by simp) (by simp) (by simp))
  have hserial : b.serial = c.serial :=
    Value.integer_injective (Value.field_alike h "serial" (by simp) (by simp) (by simp))
  cases b
  cases c
  cases howner
  cases hamount
  cases hserial
  rfl

theorem billsValue_injective {bs cs : List Bill} (h : (billsValue bs).Alike (billsValue cs)) :
    bs = cs :=
  Value.list_injective billValue_injective h

theorem stateValue_injective {s t : State} (h : (stateValue s).Alike (stateValue t)) : s = t := by
  have hbills : s.bills = t.bills :=
    billsValue_injective (Value.field_alike h "bills" (by simp) (by simp [billsValue]) (by simp))
  have hnext : s.nextSerial = t.nextSerial :=
    Value.integer_injective (Value.field_alike h "nextSerial" (by simp) (by simp) (by simp))
  cases s
  cases t
  cases hbills
  cases hnext
  rfl

theorem transactionValue_injective {x y : Transaction}
    (h : (transactionValue x).Alike (transactionValue y)) : x = y := by
  cases x with
  | mint m a =>
      cases y with
      | mint m' a' =>
          have hminter : m = m' :=
            Value.text_injective (Value.field_alike h "minter" (by simp) (by simp) (by simp))
          have hamount : a = a' :=
            Value.integer_injective (Value.field_alike h "amount" (by simp) (by simp) (by simp))
          rw [hminter, hamount]
      | transfer bs' cs' => exact absurd (Value.tag_eq h (by simp)) (by simp)
  | transfer bs cs =>
      cases y with
      | mint m' a' => exact absurd (Value.tag_eq h (by simp)) (by simp)
      | transfer bs' cs' =>
          have hspends : bs = bs' := billsValue_injective
            (Value.field_alike h "spends" (by simp) (by simp [billsValue]) (by simp))
          have hreceives : cs = cs' := billsValue_injective
            (Value.field_alike h "receives" (by simp) (by simp [billsValue]) (by simp))
          rw [hspends, hreceives]

end Cash

namespace Genesis.Kind

abbrev State : Kind → Type
  | lightSwitch => Bool
  | twoSwitches => TwoSwitches.Switches
  | atm => Atm.State
  | currency => Currency.Balances
  | cash => Cash.State
  | sumProduct => SumProduct.State

abbrev Extrinsic : Kind → Type
  | lightSwitch => LightSwitch.Toggle
  | twoSwitches => TwoSwitches.Toggle
  | atm => Atm.Action
  | currency => Currency.Transaction
  | cash => Cash.Transaction
  | sumProduct => Int

abbrev Cause : Kind → Type
  | lightSwitch => Empty
  | twoSwitches => Empty
  | atm => Empty
  | currency => Currency.Failure
  | cash => Cash.Failure
  | sumProduct => SumProduct.Failure

def machine : (k : Kind) → Machine k.State k.Extrinsic k.Cause
  | lightSwitch => LightSwitch.machine
  | twoSwitches => TwoSwitches.machine
  | atm => Atm.machine
  | currency => Currency.machine
  | cash => Cash.machine
  | sumProduct => SumProduct.machine

theorem statesDefined (k : Kind) : k.machine.StatesDefined := by
  cases k <;> exact fun _ => rfl

def Same : (k : Kind) → k.State → k.State → Prop
  | lightSwitch, s, t => s = t
  | twoSwitches, s, t => s = t
  | atm, s, t => s = t
  | currency, s, t => ∀ user, s.get? user = t.get? user
  | cash, s, t => s = t
  | sumProduct, s, t => s = t

-- a state and an extrinsic as their encodings read them: only pin hashes may be read as others
def mend : (k : Kind) → k.State → k.State
  | atm, s => s.mend
  | lightSwitch, s | twoSwitches, s | currency, s | cash, s | sumProduct, s => s

def mendExtrinsic : (k : Kind) → k.Extrinsic → k.Extrinsic
  | atm, x => x.mend
  | lightSwitch, x | twoSwitches, x | currency, x | cash, x | sumProduct, x => x

theorem faithful (k : Kind) :
    k.machine.Faithful (fun s t => k.Same (k.mend s) (k.mend t)) k.mendExtrinsic := by
  cases k with
  | lightSwitch => exact ⟨rfl, Value.bool_injective, fun _ => rfl⟩
  | twoSwitches =>
      exact ⟨rfl, TwoSwitches.stateValue_injective, TwoSwitches.extrinsicValue_injective⟩
  | atm => exact ⟨rfl, Atm.State.mend_eq_of_alike, Atm.Action.mend_eq_of_alike⟩
  | currency => exact ⟨rfl, Currency.get?_eq_of_alike, Currency.transactionValue_injective⟩
  | cash => exact ⟨rfl, Cash.stateValue_injective, Cash.transactionValue_injective⟩
  | sumProduct => exact ⟨rfl, SumProduct.stateValue_injective, Value.integer_injective⟩

-- asks something of dispensers only: that pin hashes are sequences of whole characters
def WellFormed (k : Kind) (s : k.State) : Prop :=
  k.mend s = s

def WellFormedExtrinsic (k : Kind) (x : k.Extrinsic) : Prop :=
  k.mendExtrinsic x = x

variable {k : Kind} {s t : k.State} {x y : k.Extrinsic}

theorem WellFormed.step (hs : k.WellFormed s) (hx : k.WellFormedExtrinsic x)
    (h : k.machine.step s x = .ok t) : k.WellFormed t := by
  cases k with
  | atm =>
      obtain rfl := Except.ok.inj h
      exact Atm.mend_next hs hx
  | lightSwitch | twoSwitches | currency | cash | sumProduct => rfl

end Genesis.Kind

end BlockTree
