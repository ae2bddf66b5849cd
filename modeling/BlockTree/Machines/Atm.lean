import BlockTree.Commitment

namespace BlockTree.Atm

inductive Key where
  | one
  | two
  | three
  | four
  | enter
  deriving DecidableEq, Repr

namespace Key

def name : Key → String
  | one => "1"
  | two => "2"
  | three => "3"
  | four => "4"
  | enter => "enter"

def digit? : Key → Option Nat
  | one => some 1
  | two => some 2
  | three => some 3
  | four => some 4
  | enter => none

end Key

inductive Stage where
  | waiting
  | authenticating (pinHash : Text.Utf16)
  | authenticated
  deriving DecidableEq, Repr

structure State where
  cashInside : Int
  stage : Stage
  keystrokes : List Key
  deriving DecidableEq, Repr

inductive Action where
  | swipeCard (pinHash : Text.Utf16)
  | pressKey (key : Key)
  deriving DecidableEq, Repr

def fresh (cash : Int) : State :=
  ⟨cash, .waiting, []⟩

def keysValue (keys : List Key) : Value :=
  .list (keys.map fun k => .text k.name)

def keysTerm (keys : List Key) : Term :=
  .list (keys.map fun k => .bytes (Text.utf8 k.name))

def pinDigest (keys : List Key) : String :=
  Hex.encode (keccak256 (keysTerm keys).encode)

def pinHash (keys : List Key) : Text.Utf16 :=
  .ofString (pinDigest keys)

theorem canonical_keysValue (keys : List Key) : (keysValue keys).canonical = .ok (keysTerm keys) := by
  have h : Value.collect (Value.canonicalItems (keys.map fun k => .text k.name)) =
      .ok (keys.map fun k => .bytes (Text.utf8 k.name)) := by
    induction keys with
    | nil => rfl
    | cons k ks ih =>
        simp only [List.map_cons, Value.canonicalItems, Value.canonical, Value.collect, ih]
        rfl
  simp only [keysValue, keysTerm, Value.canonical, h]
  rfl

theorem digest_keysValue (keys : List Key) : (keysValue keys).digest = .ok (pinDigest keys) := by
  simp only [Value.digest, Value.encode, canonical_keysValue]
  rfl

def amountOf (keys : List Key) : Nat :=
  keys.foldl (fun n k => match k.digit? with
    | some d => n * 10 + d
    | none => n) 0

def enter (s : State) : State :=
  match s.stage with
  | .waiting => s
  | .authenticating expected =>
      { s with
        stage := if pinHash s.keystrokes = expected then .authenticated else .waiting
        keystrokes := [] }
  | .authenticated =>
      let amount : Int := amountOf s.keystrokes
      { cashInside := if amount ≤ s.cashInside then s.cashInside - amount else s.cashInside
        stage := .waiting
        keystrokes := [] }

def press (s : State) (k : Key) : State :=
  match s.stage, k with
  | .waiting, _ => s
  | _, .enter => enter s
  | _, k => { s with keystrokes := s.keystrokes ++ [k] }

def next (s : State) : Action → State
  | .swipeCard pinHash => match s.stage with
      | .waiting => { s with stage := .authenticating pinHash }
      | _ => s
  | .pressKey k => press s k

def stageValue : Stage → Value
  | .waiting => .record [("stage", .text "waiting")]
  | .authenticating pinHash =>
      .record [("stage", .text "authenticating"), ("pinHash", .text pinHash.read)]
  | .authenticated => .record [("stage", .text "authenticated")]

def stateValue (s : State) : Value :=
  .record [("cashInside", .integer s.cashInside), ("auth", stageValue s.stage),
    ("keystrokes", keysValue s.keystrokes)]

def actionValue : Action → Value
  | .swipeCard pinHash => .record [("type", .text "swipeCard"), ("pinHash", .text pinHash.read)]
  | .pressKey k => .record [("type", .text "pressKey"), ("key", .text k.name)]

def machine : Machine State Action Empty where
  name := "atm"
  step s a := .ok (next s a)
  stateValue := stateValue
  extrinsicValue := actionValue
  causeValue := Empty.elim

end BlockTree.Atm
