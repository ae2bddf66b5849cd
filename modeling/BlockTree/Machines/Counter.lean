import BlockTree.Machine

namespace BlockTree.Counter

inductive Failure where
  | unlucky (state : Int)
  deriving DecidableEq, Repr

def step (s x : Int) : Except Failure Int :=
  if x = 13 then .error (.unlucky s) else .ok (s + x)

def failureValue : Failure → Value
  | .unlucky state => .record [("kind", .text "Unlucky"), ("state", .integer state)]

def machine : Machine Int Int Failure where
  name := "counter"
  step := step
  stateValue := .integer
  extrinsicValue := .integer
  causeValue := failureValue

def byteMachine : Machine Int Int Failure :=
  { machine with
    name := "counter-raw"
    encodeState := some fun s => [UInt8.ofNat (s % 256).toNat] }

end BlockTree.Counter
