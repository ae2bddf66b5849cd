import BlockTree.Machine

namespace BlockTree.TwoSwitches

structure Switches where
  first : Bool
  second : Bool
  deriving DecidableEq, Repr

inductive Toggle where
  | first
  | second
  deriving DecidableEq, Repr

def Toggle.name : Toggle → String
  | .first => "toggleFirst"
  | .second => "toggleSecond"

def next (s : Switches) : Toggle → Switches
  | .first => if s.first then ⟨false, false⟩ else { s with first := true }
  | .second => { s with second := !s.second }

def machine : Machine Switches Toggle Empty where
  name := "two-switches"
  step s t := .ok (next s t)
  stateValue s := .record [("first", .bool s.first), ("second", .bool s.second)]
  extrinsicValue t := .text t.name
  causeValue := Empty.elim

end BlockTree.TwoSwitches
