import BlockTree.Machine

namespace BlockTree.LightSwitch

inductive Toggle where
  | toggle
  deriving DecidableEq, Repr

def machine : Machine Bool Toggle Empty where
  name := "light-switch"
  step on _ := .ok (!on)
  stateValue := .bool
  extrinsicValue _ := .text "toggle"
  causeValue := Empty.elim

end BlockTree.LightSwitch
