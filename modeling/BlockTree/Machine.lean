import BlockTree.Value

namespace BlockTree

structure Machine (S T E : Type) where
  name : String
  step : S → T → Except E S
  stateValue : S → Value
  extrinsicValue : T → Value
  causeValue : E → Value
  encodeState : Option (S → Bytes) := none

structure TransitionFailure (E : Type) where
  index : Nat
  cause : E
  deriving DecidableEq, Repr

namespace Machine

variable {S T E : Type}

def runFrom (m : Machine S T E) (index : Nat) (s : S) : List T → Except (TransitionFailure E) S
  | [] => .ok s
  | x :: xs => match m.step s x with
      | .ok next => runFrom m (index + 1) next xs
      | .error cause => .error ⟨index, cause⟩

def run (m : Machine S T E) (s : S) (xs : List T) : Except (TransitionFailure E) S :=
  m.runFrom 0 s xs

-- whether a state that is looked up is told from one that is not there
def isPresent (m : Machine S T E) (s : S) : Bool :=
  match m.stateValue s with
  | .absent => false
  | _ => true

@[simp] theorem run_nil (m : Machine S T E) (s : S) : m.run s [] = .ok s := rfl

end Machine

end BlockTree
