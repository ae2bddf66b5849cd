import BlockTree.Block
import BlockTree.ChainRule
import BlockTree.Difficulty
import BlockTree.Value.Display

namespace BlockTree

inductive Rejection (E : Type) where
  | malformedHeader (field : Header.Field)
  | unknownParent (parent : String)
  | badHeight (expected actual : Int)
  | bodyMismatch (expected actual : String)
  | invalidDigest (cause : DigestFailure)
  | invalidTransition (failure : TransitionFailure E)
  | stateRootMismatch (expected actual : String)
  | ruleViolation (rule : String)
  deriving DecidableEq, Repr

namespace Rejection

variable {E : Type}

def kind : Rejection E → String
  | .malformedHeader _ => "MalformedHeader"
  | .unknownParent _ => "UnknownParent"
  | .badHeight _ _ => "BadHeight"
  | .bodyMismatch _ _ => "BodyMismatch"
  | .invalidDigest _ => "InvalidConsensus"
  | .invalidTransition _ => "InvalidTransition"
  | .stateRootMismatch _ _ => "StateRootMismatch"
  | .ruleViolation _ => "RuleViolation"

def describe (causeValue : E → Value) : Rejection E → Except Fault String
  | .malformedHeader field => .ok ("malformed header field " ++ field.name)
  | .unknownParent parent => .ok ("unknown parent " ++ parent)
  | .badHeight expected actual =>
      .ok ("bad height: expected " ++ toString expected ++ ", got " ++ toString actual)
  | .bodyMismatch expected actual =>
      .ok ("body does not match extrinsics root " ++ expected ++ " (computed " ++ actual ++ ")")
  | .invalidDigest cause => .ok ("digest invalid: " ++ cause.hash ++ " above threshold")
  | .invalidTransition failure => do
      let cause ← (causeValue failure.cause).display
      return "extrinsic " ++ toString failure.index ++ " failed: " ++ cause
  | .stateRootMismatch expected actual =>
      .ok ("state root mismatch: header " ++ expected ++ ", computed " ++ actual)
  | .ruleViolation rule => .ok ("violates rule " ++ rule)

end Rejection

structure ParentContext (S : Type) where
  id : String
  height : Int
  state : S

structure Validity (S T E : Type) where
  machine : Machine S T E
  difficulty : Difficulty
  rules : List (ChainRule S) := []

namespace Validity

variable {S T E : Type}

def brokenRule? (v : Validity S T E) (h : Header) (post : S) : Option (ChainRule S) :=
  v.rules.find? fun r => !r.check h post

def checkLinked (v : Validity S T E) (parent : ParentContext S) (b : Block T) :
    Except Fault (Except (Rejection E) S) := do
  if b.header.height ≠ parent.height + 1 then
    return .error (.badHeight (parent.height + 1) b.header.height)
  let bodyRoot ← v.machine.bodyRoot b.body
  if bodyRoot ≠ b.header.extrinsicsRoot then
    return .error (.bodyMismatch b.header.extrinsicsRoot bodyRoot)
  match ← b.header.checkDigest v.difficulty with
  | .error cause => return .error (.invalidDigest cause)
  | .ok () =>
      match v.machine.run parent.state b.body with
      | .error failure => return .error (.invalidTransition failure)
      | .ok post =>
          let stateRoot ← v.machine.stateRoot post
          if stateRoot ≠ b.header.stateRoot then
            return .error (.stateRootMismatch b.header.stateRoot stateRoot)
          match v.brokenRule? b.header post with
          | some rule => return .error (.ruleViolation rule.name)
          | none => return .ok post

def check (v : Validity S T E) (parent : Option (ParentContext S)) (b : Block T) :
    Except Fault (Except (Rejection E) S) :=
  match b.header.malformedField? with
  | some field => .ok (.error (.malformedHeader field))
  | none => match parent with
      | none => .ok (.error (.unknownParent b.header.parent))
      | some parent =>
          if parent.id ≠ b.header.parent then .ok (.error (.unknownParent b.header.parent))
          else v.checkLinked parent b

end Validity

end BlockTree
