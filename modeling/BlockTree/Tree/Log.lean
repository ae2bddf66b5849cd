import BlockTree.Admission

namespace BlockTree

inductive LogRecord (E : Type) where
  | malformed (field : Header.Field)
  | rejected (id : String) (height : Int) (reason : Rejection E)
  | admitted (id parent : String) (height : Int)
  | headSwitched (before after : String) (height : Option Int)
  | mined (id : String) (height nonce : Int)
  deriving DecidableEq, Repr

namespace LogRecord

variable {E : Type}

inductive Level where
  | debug
  | info
  | warn
  deriving DecidableEq, Repr

def Level.name : Level → String
  | .debug => "debug"
  | .info => "info"
  | .warn => "warn"

def level : LogRecord E → Level
  | .malformed _ | .rejected _ _ _ => .warn
  | .admitted _ _ _ => .debug
  | .headSwitched _ _ _ | .mined _ _ _ => .info

def message (causeValue : E → Value) : LogRecord E → Except Fault String
  | .malformed field => do
      let reason ← (Rejection.malformedHeader field).describe causeValue
      return "block rejected: " ++ reason
  | .rejected _ _ reason => do
      let reason ← reason.describe causeValue
      return "block rejected: " ++ reason
  | .admitted _ _ _ => .ok "block admitted"
  | .headSwitched _ _ _ => .ok "canonical head switched"
  | .mined _ _ _ => .ok "mined block"

def fields : LogRecord E → List (String × Value)
  | .malformed field => [("kind", .text "MalformedHeader"), ("field", .text field.name)]
  | .rejected id height reason =>
      [("id", .text id), ("height", .integer height), ("kind", .text reason.kind)]
  | .admitted id parent height =>
      [("id", .text id), ("parent", .text parent), ("height", .integer height)]
  | .headSwitched before after height =>
      [("from", .text before), ("to", .text after),
        ("height", (height.map Value.integer).getD .absent)]
  | .mined id height nonce =>
      [("id", .text id), ("height", .integer height), ("nonce", .text (toString nonce))]

end LogRecord

end BlockTree
