import BlockTree.Json

namespace BlockTree

inductive Problem where
  | wrongType (expected received : String)
  | missing (key : String)
  | notInteger (x : Number)
  | tooSmall (least : Nat) (x : Number)
  | tooLarge (most : Nat) (x : Number)
  | notNonNegative
  | notDecimal
  | exceedsWord
  | repeatedSerials
  | serialsReached
  deriving DecidableEq, Repr

def Problem.message : Problem → String
  | wrongType expected received =>
      "Invalid type: Expected " ++ expected ++ " but received " ++ received
  | missing key => "Invalid key: Expected \"" ++ key ++ "\" but received undefined"
  | notInteger x => "Invalid integer: Received " ++ x.text
  | tooSmall least x =>
      "Invalid value: Expected >=" ++ toString least ++ " but received " ++ x.text
  | tooLarge most x =>
      "Invalid value: Expected <=" ++ toString most ++ " but received " ++ x.text
  | notNonNegative => "expected a non-negative integer"
  | notDecimal => "expected a decimal integer"
  | exceedsWord => "exceeds u64"
  | repeatedSerials => "bill serials must be unique"
  | serialsReached => "nextSerial must exceed every bill serial"

structure Issue where
  path : List String
  problem : Problem
  deriving DecidableEq, Repr

def Issue.text (i : Issue) : String :=
  (if i.path = [] then "(root)" else ".".intercalate i.path) ++ ": " ++ i.problem.message

structure Reading (α : Type) where
  value : Option α
  issues : List Issue

namespace Reading

variable {α β γ : Type}

def hold (a : α) : Reading α :=
  ⟨some a, []⟩

def refuse (p : Problem) : Reading α :=
  ⟨none, [⟨[], p⟩]⟩

def result (r : Reading α) : Except (List Issue) α :=
  match r.value, r.issues with
  | some a, [] => .ok a
  | _, issues => .error issues

def under (key : String) (r : Reading α) : Reading α :=
  { r with issues := r.issues.map fun i => { i with path := key :: i.path } }

def require (holds : α → Bool) (problem : α → Problem) (r : Reading α) : Reading α :=
  match r.value with
  | some a => if holds a then r else { r with issues := r.issues ++ [⟨[], problem a⟩] }
  | none => r

def convert (f : α → Option β) (r : Reading α) : Reading β :=
  if r.issues = [] then ⟨r.value.bind f, []⟩ else ⟨none, r.issues⟩

def combine (f : α → β → γ) (r : Reading α) (s : Reading β) : Reading γ :=
  ⟨match r.value, s.value with
    | some a, some b => some (f a b)
    | _, _ => none,
    r.issues ++ s.issues⟩

end Reading

namespace Json

def received : Json → String
  | .null => "null"
  | .bool b => if b then "true" else "false"
  | .number x => x.text
  | .text s => "\"" ++ s ++ "\""
  | .array _ => "Array"
  | .object _ => "Object"

def choiceNames (names : List String) : String :=
  match names.map fun s => "\"" ++ s ++ "\"" with
  | [name] => name
  | quoted => "(" ++ " | ".intercalate quoted ++ ")"

def itemFields (index : Nat) : List Json → List (String × Json)
  | [] => []
  | x :: xs => (toString index, x) :: itemFields (index + 1) xs

def fields? : Json → Option (List (String × Json))
  | .object fields => some fields
  | .array items => some (itemFields 0 items)
  | _ => none

def reservedNames : List String :=
  ["__proto__", "prototype", "constructor"]

end Json

namespace Reading

variable {α κ : Type}

def misfit (expected : String) (j : Json) : Reading α :=
  refuse (.wrongType expected j.received)

def bool : Json → Reading Bool
  | .bool b => hold b
  | j => misfit "boolean" j

def number : Json → Reading Number
  | .number x => hold x
  | j => misfit "number" j

def text : Json → Reading String
  | .text s => hold s
  | j => misfit "string" j

def choice (name : α → String) (options : List α) (j : Json) : Reading α :=
  let expected := Json.choiceNames (options.map name)
  match j with
  | .text s => match options.find? fun a => name a = s with
      | some a => hold a
      | none => misfit expected j
  | j => misfit expected j

def object (read : List (String × Json) → Reading α) (j : Json) : Reading α :=
  match j.fields? with
  | some fields => read fields
  | none => misfit "Object" j

def items (read : Json → Reading α) (index : Nat) : List Json → Reading (List α)
  | [] => hold []
  | x :: xs => combine List.cons ((read x).under (toString index)) (items read (index + 1) xs)

def array (read : Json → Reading α) : Json → Reading (List α)
  | .array xs => items read 0 xs
  | j => misfit "Array" j

def entries (readKey : Json → Reading κ) (read : Json → Reading α) :
    List (String × Json) → Reading (List (κ × α))
  | [] => hold []
  | (key, x) :: rest =>
      combine List.cons
        (combine Prod.mk ((readKey (.text key)).under key) ((read x).under key))
        (entries readKey read rest)

def record (readKey : Json → Reading κ) (read : Json → Reading α) :
    Json → Reading (List (κ × α)) :=
  object fun fields =>
    entries readKey read ((Json.arrange fields).filter fun f => f.1 ∉ Json.reservedNames)

def field (key : String) (read : Json → Reading α) (fields : List (String × Json)) : Reading α :=
  match Assoc.get? key fields with
  | some j => (read j).under key
  | none => ⟨none, [⟨[key], .missing key⟩]⟩

def optionalField (key : String) (read : Json → Reading α) (fields : List (String × Json)) :
    Reading (Option α) :=
  match Assoc.get? key fields with
  | some j =>
      let r := (read j).under key
      ⟨r.value.map some, r.issues⟩
  | none => .hold none

def defaultField (key : String) (default : Json) (read : Json → Reading α)
    (fields : List (String × Json)) : Reading α :=
  (read ((Assoc.get? key fields).getD default)).under key

end Reading

end BlockTree
