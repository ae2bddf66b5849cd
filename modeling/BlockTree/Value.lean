import BlockTree.Bytes
import BlockTree.Fault
import BlockTree.Table

namespace BlockTree

inductive Value where
  | null
  | absent
  | bool (b : Bool)
  | number (x : Number)
  | integer (n : Int)
  | text (s : String)
  | bytes (b : Bytes)
  | symbol
  -- what a call of the function gives, or the message of what it throws
  | function (answer : Except String Value)
  -- an integer as an object, which has no fields
  | boxed (n : Int)
  | failure (message : String)
  | list (items : List Value)
  | record (fields : List (String × Value))
  | dict (entries : List (Value × Value))
  | set (members : List Value)
  -- a container around this place, the innermost being at depth zero
  | enclosing (depth : Nat)
  deriving Repr

namespace Value

def sameKey : Value → Value → Bool
  | .null, .null => true
  | .absent, .absent => true
  | .bool a, .bool b => a == b
  | .number x, .number y => x.sameKey y
  | .integer m, .integer n => m == n
  | .text s, .text t => s == t
  | _, _ => false

-- the first fault in a list, or all its results
def collect {α : Type} : List (Except Fault α) → Except Fault (List α)
  | [] => .ok []
  | x :: xs => do
      let a ← x
      let as ← collect xs
      return a :: as

def ofFields (fields : List (String × Value)) : Value :=
  .record (Assoc.ofList fields)

def putEntry (k v : Value) : List (Value × Value) → List (Value × Value)
  | [] => [(k, v)]
  | e :: es => if e.1.sameKey k then (e.1, v) :: es else e :: putEntry k v es

def ofEntries (entries : List (Value × Value)) : Value :=
  .dict (entries.foldl (fun es e => putEntry e.1 e.2 es) [])

def ofMembers (members : List Value) : Value :=
  .set (members.foldl (fun ms m => if ms.any (·.sameKey m) then ms else ms ++ [m]) [])

end Value

end BlockTree
