import BlockTree.Block

namespace BlockTree

structure Entry (T : Type) where
  id : String
  block : Block T
  parent : Option String
  height : Int
  deriving DecidableEq, Repr

namespace Entry

variable {T : Type}

def find? (id : String) (es : List (Entry T)) : Option (Entry T) :=
  es.find? fun e => e.id = id

def path (id : String) : List (Entry T) → List (Entry T)
  | [] => []
  | e :: es =>
      if e.id = id then
        match e.parent with
        | none => [e]
        | some parent => e :: path parent es
      else path id es

end Entry

end BlockTree
