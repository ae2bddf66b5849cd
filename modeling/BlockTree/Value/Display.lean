import BlockTree.Json
import BlockTree.Text
import BlockTree.Value

namespace BlockTree.Value

def indexed : Nat → Bytes → List (String × Json)
  | _, [] => []
  | i, x :: xs => (toString i, .number (.ofInt x.toNat)) :: indexed (i + 1) xs

def gather (fields : List (String × Except Fault (Option Json))) :
    Except Fault (List (String × Json)) := do
  let js ← collect (fields.map fun f => f.2.map (Prod.mk f.1))
  return js.filterMap fun f => f.2.map (Prod.mk f.1)

mutual

-- a record that is asked is shown as its own method answers, and what that gives is not asked again
def document : Bool → Value → Except Fault (Option Json)
  | _, .null => .ok (some .null)
  | _, .absent => .ok none
  | _, .bool b => .ok (some (.bool b))
  | _, .number x => .ok (some (match x with
      | .finite negative m e => .number (.finite negative m e)
      | _ => .null))
  | _, .integer n => .ok (some (.text (toString n)))
  | _, .text s => .ok (some (.text s))
  | _, .bytes b => .ok (some (.object (indexed 0 b)))
  | _, .symbol => .ok none
  | _, .function _ => .ok none
  | _, .boxed _ => .error .boxedInteger
  | _, .failure _ => .ok (some (.object []))
  | _, .list items => do
      let js ← collect (documentItems items)
      return some (.array (js.map (·.getD .null)))
  | ask, .record fields => match (if ask then told? fields else none) with
      | some answer => answer
      | none => do
          let js ← gather (Json.arrange (documentFields fields))
          return some (.object js)
  | _, .dict _ => .ok (some (.object []))
  | _, .set _ => .ok (some (.object []))
  | _, .enclosing _ => .error .circularDocument

def documentItems : List Value → List (Except Fault (Option Json))
  | [] => []
  | v :: vs => document true v :: documentItems vs

def documentFields : List (String × Value) → List (String × Except Fault (Option Json))
  | [] => []
  | (k, v) :: fs => (k, document true v) :: documentFields fs

-- what the method `toJSON` of a record with these fields gives, if it has one
def told? : List (String × Value) → Option (Except Fault (Option Json))
  | [] => none
  | (k, v) :: fs => if k = "toJSON" then answered? v else told? fs

def answered? : Value → Option (Except Fault (Option Json))
  | .function (.ok v) => some (document false v)
  | .function (.error message) => some (.error (.thrown message))
  | _ => none

end

def display : Value → Except Fault String
  | .failure message => .ok message
  | v => do
      let j? ← v.document true
      return (match j? with
        | some j => j.render
        | none => "undefined")

end BlockTree.Value
