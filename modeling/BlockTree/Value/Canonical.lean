import BlockTree.Rlp
import BlockTree.Text
import BlockTree.Value

namespace BlockTree

inductive Term where
  | null
  | natural (n : Nat)
  | bytes (b : Bytes)
  | list (terms : List Term)
  deriving Repr

namespace Term

mutual

def item : Term → Rlp.Item
  | .null => .bytes []
  | .natural n => .bytes (Bytes.ofNat n)
  | .bytes b => .bytes b
  | .list terms => .list (items terms)

def items : List Term → List Rlp.Item
  | [] => []
  | t :: ts => item t :: items ts

end

def encode (t : Term) : Bytes :=
  Rlp.encode t.item

def sort (ts : List Term) : List Term :=
  (Sorting.sort (fun a b => Bytes.le a.1 b.1) (ts.map fun t => (t.encode, t))).map Prod.snd

end Term

namespace Value

def collectFields (fields : List (String × Except Fault Term)) : Except Fault (List Term) :=
  collect <| (Sorting.sort (fun a b => Text.le a.1 b.1) fields).map fun f =>
    f.2.map fun t => .list [.bytes (Text.utf8 f.1), t]

mutual

def canonical : Value → Except Fault Term
  | .null => .ok .null
  | .absent => .ok .null
  | .bool b => .ok (.natural (if b then 1 else 0))
  | .number x => match x.safeNat? with
      | some n => .ok (.natural n)
      | none => .error (.unsafeNumber x)
  | .integer n => if n < 0 then .error (.negativeInteger n) else .ok (.natural n.toNat)
  | .text s => .ok (.bytes (Text.utf8 s))
  | .bytes b => .ok (.bytes b)
  | .symbol => .error (.unencodable .symbol)
  | .function _ => .error (.unencodable .function)
  | .boxed _ => .ok (.list [])
  | .failure _ => .ok (.list [])
  | .list items => do
      let ts ← collect (canonicalItems items)
      return .list ts
  | .record fields => do
      let ts ← collectFields (canonicalFields fields)
      return .list ts
  | .dict entries => do
      let ts ← collect (canonicalEntries entries)
      return .list (Term.sort ts)
  | .set members => do
      let ts ← collect (canonicalItems members)
      return .list (Term.sort ts)
  | .enclosing _ => .error .circular

def canonicalItems : List Value → List (Except Fault Term)
  | [] => []
  | v :: vs => canonical v :: canonicalItems vs

def canonicalFields : List (String × Value) → List (String × Except Fault Term)
  | [] => []
  | (_, .absent) :: fs => canonicalFields fs
  | (k, v) :: fs => (k, canonical v) :: canonicalFields fs

def canonicalEntries : List (Value × Value) → List (Except Fault Term)
  | [] => []
  | (k, v) :: es =>
      (do
        let k ← canonical k
        let v ← canonical v
        return .list [k, v]) :: canonicalEntries es

end

def encode (v : Value) : Except Fault Bytes := do
  let t ← v.canonical
  return t.encode

end Value

end BlockTree
