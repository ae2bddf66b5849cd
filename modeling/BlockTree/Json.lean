import BlockTree.Number.Decimal
import BlockTree.Sorting
import BlockTree.Table

namespace BlockTree

inductive Json where
  | null
  | bool (b : Bool)
  | number (x : Number)
  | text (s : String)
  | array (items : List Json)
  | object (fields : List (String × Json))
  deriving Repr

namespace Json

def field? (key : String) : Json → Option Json
  | .object fields => Assoc.get? key fields
  | _ => none

def index? (key : String) : Option Nat :=
  match key.toList with
  | [] => none
  | c :: cs =>
      if (c :: cs).all Char.isDigit ∧ (c ≠ '0' ∨ cs = []) then
        let n := (c :: cs).foldl (fun n d => n * 10 + (d.toNat - 48)) 0
        if n < 4294967295 then some n else none
      else none

def fieldLe {α : Type} (a b : String × α) : Bool :=
  match index? a.1, index? b.1 with
  | some m, some n => decide (m ≤ n)
  | some _, none => true
  | none, some _ => false
  | none, none => true

def arrange {α : Type} (fields : List (String × α)) : List (String × α) :=
  Sorting.sort fieldLe fields

def hexDigits (n : Nat) : List Char :=
  [Nat.digitChar (n / 16), Nat.digitChar (n % 16)]

def escape (c : Char) : List Char :=
  if c = '"' then ['\\', '"']
  else if c = '\\' then ['\\', '\\']
  else if c.toNat ≥ 32 then [c]
  else if c.toNat = 8 then ['\\', 'b']
  else if c.toNat = 9 then ['\\', 't']
  else if c.toNat = 10 then ['\\', 'n']
  else if c.toNat = 12 then ['\\', 'f']
  else if c.toNat = 13 then ['\\', 'r']
  else '\\' :: 'u' :: '0' :: '0' :: hexDigits c.toNat

def quoted (s : String) : List Char :=
  '"' :: s.toList.flatMap escape ++ ['"']

def numberChars : Number → List Char
  | .finite negative m e => (Number.finite negative m e).text.toList
  | _ => "null".toList

mutual

def chars : Json → List Char
  | .null => "null".toList
  | .bool b => (if b then "true" else "false").toList
  | .number x => numberChars x
  | .text s => quoted s
  | .array [] => ['[', ']']
  | .array (x :: xs) => '[' :: chars x ++ itemChars xs
  | .object [] => ['{', '}']
  | .object ((k, x) :: fs) => '{' :: quoted k ++ ':' :: chars x ++ fieldChars fs

def itemChars : List Json → List Char
  | [] => [']']
  | x :: xs => ',' :: chars x ++ itemChars xs

def fieldChars : List (String × Json) → List Char
  | [] => ['}']
  | (k, x) :: fs => ',' :: quoted k ++ ':' :: chars x ++ fieldChars fs

end

def render (j : Json) : String :=
  String.ofList j.chars

end Json

end BlockTree
