import BlockTree.Json
import BlockTree.Text

namespace BlockTree.Json

def isBlank (c : Char) : Bool :=
  c == ' ' || c == '\t' || c == '\n' || c == '\r'

def skipBlanks (cs : List Char) : List Char :=
  cs.dropWhile isBlank

def hexValue? (c : Char) : Option Nat :=
  if '0' ≤ c ∧ c ≤ '9' then some (c.toNat - 48)
  else if 'a' ≤ c ∧ c ≤ 'f' then some (c.toNat - 87)
  else if 'A' ≤ c ∧ c ≤ 'F' then some (c.toNat - 55)
  else none

def unit? (a b c d : Char) : Option Nat := do
  return (((← hexValue? a) * 16 + (← hexValue? b)) * 16 + (← hexValue? c)) * 16 + (← hexValue? d)

def unescape? : Char → Option Char
  | '"' => some '"'
  | '\\' => some '\\'
  | '/' => some '/'
  | 'b' => some '\x08'
  | 'f' => some '\x0c'
  | 'n' => some '\n'
  | 'r' => some '\r'
  | 't' => some '\t'
  | _ => none

def readUnits (acc : List Nat) : List Char → Option (List Nat × List Char)
  | [] => none
  | '"' :: rest => some (acc.reverse, rest)
  | '\\' :: 'u' :: a :: b :: c :: d :: rest =>
      match unit? a b c d with
      | some u => readUnits (u :: acc) rest
      | none => none
  | '\\' :: e :: rest =>
      match unescape? e with
      | some c => readUnits (c.toNat :: acc) rest
      | none => none
  | c :: rest =>
      if c.toNat < 32 ∨ c = '\\' then none
      else readUnits ((Text.charUnits c).reverse ++ acc) rest

def readText (cs : List Char) : Option (String × List Char) :=
  (readUnits [] cs).map fun p => (Text.ofUnits p.1, p.2)

def digitsValue (ds : List Char) : Nat :=
  ds.foldl (fun n d => n * 10 + (d.toNat - 48)) 0

def splitDigits (cs : List Char) : List Char × List Char :=
  (cs.takeWhile Char.isDigit, cs.dropWhile Char.isDigit)

def readFraction : List Char → Option (List Char × List Char)
  | '.' :: cs => match splitDigits cs with
      | ([], _) => none
      | p => some p
  | cs => some ([], cs)

def readExponentDigits (cs : List Char) : Option (Nat × List Char) :=
  match splitDigits cs with
  | ([], _) => none
  | (ds, rest) => some (digitsValue ds, rest)

def readExponent : List Char → Option (Int × List Char)
  | c :: cs =>
      if c = 'e' ∨ c = 'E' then
        match cs with
        | '-' :: cs => (readExponentDigits cs).map fun p => (-(p.1 : Int), p.2)
        | '+' :: cs => (readExponentDigits cs).map fun p => ((p.1 : Int), p.2)
        | cs => (readExponentDigits cs).map fun p => ((p.1 : Int), p.2)
      else some (0, c :: cs)
  | [] => some (0, [])

def readMagnitude (negative : Bool) (cs : List Char) : Option (Number × List Char) :=
  match splitDigits cs with
  | ([], _) => none
  | ('0' :: _ :: _, _) => none
  | (whole, rest) => do
      let (fraction, rest) ← readFraction rest
      let (exponent, rest) ← readExponent rest
      return (.ofDecimal negative (digitsValue (whole ++ fraction)) (exponent - fraction.length),
        rest)

def readNumber : List Char → Option (Number × List Char)
  | '-' :: cs => readMagnitude true cs
  | cs => readMagnitude false cs

mutual

def readValue : Nat → List Char → Option (Json × List Char)
  | 0, _ => none
  | n + 1, cs =>
      match skipBlanks cs with
      | '{' :: cs => match skipBlanks cs with
          | '}' :: cs => some (.object [], cs)
          | cs => readFields n [] cs
      | '[' :: cs => match skipBlanks cs with
          | ']' :: cs => some (.array [], cs)
          | cs => readItems n [] cs
      | '"' :: cs => (readText cs).map fun p => (.text p.1, p.2)
      | 'n' :: 'u' :: 'l' :: 'l' :: cs => some (.null, cs)
      | 't' :: 'r' :: 'u' :: 'e' :: cs => some (.bool true, cs)
      | 'f' :: 'a' :: 'l' :: 's' :: 'e' :: cs => some (.bool false, cs)
      | cs => (readNumber cs).map fun p => (.number p.1, p.2)

def readItems : Nat → List Json → List Char → Option (Json × List Char)
  | 0, _, _ => none
  | n + 1, acc, cs => do
      let (x, cs) ← readValue n cs
      match skipBlanks cs with
      | ',' :: cs => readItems n (x :: acc) cs
      | ']' :: cs => some (.array (x :: acc).reverse, cs)
      | _ => none

def readFields : Nat → List (String × Json) → List Char → Option (Json × List Char)
  | 0, _, _ => none
  | n + 1, acc, cs =>
      match skipBlanks cs with
      | '"' :: cs => do
          let (key, cs) ← readText cs
          match skipBlanks cs with
          | ':' :: cs => do
              let (x, cs) ← readValue n cs
              match skipBlanks cs with
              | ',' :: cs => readFields n (Assoc.set key x acc) cs
              | '}' :: cs => some (.object (Assoc.set key x acc), cs)
              | _ => none
          | _ => none
      | _ => none

end

def parseChars (cs : List Char) : Option Json :=
  match readValue (cs.length + 1) cs with
  | some (j, rest) => if skipBlanks rest = [] then some j else none
  | none => none

def parse (s : String) : Option Json :=
  parseChars s.toList

end BlockTree.Json
