import BlockTree.Number

namespace BlockTree

structure Decimal where
  digits : Nat
  exponent : Int
  deriving DecidableEq, Repr

namespace Decimal

open Number

def against (d : Decimal) (n : Nat) (j : Int) : Ordering :=
  compare (d.digits * pow10 d.exponent * pow2 (-j))
    (n * pow2 j * pow10 (-d.exponent))

def readsAs (d : Decimal) (m : Nat) (q : Int) : Bool :=
  let low := if m = leastFull ∧ q > -1074 then 4 * m - 1 else 4 * m - 2
  let closed := m % 2 == 0
  let l := d.against low (q - 2)
  let h := d.against (4 * m + 2) (q - 2)
  (l == .gt || (closed && l == .eq)) && (h == .lt || (closed && h == .eq))

def scale (m : Nat) (q : Int) : Int :=
  let k := (m.log2 + q) * 30103 / 100000
  if (Decimal.mk 1 k).against m q == .gt then k
  else if (Decimal.mk 1 (k + 1)).against m q == .gt then k + 1
  else k + 2

def onGrid (m : Nat) (q g : Int) : Option Decimal :=
  let num := m * pow2 q * pow10 (-g)
  let den := pow2 (-q) * pow10 g
  let f := num / den
  match (Decimal.mk f g).readsAs m q, (Decimal.mk (f + 1) g).readsAs m q with
  | true, true => some ⟨Number.roundHalfEven num den, g⟩
  | true, false => some ⟨f, g⟩
  | false, true => some ⟨f + 1, g⟩
  | false, false => none

def strip : Nat → Decimal → Decimal
  | 0, d => d
  | n + 1, d => if d.digits % 10 = 0 then strip n ⟨d.digits / 10, d.exponent + 1⟩ else d

def shortest (m : Nat) (q : Int) : Decimal :=
  let k := scale m q
  match (List.range' 1 17).findSome? fun n : Nat => onGrid m q (k - n) with
  | some d => strip 17 d
  | none => ⟨m * pow2 q * Nat.pow 5 (-q).toNat, min q 0⟩

def zeros (n : Int) : List Char :=
  List.replicate n.toNat '0'

def layout (d : Decimal) : List Char :=
  let ds := Nat.toDigits 10 d.digits
  let point := (ds.length : Int) + d.exponent
  if ds.length ≤ point ∧ point ≤ 21 then ds ++ zeros d.exponent
  else if 0 < point ∧ point ≤ 21 then ds.take point.toNat ++ '.' :: ds.drop point.toNat
  else if -6 < point ∧ point ≤ 0 then '0' :: '.' :: zeros (-point) ++ ds
  else
    let e := point - 1
    let mark := 'e' :: (if e < 0 then '-' else '+') :: Nat.toDigits 10 e.natAbs
    match ds with
    | [c] => c :: mark
    | c :: rest => c :: '.' :: rest ++ mark
    | [] => mark

end Decimal

namespace Number

def text : Number → String
  | .nan => "NaN"
  | .infinite negative => if negative then "-Infinity" else "Infinity"
  | .finite negative m e =>
      if m = 0 then "0"
      else String.ofList ((if negative then ['-'] else []) ++ (Decimal.shortest m e).layout)

example : (ofDecimal false 1 (-1)).text = "0.1" := by decide +kernel
example : (ofDecimal true 15 (-8)).text = "-1.5e-7" := by decide +kernel
example : (ofDecimal false 5 (-324)).text = "5e-324" := by decide +kernel
example : (ofDecimal false 1 21).text = "1e+21" := by decide +kernel
example : (ofDecimal false 9007199254740993 0).text = "9007199254740992" := by decide +kernel

end Number

end BlockTree
