
namespace BlockTree

inductive Number where
  | nan
  | infinite (negative : Bool)
  | finite (negative : Bool) (mantissa : Nat) (exponent : Int)
  deriving DecidableEq, Repr

namespace Number

def maxSafe : Nat := 9007199254740991

def pow2 (e : Int) : Nat := Nat.pow 2 e.toNat

def pow10 (e : Int) : Nat := Nat.pow 10 e.toNat

def leastFull : Nat := 4503599627370496

def roundHalfEven (num den : Nat) : Nat :=
  let q := num / den
  let r := 2 * (num % den)
  if r < den ∨ (r = den ∧ q % 2 = 0) then q else q + 1

def exponentFor (num den : Nat) : Int :=
  let e := (num.log2 : Int) - den.log2 - 52
  let e := if num * pow2 (-e) / (den * pow2 e) < leastFull then e - 1 else e
  max e (-1074)

def ofRatio (negative : Bool) (num den : Nat) : Number :=
  if num = 0 then .finite negative 0 0
  else
    let e := exponentFor num den
    let m := roundHalfEven (num * pow2 (-e)) (den * pow2 e)
    if m = 0 then .finite negative 0 0
    else if m = 2 * leastFull then
      if e + 1 > 971 then .infinite negative else .finite negative leastFull (e + 1)
    else if e > 971 then .infinite negative
    else .finite negative m e

def ofDecimal (negative : Bool) (digits : Nat) (exponent : Int) : Number :=
  if digits = 0 then .finite negative 0 0
  else if exponent > 400 then .infinite negative
  else if exponent < -400 - digits.log2 then .finite negative 0 0
  else ofRatio negative (digits * pow10 exponent) (pow10 (-exponent))

def ofInt (n : Int) : Number :=
  ofRatio (decide (n < 0)) n.natAbs 1

def toInt? : Number → Option Int
  | .nan => none
  | .infinite _ => none
  | .finite negative m e =>
      let scale := pow2 (-e)
      if m % scale = 0 then
        let n : Nat := m / scale * pow2 e
        some (if negative then -n else n)
      else none

def safeNat? (x : Number) : Option Nat :=
  match x.toInt? with
  | some n => if 0 ≤ n ∧ n ≤ maxSafe then some n.toNat else none
  | none => none

def signed (negative : Bool) (m : Nat) : Int :=
  if negative then -m else m

def below (x : Number) (n : Int) : Bool :=
  match x with
  | .nan => false
  | .infinite negative => negative
  | .finite negative m e => decide (signed negative m * pow2 e < n * pow2 (-e))

def above (x : Number) (n : Int) : Bool :=
  match x with
  | .nan => false
  | .infinite negative => !negative
  | .finite negative m e => decide (n * pow2 (-e) < signed negative m * pow2 e)

def sameKey (x y : Number) : Bool :=
  match x, y with
  | .finite _ 0 _, .finite _ 0 _ => true
  | _, _ => decide (x = y)

end Number

end BlockTree
