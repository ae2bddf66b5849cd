import BlockTree.Difficulty

namespace BlockTree.Mining

def hits (h : UnsealedHeader) (d : Difficulty) (nonce : Int) : Except Fault Bool := do
  let id ← (h.sealWith nonce).id
  return d.admits id

def search (h : UnsealedHeader) (d : Difficulty) (start : Int) :
    Nat → Except Fault (Option Int)
  | 0 => .ok none
  | attempts + 1 => do
      if ← hits h d start then return some start
      search h d (start + 1) attempts

def searchFailing (h : UnsealedHeader) (d : Difficulty) (start : Int) :
    Nat → Except Fault (Option Int)
  | 0 => .ok none
  | attempts + 1 => do
      if ← hits h d start then searchFailing h d (start + 1) attempts
      else return some start

def maxPatience : Nat := 1152921504606846976

def mineFirst (h : UnsealedHeader) (d : Difficulty) (patience : Nat := maxPatience) :
    Except Fault (Option Int) :=
  search h d 0 patience

def mineFrom (h : UnsealedHeader) (d : Difficulty) (start : Int := 0)
    (window : Option Int := none) (patience : Nat := maxPatience) : Except Fault (Option Int) :=
  search h d start (match window with
    | some attempts => attempts.toNat
    | none => patience)

def batchOf (x : Number) : Except Fault Nat :=
  match x.toInt? with
  | none => .error (.fractionalBatch x)
  | some n => if n < 1 then .error .emptyBatch else .ok n.toNat

def mineUntil (h : UnsealedHeader) (d : Difficulty) (start : Int) (batch : Nat) (nonce : Int) :
    Nat → Except Fault Int
  | 0 => .error (.miningAborted (nonce - start))
  | batches + 1 => do
      match ← search h d nonce batch with
      | some found => return found
      | none => mineUntil h d start batch (nonce + batch) batches

def mineWithin (h : UnsealedHeader) (d : Difficulty) (batch : Nat) (nonce : Int) :
    Nat → Except Fault (Option Int)
  | 0 => .ok none
  | batches + 1 => do
      match ← search h d nonce batch with
      | some found => return some found
      | none => mineWithin h d batch (nonce + batch) batches

structure Options where
  start : Int := 0
  batchSize : Number := .ofInt 1000
  signal : Option Nat := none
  patience : Nat := maxPatience

def mine (h : UnsealedHeader) (d : Difficulty) (o : Options := {}) : Except Fault (Option Int) := do
  let batch ← batchOf o.batchSize
  match o.signal with
  | some reads => do
      let nonce ← mineUntil h d o.start batch o.start reads
      return some nonce
  | none => mineWithin h d batch o.start o.patience

end BlockTree.Mining
