import BlockTree.Difficulty

namespace BlockTree

structure ForkChoice where
  name : String
  weight : String → Header → Difficulty → Int

inductive Preference where
  | heaviestChain
  | achievedWork
  | longestChain
  | mostEvenHashes
  deriving DecidableEq, Repr

namespace Preference

def name : Preference → String
  | heaviestChain => "heaviest-chain"
  | achievedWork => "achieved-work"
  | longestChain => "longest-chain"
  | mostEvenHashes => "most-even-hashes"

def all : List Preference :=
  [heaviestChain, achievedWork, longestChain, mostEvenHashes]

def ofName? (name : String) : Option Preference :=
  all.find? fun p => p.name = name

theorem ofName?_name (p : Preference) : ofName? p.name = some p := by
  cases p <;> decide +kernel

def weight (p : Preference) (id : String) (d : Difficulty) : Int :=
  match p with
  | heaviestChain => d.work
  | achievedWork => (Nat.pow 2 256 / (Hex.toNat id + 1) : Nat)
  | longestChain => 1
  | mostEvenHashes => if Hex.toNat id % 2 = 0 then 1 else 0

def weightAt (p : Preference) (id : String) (x : Number) : Except Fault Int :=
  match p with
  | heaviestChain => do
      let d ← Difficulty.ofNumber x
      return heaviestChain.weight id d
  | p => .ok (p.weight id .zero)

def rule (p : Preference) : ForkChoice where
  name := p.name
  weight id _ d := p.weight id d

end Preference

namespace ForkChoice

def beats (a b : String × Int) : Bool :=
  decide (b.2 < a.2) || (decide (a.2 = b.2) && Text.lt a.1 b.1)

def bestOf (best : Option (String × Int)) : List (String × Option Int) → Option (String × Int)
  | [] => best
  | (_, none) :: rest => bestOf best rest
  | (id, some w) :: rest =>
      match best with
      | none => bestOf (some (id, w)) rest
      | some b => bestOf (some (if beats (id, w) b then (id, w) else b)) rest

def head (genesisId : String) (leaves : List (String × Option Int)) : String :=
  ((bestOf none leaves).map Prod.fst).getD genesisId

end ForkChoice

end BlockTree
