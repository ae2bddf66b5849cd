import BlockTree.Header

namespace BlockTree

structure ChainRule (S : Type) where
  name : String
  check : Header → S → Bool

inductive Parity where
  | even
  | odd
  deriving DecidableEq, Repr

namespace Parity

def name : Parity → String
  | even => "even"
  | odd => "odd"

def holds (p : Parity) (n : Int) : Bool :=
  match p with
  | even => decide (n % 2 = 0)
  | odd => decide (n % 2 ≠ 0)

end Parity

def ChainRule.parityFrom {S : Type} (height : Int) (p : Parity) (read : S → Int) : ChainRule S where
  name := p.name ++ "-state-from-" ++ toString height
  check h s := decide (h.height < height) || p.holds (read s)

end BlockTree
