import BlockTree.Commitment
import BlockTree.Header

namespace BlockTree

structure Block (T : Type) where
  header : Header
  body : List T
  deriving DecidableEq, Repr

structure Draft (S T : Type) where
  header : UnsealedHeader
  body : List T
  postState : S

namespace Draft

variable {S T : Type}

def sealWith (d : Draft S T) (nonce : Int) : Block T :=
  ⟨d.header.sealWith nonce, d.body⟩

end Draft

namespace Machine

variable {S T E : Type}

def genesisBlock (m : Machine S T E) (s : S) : Except Fault (Block T) := do
  let bodyRoot ← m.bodyRoot []
  let stateRoot ← m.stateRoot s
  return ⟨⟨⟨genesisParent, 0, bodyRoot, stateRoot⟩, 0⟩, []⟩

def draftOn (m : Machine S T E) (parent : Header) (s : S) (body : List T) :
    Except Fault (Except (TransitionFailure E) (Draft S T)) :=
  match m.run s body with
  | .error failure => .ok (.error failure)
  | .ok post => do
      let id ← parent.id
      let bodyRoot ← m.bodyRoot body
      let stateRoot ← m.stateRoot post
      return .ok ⟨⟨id, parent.height + 1, bodyRoot, stateRoot⟩, body, post⟩

end Machine

end BlockTree
