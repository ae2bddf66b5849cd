import BlockTree.Admission

namespace BlockTree

structure SubChainFailure (E : Type) where
  index : Int
  reason : Rejection E
  deriving DecidableEq, Repr

namespace Validity

variable {S T E : Type}

def verifyFrom (v : Validity S T E) (index : Int) (parent : ParentContext S) :
    List (Block T) → Except Fault (Except (SubChainFailure E) S)
  | [] => .ok (.ok parent.state)
  | b :: bs => do
      match ← v.check (some parent) b with
      | .error reason => return .error ⟨index, reason⟩
      | .ok post =>
          let id ← b.header.id
          verifyFrom v (index + 1) ⟨id, b.header.height, post⟩ bs

def verifySubChain (v : Validity S T E) (anchor : Block T) (s : S) (blocks : List (Block T)) :
    Except Fault (Except (SubChainFailure E) S) := do
  let root ← v.machine.stateRoot s
  if root ≠ anchor.header.stateRoot then
    return .error ⟨-1, .stateRootMismatch anchor.header.stateRoot root⟩
  let id ← anchor.header.id
  v.verifyFrom 0 ⟨id, anchor.header.height, s⟩ blocks

end Validity

end BlockTree
