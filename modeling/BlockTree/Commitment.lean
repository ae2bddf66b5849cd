import BlockTree.Hex
import BlockTree.Keccak
import BlockTree.Machine
import BlockTree.Value.Canonical

namespace BlockTree

namespace Commitment

def pairUp : List Bytes → List Bytes
  | [] => []
  | [x] => [keccak256 (x ++ x)]
  | x :: y :: rest => keccak256 (x ++ y) :: pairUp rest

theorem length_pairUp (leaves : List Bytes) :
    (pairUp leaves).length = (leaves.length + 1) / 2 := by
  fun_induction pairUp leaves with
  | case1 => simp
  | case2 => simp
  | case3 x y rest ih => simp only [List.length_cons, ih]; omega

def merkleRoot : List Bytes → Bytes
  | [] => keccak256 []
  | [x] => x
  | x :: y :: rest => merkleRoot (pairUp (x :: y :: rest))
termination_by leaves => leaves.length
decreasing_by rw [length_pairUp]; simp only [List.length_cons]; omega

def rootPreimage (count : Nat) (root : Bytes) : Bytes :=
  Rlp.encode (.list [.bytes (Bytes.ofNat count), .bytes root])

def rootOfLeaves (leaves : List Bytes) : String :=
  Hex.encode (keccak256 (rootPreimage leaves.length (merkleRoot leaves)))

def leaves : List Value → Except Fault (List Bytes)
  | [] => .ok []
  | x :: xs => do
      let bytes ← x.encode
      let rest ← leaves xs
      return keccak256 bytes :: rest

def bodyRoot (body : List Value) : Except Fault String := do
  let leaves ← leaves body
  return rootOfLeaves leaves

end Commitment

def Value.digest (v : Value) : Except Fault String := do
  let bytes ← v.encode
  return Hex.encode (keccak256 bytes)

namespace Machine

variable {S T E : Type}

def bodyRoot (m : Machine S T E) (body : List T) : Except Fault String :=
  Commitment.bodyRoot (body.map m.extrinsicValue)

def stateBytes (m : Machine S T E) (s : S) : Except Fault Bytes :=
  match m.encodeState with
  | some encode => .ok (encode s)
  | none => (m.stateValue s).encode

def stateRoot (m : Machine S T E) (s : S) : Except Fault String := do
  let bytes ← m.stateBytes s
  return Hex.encode (keccak256 bytes)

end Machine

def genesisParent : String :=
  Hex.encode (List.replicate 32 0)

end BlockTree
