import BlockTree.Hex
import BlockTree.Keccak
import BlockTree.Rlp

namespace BlockTree

structure UnsealedHeader where
  parent : String
  height : Int
  extrinsicsRoot : String
  stateRoot : String
  deriving DecidableEq, Repr

structure Header extends UnsealedHeader where
  nonce : Int
  deriving DecidableEq, Repr

def UnsealedHeader.sealWith (h : UnsealedHeader) (nonce : Int) : Header :=
  { h with nonce }

def Rlp.Item.natural (n : Nat) : Rlp.Item :=
  .bytes (Bytes.ofNat n)

def Rlp.Item.ofInt (n : Int) : Except Fault Rlp.Item :=
  if n < 0 then .error .signedInteger else .ok (.natural n.toNat)

namespace Header

inductive Field where
  | parent
  | height
  | extrinsicsRoot
  | stateRoot
  | nonce
  deriving DecidableEq, Repr

def Field.name : Field → String
  | .parent => "parent"
  | .height => "height"
  | .extrinsicsRoot => "extrinsicsRoot"
  | .stateRoot => "stateRoot"
  | .nonce => "nonce"

def fieldOk (h : Header) : Field → Bool
  | .parent => Hex.isDigest h.parent
  | .height => decide (0 ≤ h.height)
  | .extrinsicsRoot => Hex.isDigest h.extrinsicsRoot
  | .stateRoot => Hex.isDigest h.stateRoot
  | .nonce => decide (0 ≤ h.nonce)

def fields : List Field :=
  [.parent, .height, .extrinsicsRoot, .stateRoot, .nonce]

def malformedField? (h : Header) : Option Field :=
  fields.find? fun f => !h.fieldOk f

theorem malformedField?_eq_none_iff (h : Header) :
    h.malformedField? = none ↔ ∀ f, h.fieldOk f = true := by
  constructor
  · intro hn f
    have := List.find?_eq_none.1 hn f (by cases f <;> simp [fields])
    simpa using this
  · intro hf
    exact List.find?_eq_none.2 fun f _ => by simp [hf f]

def item (h : Header) : Except Fault Rlp.Item := do
  let parent ← Hex.decode h.parent
  let extrinsicsRoot ← Hex.decode h.extrinsicsRoot
  let stateRoot ← Hex.decode h.stateRoot
  let height ← Rlp.Item.ofInt h.height
  let nonce ← Rlp.Item.ofInt h.nonce
  return .list [.bytes parent, height, .bytes extrinsicsRoot, .bytes stateRoot, nonce]

def encode (h : Header) : Except Fault Bytes := do
  let item ← h.item
  return Rlp.encode item

def id (h : Header) : Except Fault String := do
  let bytes ← h.encode
  return Hex.encode (keccak256 bytes)

end Header

end BlockTree
