import BlockTree.Bytes

namespace BlockTree.Rlp

inductive Item where
  | bytes (b : Bytes)
  | list (items : List Item)
  deriving Repr

def announce (offset n : Nat) : Bytes :=
  if n < 56 then [UInt8.ofNat (offset + n)]
  else
    let size := Bytes.ofNat n
    UInt8.ofNat (offset + 55 + size.length) :: size

def encodeBytes (b : Bytes) : Bytes :=
  match b with
  | [x] => if x < 128 then [x] else announce 128 1 ++ [x]
  | _ => announce 128 b.length ++ b

mutual

def encode : Item → Bytes
  | .bytes b => encodeBytes b
  | .list items =>
      let body := encodeAll items
      announce 192 body.length ++ body

def encodeAll : List Item → Bytes
  | [] => []
  | x :: xs => encode x ++ encodeAll xs

end

end BlockTree.Rlp
