import BlockTree.Bytes

namespace BlockTree.Keccak

structure Row where
  a : UInt64
  b : UInt64
  c : UInt64
  d : UInt64
  e : UInt64
  deriving DecidableEq, Repr

structure State where
  r0 : Row
  r1 : Row
  r2 : Row
  r3 : Row
  r4 : Row
  deriving DecidableEq, Repr

def rotl (x k : UInt64) : UInt64 :=
  (x <<< k) ||| (x >>> (64 - k))

namespace Row

def zero : Row := ⟨0, 0, 0, 0, 0⟩

def xor (p q : Row) : Row :=
  ⟨p.a ^^^ q.a, p.b ^^^ q.b, p.c ^^^ q.c, p.d ^^^ q.d, p.e ^^^ q.e⟩

def spread (p : Row) : Row :=
  ⟨p.e ^^^ rotl p.b 1, p.a ^^^ rotl p.c 1, p.b ^^^ rotl p.d 1, p.c ^^^ rotl p.e 1,
    p.d ^^^ rotl p.a 1⟩

def chi (p : Row) : Row :=
  ⟨p.a ^^^ (~~~p.b &&& p.c), p.b ^^^ (~~~p.c &&& p.d), p.c ^^^ (~~~p.d &&& p.e),
    p.d ^^^ (~~~p.e &&& p.a), p.e ^^^ (~~~p.a &&& p.b)⟩

end Row

namespace State

def zero : State := ⟨.zero, .zero, .zero, .zero, .zero⟩

def xor (s t : State) : State :=
  ⟨s.r0.xor t.r0, s.r1.xor t.r1, s.r2.xor t.r2, s.r3.xor t.r3, s.r4.xor t.r4⟩

def theta (s : State) : State :=
  let d := ((((s.r0.xor s.r1).xor s.r2).xor s.r3).xor s.r4).spread
  ⟨s.r0.xor d, s.r1.xor d, s.r2.xor d, s.r3.xor d, s.r4.xor d⟩

def rhoPi (s : State) : State :=
  ⟨⟨s.r0.a, rotl s.r1.b 44, rotl s.r2.c 43, rotl s.r3.d 21, rotl s.r4.e 14⟩,
    ⟨rotl s.r0.d 28, rotl s.r1.e 20, rotl s.r2.a 3, rotl s.r3.b 45, rotl s.r4.c 61⟩,
    ⟨rotl s.r0.b 1, rotl s.r1.c 6, rotl s.r2.d 25, rotl s.r3.e 8, rotl s.r4.a 18⟩,
    ⟨rotl s.r0.e 27, rotl s.r1.a 36, rotl s.r2.b 10, rotl s.r3.c 15, rotl s.r4.d 56⟩,
    ⟨rotl s.r0.c 62, rotl s.r1.d 55, rotl s.r2.e 39, rotl s.r3.a 41, rotl s.r4.b 2⟩⟩

def chi (s : State) : State :=
  ⟨s.r0.chi, s.r1.chi, s.r2.chi, s.r3.chi, s.r4.chi⟩

def iota (s : State) (k : UInt64) : State :=
  { s with r0 := { s.r0 with a := s.r0.a ^^^ k } }

def round (s : State) (k : UInt64) : State :=
  s.theta.rhoPi.chi.iota k

end State

def roundConstants : List UInt64 :=
  [0x0000000000000001, 0x0000000000008082, 0x800000000000808A, 0x8000000080008000,
    0x000000000000808B, 0x0000000080000001, 0x8000000080008081, 0x8000000000008009,
    0x000000000000008A, 0x0000000000000088, 0x0000000080008009, 0x000000008000000A,
    0x000000008000808B, 0x800000000000008B, 0x8000000000008089, 0x8000000000008003,
    0x8000000000008002, 0x8000000000000080, 0x000000000000800A, 0x800000008000000A,
    0x8000000080008081, 0x8000000000008080, 0x0000000080000001, 0x8000000080008008]

def permute (s : State) : State :=
  roundConstants.foldl State.round s

def laneOfBytes (b : Bytes) : UInt64 :=
  (b.take 8).foldr (fun x n => (n <<< 8) ||| x.toUInt64) 0

def laneBytes (x : UInt64) : Bytes :=
  [x.toUInt8, (x >>> 8).toUInt8, (x >>> 16).toUInt8, (x >>> 24).toUInt8,
    (x >>> 32).toUInt8, (x >>> 40).toUInt8, (x >>> 48).toUInt8, (x >>> 56).toUInt8]

def rowOfBytes (b : Bytes) : Row :=
  ⟨laneOfBytes b, laneOfBytes (b.drop 8), laneOfBytes (b.drop 16), laneOfBytes (b.drop 24),
    laneOfBytes (b.drop 32)⟩

def rate : Nat := 136

def blockState (b : Bytes) : State :=
  ⟨rowOfBytes b, rowOfBytes (b.drop 40), rowOfBytes (b.drop 80), rowOfBytes (b.drop 120), .zero⟩

def padding (length : Nat) : Bytes :=
  match rate - length % rate with
  | 0 => []
  | 1 => [0x81]
  | k + 2 => 0x01 :: List.replicate k 0 ++ [0x80]

def absorb : Nat → State → Bytes → State
  | 0, s, _ => s
  | n + 1, s, b => absorb n (permute (s.xor (blockState (b.take rate)))) (b.drop rate)

def squeeze (s : State) : Bytes :=
  laneBytes s.r0.a ++ laneBytes s.r0.b ++ laneBytes s.r0.c ++ laneBytes s.r0.d

end BlockTree.Keccak

namespace BlockTree

def keccak256 (b : Bytes) : Bytes :=
  Keccak.squeeze (Keccak.absorb (b.length / Keccak.rate + 1) .zero (b ++ Keccak.padding b.length))

theorem length_keccak256 (b : Bytes) : (keccak256 b).length = 32 := rfl

end BlockTree
