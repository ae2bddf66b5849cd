import BlockTree.Number.Decimal

namespace BlockTree

inductive Unencodable where
  | function
  | symbol
  deriving DecidableEq, Repr

def Unencodable.name : Unencodable → String
  | .function => "function"
  | .symbol => "symbol"

inductive Fault where
  | negativeInteger (n : Int)
  | unsafeNumber (x : Number)
  | unencodable (what : Unencodable)
  | circular
  | circularDocument
  | boxedInteger
  | thrown (message : String)
  | unpaddedHex (length : Nat)
  | nonHexPair (pair : String) (index : Nat)
  | signedInteger
  | difficultyRange (x : Number)
  | fractionalBatch (x : Number)
  | emptyBatch
  | miningAborted (attempts : Int)
  deriving DecidableEq, Repr

namespace Fault

inductive Kind where
  | encoding
  | document
  | foreign
  | format
  | range
  | aborted
  deriving DecidableEq, Repr

def kind : Fault → Kind
  | negativeInteger _ | unsafeNumber _ | unencodable _ | circular => .encoding
  | circularDocument | boxedInteger => .document
  | thrown _ => .foreign
  | unpaddedHex _ | nonHexPair _ _ | signedInteger => .format
  | difficultyRange _ | fractionalBatch _ | emptyBatch => .range
  | miningAborted _ => .aborted

def message : Fault → String
  | negativeInteger n => "negative bigint " ++ toString n
  | unsafeNumber x => "not a non-negative safe integer: " ++ x.text
  | unencodable what => "cannot encode " ++ what.name
  | circular => "circular structure"
  | circularDocument => "Converting circular structure to JSON"
  | boxedInteger => "Do not know how to serialize a BigInt"
  | thrown message => message
  | unpaddedHex length => "hex string expected, got unpadded hex of length " ++ toString length
  | nonHexPair pair index =>
      "hex string expected, got non-hex character \"" ++ pair ++ "\" at index " ++ toString index
  | signedInteger => "Invalid integer as argument, must be unsigned!"
  | difficultyRange x => "difficulty must be an integer in [0, 255], got " ++ x.text
  | fractionalBatch x =>
      "The number " ++ x.text ++ " cannot be converted to a BigInt because it is not an integer"
  | emptyBatch => "batchSize must be positive"
  | miningAborted attempts => "mining aborted after " ++ toString attempts ++ " attempts"

end Fault

end BlockTree
