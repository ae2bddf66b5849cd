import BlockTree.Reading

namespace BlockTree

inductive LogLevel where
  | fatal
  | error
  | warn
  | info
  | debug
  | trace
  | silent
  deriving DecidableEq, Repr

namespace LogLevel

def name : LogLevel → String
  | fatal => "fatal"
  | error => "error"
  | warn => "warn"
  | info => "info"
  | debug => "debug"
  | trace => "trace"
  | silent => "silent"

def all : List LogLevel :=
  [fatal, error, warn, info, debug, trace, silent]

end LogLevel

structure Config where
  logLevel : LogLevel
  logPretty : Bool
  difficulty : Number
  mineBatch : Number
  deriving DecidableEq, Repr

namespace Config

def digitsValue (s : String) : Nat :=
  s.toList.foldl (fun n d => n * 10 + (d.toNat - 48)) 0

def isDigits (s : String) : Bool :=
  !s.isEmpty && s.toList.all Char.isDigit

def readDigits (j : Json) : Reading Number :=
  ((Reading.text j).require isDigits fun _ => .notNonNegative).convert fun s =>
    some (.ofDecimal false (digitsValue s) 0)

def readDifficulty (j : Json) : Reading Number :=
  (readDigits j).require (fun x => !x.above 255) (.tooLarge 255)

def readBatch (j : Json) : Reading Number :=
  (readDigits j).require (fun x => !x.below 1) (.tooSmall 1)

def readPretty (j : Json) : Reading Bool :=
  Reading.choice (fun b => if b then "true" else "false") [true, false] j

def readLevel (j : Json) : Reading LogLevel :=
  Reading.choice LogLevel.name LogLevel.all j

def ofFields (fields : List (String × Json)) : Reading Config :=
  .combine (fun l r => ⟨l.1, l.2, r.1, r.2⟩)
    (.combine Prod.mk (.defaultField "LOG_LEVEL" (.text "info") readLevel fields)
      (.defaultField "LOG_PRETTY" (.text "false") readPretty fields))
    (.combine Prod.mk (.defaultField "CHAIN_DIFFICULTY" (.text "16") readDifficulty fields)
      (.defaultField "MINE_BATCH" (.text "1000") readBatch fields))

def load (env : Json) : Except (List Issue) Config :=
  (Reading.object ofFields env).result

end Config

def configMessage (issues : List Issue) : String :=
  "invalid configuration: " ++ "; ".intercalate (issues.map Issue.text)

end BlockTree
