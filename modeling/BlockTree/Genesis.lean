import BlockTree.Config
import BlockTree.Difficulty
import BlockTree.Json.Reader
import BlockTree.Machines.Atm
import BlockTree.Machines.Cash
import BlockTree.Machines.Currency
import BlockTree.Machines.LightSwitch
import BlockTree.Machines.SumProduct
import BlockTree.Machines.TwoSwitches

namespace BlockTree

inductive Founding where
  | lightSwitch (on : Bool)
  | twoSwitches (s : TwoSwitches.Switches)
  | atm (s : Atm.State)
  | currency (s : Currency.Balances)
  | cash (s : Cash.State)
  | sumProduct (s : SumProduct.State)

structure Genesis where
  difficulty : Option Difficulty
  founding : Founding

namespace Genesis

def users : List String :=
  ["alice", "bob", "charlie"]

def readUser (j : Json) : Reading String :=
  Reading.choice id users j

def readWordText (s : String) : Reading Int :=
  ((Reading.hold s).require Config.isDigits fun _ => .notDecimal).convert fun s =>
    some (Config.digitsValue s : Int)

def readWordNumber (x : Number) : Reading Int :=
  (((Reading.hold x).require (fun x => x.toInt?.isSome) .notInteger).require
    (fun x => !x.below 0) (.tooSmall 0)).convert Number.toInt?

def readWord (j : Json) : Reading Int :=
  (match j with
    | .text s => readWordText s
    | .number x => readWordNumber x
    | j => .misfit "(string | number)" j).require
      (fun n => decide (n ≤ SumProduct.maxWord)) fun _ => .exceedsWord

def readDifficulty (j : Json) : Reading Difficulty :=
  ((((Reading.number j).require (fun x => x.toInt?.isSome) .notInteger).require
    (fun x => !x.below 0) (.tooSmall 0)).require
    (fun x => !x.above 255) (.tooLarge 255)).convert Difficulty.ofNumber?

def readSwitches : Json → Reading TwoSwitches.Switches :=
  Reading.object fun fields =>
    .combine TwoSwitches.Switches.mk (.field "first" Reading.bool fields)
      (.field "second" Reading.bool fields)

def readAtm (j : Json) : Reading Atm.State :=
  (Reading.object (.field "cashInside" readWord) j).convert fun cash => some (Atm.fresh cash)

def openAccounts (entries : List (String × Int)) : Currency.Balances :=
  .ofList (users.filterMap fun user => match Assoc.get? user entries with
    | some amount => if amount = 0 then none else some (user, amount)
    | none => none)

def readBalances (j : Json) : Reading Currency.Balances :=
  (Reading.record readUser readWord j).convert fun entries => some (openAccounts entries)

def readBill : Json → Reading Cash.Bill :=
  Reading.object fun fields =>
    .combine (fun owner b => ⟨owner, b.1, b.2⟩) (.field "owner" readUser fields)
      (.combine Prod.mk (.field "amount" readWord fields) (.field "serial" readWord fields))

def serialAfter (bills : List Cash.Bill) : Int :=
  match bills.getLast? with
  | some b => b.serial + 1
  | none => 0

def openCash (bills : List Cash.Bill) (nextSerial : Option Int) : Cash.State :=
  let bills := Cash.sortBills bills
  ⟨bills, nextSerial.getD (serialAfter bills)⟩

def readCashFields : Json → Reading (List Cash.Bill × Option Int) :=
  Reading.object fun fields =>
    .combine Prod.mk (.field "bills" (Reading.array readBill) fields)
      (.optionalField "nextSerial" readWord fields)

def readCash (j : Json) : Reading Cash.State :=
  (((readCashFields j).require (fun p => decide (p.1.map Cash.Bill.serial).Nodup)
      fun _ => .repeatedSerials).convert fun p => some (openCash p.1 p.2)).require
    (fun s => s.bills.all fun b => decide (b.serial < s.nextSerial)) fun _ => .serialsReached

def readSumProduct : Json → Reading SumProduct.State :=
  Reading.object fun fields =>
    .combine SumProduct.State.mk (.field "sum" readWord fields) (.field "product" readWord fields)

inductive Kind where
  | lightSwitch
  | twoSwitches
  | atm
  | currency
  | cash
  | sumProduct
  deriving DecidableEq, Repr

namespace Kind

def name : Kind → String
  | lightSwitch => LightSwitch.machine.name
  | twoSwitches => TwoSwitches.machine.name
  | atm => Atm.machine.name
  | currency => Currency.machine.name
  | cash => Cash.machine.name
  | sumProduct => SumProduct.machine.name

def all : List Kind :=
  [lightSwitch, twoSwitches, atm, currency, cash, sumProduct]

def readState (j : Json) : Kind → Reading Founding
  | lightSwitch => (Reading.bool j).convert fun s => some (.lightSwitch s)
  | twoSwitches => (readSwitches j).convert fun s => some (.twoSwitches s)
  | atm => (readAtm j).convert fun s => some (.atm s)
  | currency => (readBalances j).convert fun s => some (.currency s)
  | cash => (readCash j).convert fun s => some (.cash s)
  | sumProduct => (readSumProduct j).convert fun s => some (.sumProduct s)

end Kind

def ofFields (kind : Kind) (fields : List (String × Json)) : Reading Genesis :=
  .combine Genesis.mk (.optionalField "difficulty" readDifficulty fields)
    (.field "state" (Kind.readState · kind) fields)

def read : Json → Reading Genesis :=
  Reading.object fun fields =>
    let expected := Json.choiceNames (Kind.all.map Kind.name)
    match Assoc.get? "machine" fields with
    | none => Reading.under "machine" (.refuse (.wrongType expected "undefined"))
    | some j =>
        let kind := Reading.choice Kind.name Kind.all j
        match kind.value with
        | some k => ofFields k fields
        | none => ⟨none, (kind.under "machine").issues⟩

inductive Failure where
  | unreadable
  | invalid (issues : List Issue)
  deriving DecidableEq, Repr

def Failure.message : Failure → String
  | unreadable => "invalid genesis: cannot read"
  | invalid issues => "invalid genesis: " ++ "; ".intercalate (issues.map Issue.text)

def parse (j : Json) : Except Failure Genesis :=
  match (read j).result with
  | .ok g => .ok g
  | .error issues => .error (.invalid issues)

def load (text : Option String) : Except Failure Genesis :=
  match text.bind Json.parse with
  | some j => parse j
  | none => .error .unreadable

end Genesis

end BlockTree
