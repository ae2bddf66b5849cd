import BlockTree.Machine
import BlockTree.Sorting

namespace BlockTree.Cash

structure Bill where
  owner : String
  amount : Int
  serial : Int
  deriving DecidableEq, Repr

structure State where
  bills : List Bill
  nextSerial : Int
  deriving DecidableEq, Repr

inductive Transaction where
  | mint (minter : String) (amount : Int)
  | transfer (spends receives : List Bill)
  deriving DecidableEq, Repr

inductive Failure where
  | emptySpend
  | emptyReceive
  | unknownBill (serial : Int)
  | duplicateSpend (serial : Int)
  | badSerial (expected actual : Int)
  | zeroOutput
  | overspend (spent received : Int)
  deriving DecidableEq, Repr

def empty : State :=
  ⟨[], 0⟩

def sortBills (bills : List Bill) : List Bill :=
  Sorting.sort (fun a b => decide (a.serial ≤ b.serial)) bills

abbrev Holding := Table Int Bill

def holding (bills : List Bill) : Holding :=
  .ofList (bills.map fun b => (b.serial, b))

def spend (held : Holding) (spent : List Int) (sum : Int) :
    List Bill → Except Failure (Holding × Int)
  | [] => .ok (held, sum)
  | b :: bs =>
      if b.serial ∈ spent then .error (.duplicateSpend b.serial)
      else if held.get? b.serial = some b then
        spend (held.erase b.serial) (b.serial :: spent) (sum + b.amount) bs
      else .error (.unknownBill b.serial)

def receive (serial sum : Int) : List Bill → Except Failure (Int × Int)
  | [] => .ok (serial, sum)
  | b :: bs =>
      if b.serial ≠ serial then .error (.badSerial serial b.serial)
      else if b.amount ≤ 0 then .error .zeroOutput
      else receive (serial + 1) (sum + b.amount) bs

def transfer (s : State) (spends receives : List Bill) : Except Failure State :=
  if spends = [] then .error .emptySpend
  else if receives = [] then .error .emptyReceive
  else do
    let (left, spent) ← spend (holding s.bills) [] 0 spends
    let (serial, received) ← receive s.nextSerial 0 receives
    if received > spent then .error (.overspend spent received)
    else .ok ⟨sortBills (left.values ++ receives), serial⟩

def mint (s : State) (minter : String) (amount : Int) : Except Failure State :=
  if amount ≤ 0 then .error .zeroOutput
  else .ok ⟨sortBills (s.bills ++ [⟨minter, amount, s.nextSerial⟩]), s.nextSerial + 1⟩

def step (s : State) : Transaction → Except Failure State
  | .mint minter amount => mint s minter amount
  | .transfer spends receives => transfer s spends receives

def billValue (b : Bill) : Value :=
  .record [("owner", .text b.owner), ("amount", .integer b.amount), ("serial", .integer b.serial)]

def billsValue (bills : List Bill) : Value :=
  .list (bills.map billValue)

def stateValue (s : State) : Value :=
  .record [("bills", billsValue s.bills), ("nextSerial", .integer s.nextSerial)]

def transactionValue : Transaction → Value
  | .mint minter amount =>
      .record [("type", .text "mint"), ("minter", .text minter), ("amount", .integer amount)]
  | .transfer spends receives =>
      .record [("type", .text "transfer"), ("spends", billsValue spends),
        ("receives", billsValue receives)]

def failureValue : Failure → Value
  | .emptySpend => .record [("kind", .text "EmptySpend")]
  | .emptyReceive => .record [("kind", .text "EmptyReceive")]
  | .unknownBill serial => .record [("kind", .text "UnknownBill"), ("serial", .integer serial)]
  | .duplicateSpend serial =>
      .record [("kind", .text "DuplicateSpend"), ("serial", .integer serial)]
  | .badSerial expected actual =>
      .record [("kind", .text "BadSerial"), ("expected", .integer expected),
        ("actual", .integer actual)]
  | .zeroOutput => .record [("kind", .text "ZeroOutput")]
  | .overspend spent received =>
      .record [("kind", .text "Overspend"), ("spent", .integer spent),
        ("received", .integer received)]

def machine : Machine State Transaction Failure where
  name := "digital-cash"
  step := step
  stateValue := stateValue
  extrinsicValue := transactionValue
  causeValue := failureValue

end BlockTree.Cash
