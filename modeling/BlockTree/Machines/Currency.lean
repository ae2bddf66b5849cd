import BlockTree.Machine

namespace BlockTree.Currency

abbrev Balances := Table String Int

inductive Transaction where
  | mint (minter : String) (amount : Int)
  | burn (burner : String) (amount : Int)
  | transfer (sender receiver : String) (amount : Int)
  deriving DecidableEq, Repr

inductive Failure where
  | zeroAmount
  | unknownAccount (account : String)
  | insufficientBalance (account : String) (available requested : Int)
  deriving DecidableEq, Repr

def Transaction.amount : Transaction → Int
  | .mint _ amount => amount
  | .burn _ amount => amount
  | .transfer _ _ amount => amount

namespace Balances

def balance (s : Balances) (user : String) : Int :=
  (s.get? user).getD 0

def total (s : Balances) : Int :=
  s.values.foldl (· + ·) 0

def withBalance (s : Balances) (user : String) (amount : Int) : Balances :=
  if amount = 0 then s.erase user else s.set user amount

def credit (s : Balances) (user : String) (amount : Int) : Balances :=
  s.withBalance user (s.balance user + amount)

end Balances

open Balances

def transfer (s : Balances) (sender receiver : String) (amount : Int) : Except Failure Balances :=
  match s.get? sender with
  | none => .error (.unknownAccount sender)
  | some held =>
      if held < amount then .error (.insufficientBalance sender held amount)
      else if sender = receiver then .ok s
      else .ok (credit (withBalance s sender (held - amount)) receiver amount)

def burn (s : Balances) (burner : String) (amount : Int) : Except Failure Balances :=
  match s.get? burner with
  | none => .error (.unknownAccount burner)
  | some held => .ok (withBalance s burner (if held > amount then held - amount else 0))

def step (s : Balances) (t : Transaction) : Except Failure Balances :=
  if t.amount ≤ 0 then .error .zeroAmount
  else match t with
    | .mint minter amount => .ok (credit s minter amount)
    | .burn burner amount => burn s burner amount
    | .transfer sender receiver amount => transfer s sender receiver amount

def stateValue (s : Balances) : Value :=
  .dict (s.entries.map fun e => (.text e.1, .integer e.2))

def transactionValue : Transaction → Value
  | .mint minter amount =>
      .record [("type", .text "mint"), ("minter", .text minter), ("amount", .integer amount)]
  | .burn burner amount =>
      .record [("type", .text "burn"), ("burner", .text burner), ("amount", .integer amount)]
  | .transfer sender receiver amount =>
      .record [("type", .text "transfer"), ("sender", .text sender), ("receiver", .text receiver),
        ("amount", .integer amount)]

def failureValue : Failure → Value
  | .zeroAmount => .record [("kind", .text "ZeroAmount")]
  | .unknownAccount account =>
      .record [("kind", .text "UnknownAccount"), ("account", .text account)]
  | .insufficientBalance account available requested =>
      .record [("kind", .text "InsufficientBalance"), ("account", .text account),
        ("available", .integer available), ("requested", .integer requested)]

def machine : Machine Balances Transaction Failure where
  name := "accounted-currency"
  step := step
  stateValue := stateValue
  extrinsicValue := transactionValue
  causeValue := failureValue

end BlockTree.Currency
