import BlockTree.Machine

namespace BlockTree.SumProduct

structure State where
  sum : Int
  product : Int
  deriving DecidableEq, Repr

inductive Failure where
  | outOfRange (value : Int)
  deriving DecidableEq, Repr

def maxWord : Int := 18446744073709551615

def step (s : State) (x : Int) : Except Failure State :=
  if x < 0 then .error (.outOfRange x)
  else if s.sum + x > maxWord then .error (.outOfRange (s.sum + x))
  else if s.product * x > maxWord then .error (.outOfRange (s.product * x))
  else .ok ⟨s.sum + x, s.product * x⟩

theorem step_eq_ok_iff {s s' : State} {x : Int} :
    step s x = .ok s' ↔ 0 ≤ x ∧ s.sum + x ≤ maxWord ∧ s.product * x ≤ maxWord ∧
      s' = ⟨s.sum + x, s.product * x⟩ := by
  unfold step
  by_cases hx : x < 0
  · simp [hx, Int.not_le.2 hx]
  by_cases hsum : s.sum + x > maxWord
  · simp [hx, hsum, Int.not_le.2 hsum]
  by_cases hproduct : s.product * x > maxWord
  · simp [hx, hsum, hproduct, Int.not_le.2 hproduct]
  · simp [hx, hsum, hproduct, Int.not_lt.1 hx, Int.not_lt.1 hsum, Int.not_lt.1 hproduct, eq_comm]

def failureValue : Failure → Value
  | .outOfRange value => .record [("kind", .text "OutOfRange"), ("value", .integer value)]

def machine : Machine State Int Failure where
  name := "sum-product"
  step := step
  stateValue s := .record [("sum", .integer s.sum), ("product", .integer s.product)]
  extrinsicValue := .integer
  causeValue := failureValue

end BlockTree.SumProduct
