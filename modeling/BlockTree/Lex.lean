
namespace BlockTree.Lex

def le : List Nat → List Nat → Bool
  | [], _ => true
  | _ :: _, [] => false
  | x :: xs, y :: ys => decide (x < y) || (decide (x = y) && le xs ys)

def lt (xs ys : List Nat) : Bool :=
  !le ys xs

theorem le_total (xs ys : List Nat) : le xs ys = true ∨ le ys xs = true := by
  induction xs generalizing ys with
  | nil => simp [le]
  | cons x xs ih =>
      cases ys with
      | nil => simp [le]
      | cons y ys =>
          have := ih ys
          simp only [le, Bool.or_eq_true, Bool.and_eq_true, decide_eq_true_eq]
          grind

theorem le_trans (xs ys zs : List Nat) (hxy : le xs ys = true) (hyz : le ys zs = true) :
    le xs zs = true := by
  induction xs generalizing ys zs with
  | nil => simp [le]
  | cons x xs ih =>
      cases ys with
      | nil => simp [le] at hxy
      | cons y ys =>
          cases zs with
          | nil => simp [le] at hyz
          | cons z zs =>
              have := ih ys zs
              simp only [le, Bool.or_eq_true, Bool.and_eq_true, decide_eq_true_eq] at *
              grind

theorem le_antisymm (xs ys : List Nat) (hxy : le xs ys = true) (hyx : le ys xs = true) :
    xs = ys := by
  induction xs generalizing ys with
  | nil => cases ys <;> simp_all [le]
  | cons x xs ih =>
      cases ys with
      | nil => simp [le] at hxy
      | cons y ys =>
          simp only [le, Bool.or_eq_true, Bool.and_eq_true, decide_eq_true_eq] at hxy hyx
          have := ih ys
          grind

end BlockTree.Lex
