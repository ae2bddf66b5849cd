import BlockTree.Proofs.SafeChains
import Mathlib.Algebra.Order.BigOperators.Group.List
import Mathlib.Algebra.Order.Ring.Int

namespace BlockTree.SumProduct

variable {s s' : State} {x : Int} {xs ys : List Int}

structure Fits (s : State) (xs : List Int) : Prop where
  nonneg : ∀ x ∈ xs, 0 ≤ x
  sum_le : s.sum + xs.sum ≤ maxWord
  product_le : ∀ before, before <+: xs → s.product * before.prod ≤ maxWord

theorem fits_nil (hs : InRange s) : Fits s [] where
  nonneg _ hx := nomatch hx
  sum_le := by simpa using hs.sum_le
  product_le before hbefore := by
    rw [List.prefix_nil.1 hbefore]
    simpa using hs.product_le

theorem fits_cons_iff (hs : InRange s) :
    Fits s (x :: xs) ↔ 0 ≤ x ∧ s.sum + x ≤ maxWord ∧ s.product * x ≤ maxWord ∧
      Fits ⟨s.sum + x, s.product * x⟩ xs := by
  constructor
  · intro h
    obtain ⟨hx, hxs⟩ := List.forall_mem_cons.1 h.nonneg
    have hsum : s.sum + x + xs.sum ≤ maxWord := by
      rw [Int.add_assoc, ← List.sum_cons]
      exact h.sum_le
    have hrest : 0 ≤ xs.sum := List.sum_nonneg hxs
    refine ⟨hx, by omega, ?_, hxs, hsum, ?_⟩
    · simpa using h.product_le [x] (List.prefix_append [x] xs)
    · intro before hbefore
      have hproduct := h.product_le (x :: before) (List.cons_prefix_cons.2 ⟨rfl, hbefore⟩)
      rwa [List.prod_cons, ← Int.mul_assoc] at hproduct
  · rintro ⟨hx, _, _, h⟩
    refine ⟨List.forall_mem_cons.2 ⟨hx, h.nonneg⟩, ?_, ?_⟩
    · rw [List.sum_cons, ← Int.add_assoc]
      exact h.sum_le
    · intro before hbefore
      cases before with
      | nil => simpa using hs.product_le
      | cons y before =>
          obtain ⟨rfl, hrest⟩ := List.cons_prefix_cons.1 hbefore
          rw [List.prod_cons, ← Int.mul_assoc]
          exact h.product_le before hrest

theorem run_eq_ok_iff (hs : InRange s) :
    machine.run s xs = .ok s' ↔ Fits s xs ∧ s' = ⟨s.sum + xs.sum, s.product * xs.prod⟩ := by
  induction xs generalizing s with
  | nil => simp [fits_nil hs, eq_comm]
  | cons x xs ih =>
      rw [Machine.run_cons_eq_ok_iff, fits_cons_iff hs, List.sum_cons, List.prod_cons,
        ← Int.add_assoc, ← Int.mul_assoc]
      constructor
      · rintro ⟨next, hstep, hrun⟩
        have hnext := hs.step hstep
        obtain ⟨hx, hsum, hproduct, rfl⟩ := step_eq_ok_iff.1 hstep
        obtain ⟨hfits, rfl⟩ := (ih hnext).1 hrun
        exact ⟨⟨hx, hsum, hproduct, hfits⟩, rfl⟩
      · rintro ⟨⟨hx, hsum, hproduct, hfits⟩, rfl⟩
        have hstep := step_eq_ok_iff.2 ⟨hx, hsum, hproduct, rfl⟩
        exact ⟨_, hstep, (ih (hs.step hstep)).2 ⟨hfits, rfl⟩⟩

theorem batches_fit_or_stop_after_longest_prefix (hs : InRange s) (xs : List Int) :
    ((∃ s', machine.run s xs = .ok s') ↔ Fits s xs) ∧
    (∀ s', machine.run s xs = .ok s' → s' = ⟨s.sum + xs.sum, s.product * xs.prod⟩) ∧
    (¬Fits s xs → ∃ failure, machine.run s xs = .error failure ∧
      IsGreatest {n | machine.Passes s xs n} failure.index) ∧
    ∀ ys, ys.Perm xs → ∀ s₁ s₂, machine.run s xs = .ok s₁ → machine.run s ys = .ok s₂ →
      s₁ = s₂ := by
  refine ⟨⟨?_, ?_⟩, ?_, ?_, ?_⟩
  · rintro ⟨s', h⟩
    exact ((run_eq_ok_iff hs).1 h).1
  · intro h
    exact ⟨_, (run_eq_ok_iff hs).2 ⟨h, rfl⟩⟩
  · intro s' h
    exact ((run_eq_ok_iff hs).1 h).2
  · intro hfits
    cases h : machine.run s xs with
    | ok s' => exact absurd ((run_eq_ok_iff hs).1 h).1 hfits
    | error failure => exact ⟨failure, rfl, (Machine.run_eq_error_iff.1 h).isGreatest⟩
  · intro ys hperm s₁ s₂ h₁ h₂
    rw [((run_eq_ok_iff hs).1 h₁).2, ((run_eq_ok_iff hs).1 h₂).2, hperm.sum_eq, hperm.prod_eq]

def brimming : State :=
  ⟨0, 9223372036854775808⟩

theorem brimming_fits_or_stops :
    InRange brimming ∧ Fits brimming [0, 3, 1] ∧
      machine.run brimming [0, 3, 1] = .ok ⟨4, 0⟩ ∧
      (∀ s', machine.run brimming [1, 0, 3] = .ok s' → s' = ⟨4, 0⟩) ∧
      machine.run brimming [1, 3, 0] = .error ⟨1, .outOfRange 27670116110564327424⟩ ∧
      IsGreatest {n | machine.Passes brimming [1, 3, 0] n} 1 := by
  have hs : InRange brimming := ⟨by decide, by decide, by decide, by decide⟩
  have hlast : machine.run brimming [1, 3, 0] = .error ⟨1, .outOfRange 27670116110564327424⟩ := rfl
  obtain ⟨hfits, _, _, horders⟩ := batches_fit_or_stop_after_longest_prefix hs [0, 3, 1]
  obtain ⟨hfits', _, hstops, _⟩ := batches_fit_or_stop_after_longest_prefix hs [1, 3, 0]
  have hnot : ¬Fits brimming [1, 3, 0] := by
    intro h
    obtain ⟨s', h⟩ := hfits'.2 h
    rw [hlast] at h
    cases h
  obtain ⟨failure, hfailure, hgreatest⟩ := hstops hnot
  obtain rfl := Except.error.inj (hlast.symm.trans hfailure)
  refine ⟨hs, hfits.1 ⟨⟨4, 0⟩, rfl⟩, rfl, fun s' h => ?_, hlast, hgreatest⟩
  exact (horders [1, 0, 3] (by decide) ⟨4, 0⟩ s' rfl h).symm

end BlockTree.SumProduct
