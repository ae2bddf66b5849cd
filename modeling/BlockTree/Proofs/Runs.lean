import BlockTree.Machine
import Mathlib.Order.Bounds.Defs

namespace BlockTree.Machine

variable {S T E : Type} {m : Machine S T E}

theorem runFrom_ok_of_ok (m : Machine S T E) {i : Nat} (j : Nat) {s s' : S} {xs : List T}
    (h : m.runFrom i s xs = .ok s') : m.runFrom j s xs = .ok s' := by
  induction xs generalizing i j s with
  | nil => exact h
  | cons x xs ih =>
      unfold runFrom at h ⊢
      cases hx : m.step s x with
      | ok next => rw [hx] at h; exact ih _ h
      | error cause => rw [hx] at h; simp at h

theorem run_cons_eq_ok_iff {s s' : S} {x : T} {xs : List T} :
    m.run s (x :: xs) = .ok s' ↔ ∃ next, m.step s x = .ok next ∧ m.run next xs = .ok s' := by
  unfold run
  rw [runFrom]
  cases m.step s x with
  | error cause => simp
  | ok next =>
      simp only [Except.ok.injEq, exists_eq_left']
      exact ⟨m.runFrom_ok_of_ok 0, m.runFrom_ok_of_ok 1⟩

theorem run_append_eq_ok_iff {s s' : S} {xs ys : List T} :
    m.run s (xs ++ ys) = .ok s' ↔ ∃ mid, m.run s xs = .ok mid ∧ m.run mid ys = .ok s' := by
  induction xs generalizing s with
  | nil => simp
  | cons x xs ih =>
      simp only [List.cons_append, run_cons_eq_ok_iff, ih]
      constructor
      · rintro ⟨next, hx, mid, hxs, hys⟩
        exact ⟨mid, ⟨next, hx, hxs⟩, hys⟩
      · rintro ⟨mid, ⟨next, hx, hxs⟩, hys⟩
        exact ⟨next, hx, mid, hxs, hys⟩

theorem run_keeps_given {P : S → Prop} {Q : T → Prop}
    (hstep : ∀ {s s' x}, P s → Q x → m.step s x = .ok s' → P s') {s s' : S} {xs : List T}
    (hs : P s) (hxs : ∀ x ∈ xs, Q x) (h : m.run s xs = .ok s') : P s' := by
  induction xs generalizing s with
  | nil =>
      cases h
      exact hs
  | cons x xs ih =>
      obtain ⟨next, hx, hrun⟩ := run_cons_eq_ok_iff.1 h
      exact ih (hstep hs (hxs x (.head _)) hx) (fun y hy => hxs y (.tail _ hy)) hrun

theorem run_keeps {P : S → Prop} (hstep : ∀ {s s' x}, P s → m.step s x = .ok s' → P s')
    {s s' : S} {xs : List T} (hs : P s) (h : m.run s xs = .ok s') : P s' :=
  run_keeps_given (Q := fun _ => True) (fun hs _ => hstep hs) hs (fun _ _ => trivial) h

def StopsAt (m : Machine S T E) (s : S) (xs : List T) (failure : TransitionFailure E) : Prop :=
  ∃ before x after mid, xs = before ++ x :: after ∧ before.length = failure.index ∧
    m.run s before = .ok mid ∧ m.step mid x = .error failure.cause

theorem runFrom_eq_error_iff {i : Nat} {s : S} {xs : List T} {failure : TransitionFailure E} :
    m.runFrom i s xs = .error failure ↔ ∃ before x after mid, xs = before ++ x :: after ∧
      i + before.length = failure.index ∧ m.run s before = .ok mid ∧
      m.step mid x = .error failure.cause := by
  induction xs generalizing i s with
  | nil => simp [runFrom]
  | cons x xs ih =>
      rw [runFrom]
      cases hx : m.step s x with
      | error cause =>
          constructor
          · intro h
            cases h
            exact ⟨[], x, xs, s, rfl, rfl, rfl, hx⟩
          · rintro ⟨before, y, after, mid, hxs, hi, hrun, hy⟩
            cases before with
            | nil =>
                cases hxs
                cases hrun
                obtain ⟨index, reported⟩ := failure
                obtain rfl : i = index := hi
                obtain rfl : cause = reported := Except.error.inj (hx.symm.trans hy)
                rfl
            | cons z before =>
                obtain ⟨rfl, _⟩ := List.cons.inj hxs
                obtain ⟨next, hz, _⟩ := run_cons_eq_ok_iff.1 hrun
                simp [hx] at hz
      | ok next =>
          rw [ih]
          constructor
          · rintro ⟨before, y, after, mid, rfl, hi, hrun, hy⟩
            refine ⟨x :: before, y, after, mid, rfl, ?_, run_cons_eq_ok_iff.2 ⟨next, hx, hrun⟩, hy⟩
            rw [List.length_cons]
            omega
          · rintro ⟨before, y, after, mid, hxs, hi, hrun, hy⟩
            cases before with
            | nil =>
                cases hxs
                cases hrun
                simp [hx] at hy
            | cons z before =>
                obtain ⟨rfl, rfl⟩ := List.cons.inj hxs
                obtain ⟨next', hz, hrun⟩ := run_cons_eq_ok_iff.1 hrun
                obtain rfl : next = next' := Except.ok.inj (hx.symm.trans hz)
                rw [List.length_cons] at hi
                exact ⟨before, y, after, mid, rfl, by omega, hrun, hy⟩

theorem run_eq_error_iff {s : S} {xs : List T} {failure : TransitionFailure E} :
    m.run s xs = .error failure ↔ m.StopsAt s xs failure := by
  simp only [run, StopsAt, runFrom_eq_error_iff, Nat.zero_add]

def Passes (m : Machine S T E) (s : S) (xs : List T) (n : Nat) : Prop :=
  ∃ before, before <+: xs ∧ before.length = n ∧ ∃ mid, m.run s before = .ok mid

theorem StopsAt.isGreatest {s : S} {xs : List T} {failure : TransitionFailure E}
    (h : m.StopsAt s xs failure) : IsGreatest {n | m.Passes s xs n} failure.index := by
  obtain ⟨before, x, after, mid, rfl, hindex, hrun, hx⟩ := h
  refine ⟨⟨before, List.prefix_append .., hindex, mid, hrun⟩, ?_⟩
  rintro _ ⟨longer, hlonger, rfl, last, hlast⟩
  rw [← hindex]
  refine Nat.not_lt.1 fun hlt => ?_
  -- a longer prefix holds the extrinsic that fails
  have hprefix : before ++ [x] <+: longer := by
    refine List.prefix_of_prefix_length_le ⟨after, by simp⟩ hlonger ?_
    rw [List.length_append, List.length_singleton]
    omega
  obtain ⟨rest, rfl⟩ := hprefix
  rw [List.append_assoc, List.singleton_append, run_append_eq_ok_iff] at hlast
  obtain ⟨mid', hrun', hrest⟩ := hlast
  obtain rfl : mid = mid' := Except.ok.inj (hrun.symm.trans hrun')
  obtain ⟨next, hstep, _⟩ := run_cons_eq_ok_iff.1 hrest
  rw [hx] at hstep
  cases hstep

end BlockTree.Machine
