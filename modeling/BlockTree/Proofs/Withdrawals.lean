import BlockTree.Machines.Atm
import BlockTree.Proofs.Runs
import Mathlib.Data.List.Induction
import Mathlib.Data.Nat.Digits.Defs

namespace BlockTree.Atm

def after (s : State) (actions : List Action) : State :=
  actions.foldl next s

theorem after_append (s : State) (as bs : List Action) :
    after s (as ++ bs) = after (after s as) bs :=
  List.foldl_append

theorem run_eq (s : State) (actions : List Action) :
    machine.run s actions = .ok (after s actions) := by
  induction actions generalizing s with
  | nil => rfl
  | cons a as ih => exact Machine.run_cons_eq_ok_iff.2 ⟨next s a, rfl, ih _⟩

inductive Moves : State → Action → State → Prop where
  | idle (cash : Int) (keys : List Key) (k : Key) :
      Moves ⟨cash, .waiting, keys⟩ (.pressKey k) ⟨cash, .waiting, keys⟩
  | inserted (cash : Int) (keys : List Key) (pin : Text.Utf16) :
      Moves ⟨cash, .waiting, keys⟩ (.swipeCard pin) ⟨cash, .authenticating pin, keys⟩
  | ignored {s : State} (h : s.stage ≠ .waiting) (pin : Text.Utf16) : Moves s (.swipeCard pin) s
  | typed {cash : Int} {stage : Stage} {keys : List Key} {k : Key} (h : stage ≠ .waiting)
      (hk : k ≠ .enter) : Moves ⟨cash, stage, keys⟩ (.pressKey k) ⟨cash, stage, keys ++ [k]⟩
  | confirmed (cash : Int) (keys : List Key) :
      Moves ⟨cash, .authenticating (pinHash keys), keys⟩ (.pressKey .enter)
        ⟨cash, .authenticated, []⟩
  | mistyped {cash : Int} {keys : List Key} {pin : Text.Utf16} (h : pinHash keys ≠ pin) :
      Moves ⟨cash, .authenticating pin, keys⟩ (.pressKey .enter) ⟨cash, .waiting, []⟩
  | paid {cash : Int} {keys : List Key} (h : amountOf keys ≤ cash) :
      Moves ⟨cash, .authenticated, keys⟩ (.pressKey .enter) ⟨cash - amountOf keys, .waiting, []⟩
  | refused {cash : Int} {keys : List Key} (h : ¬amountOf keys ≤ cash) :
      Moves ⟨cash, .authenticated, keys⟩ (.pressKey .enter) ⟨cash, .waiting, []⟩

theorem moves_enter (cash : Int) {stage : Stage} (keys : List Key) (h : stage ≠ .waiting) :
    Moves ⟨cash, stage, keys⟩ (.pressKey .enter) (enter ⟨cash, stage, keys⟩) := by
  cases stage with
  | waiting => exact absurd rfl h
  | authenticating pin =>
      by_cases hpin : pinHash keys = pin
      · subst hpin
        simp only [enter, if_true]
        exact .confirmed cash keys
      · simp only [enter, if_neg hpin]
        exact .mistyped hpin
  | authenticated =>
      by_cases hcash : amountOf keys ≤ cash
      · simp only [enter, if_pos hcash]
        exact .paid hcash
      · simp only [enter, if_neg hcash]
        exact .refused hcash

theorem moves_press (cash : Int) {stage : Stage} (keys : List Key) (h : stage ≠ .waiting)
    (k : Key) : Moves ⟨cash, stage, keys⟩ (.pressKey k) (press ⟨cash, stage, keys⟩ k) := by
  by_cases hk : k = .enter
  · subst hk
    have hpress : press ⟨cash, stage, keys⟩ .enter = enter ⟨cash, stage, keys⟩ := by
      cases stage <;> rfl
    rw [hpress]
    exact moves_enter cash keys h
  · have hpress : press ⟨cash, stage, keys⟩ k = ⟨cash, stage, keys ++ [k]⟩ := by
      cases stage <;> cases k <;> first | contradiction | rfl
    rw [hpress]
    exact .typed h hk

theorem moves_next (s : State) (a : Action) : Moves s a (next s a) := by
  obtain ⟨cash, stage, keys⟩ := s
  cases a with
  | swipeCard pin =>
      cases stage with
      | waiting => exact .inserted cash keys pin
      | authenticating expected => exact .ignored (by simp) pin
      | authenticated => exact .ignored (by simp) pin
  | pressKey k =>
      by_cases h : stage = .waiting
      · subst h
        exact .idle cash keys k
      · exact moves_press cash keys h k

structure Sane (filled : Int) (s : State) : Prop where
  nonneg : 0 ≤ s.cashInside
  le : s.cashInside ≤ filled
  keys : .enter ∉ s.keystrokes
  idle : s.stage = .waiting → s.keystrokes = []

theorem sane_fresh {filled : Int} (h : 0 ≤ filled) : Sane filled (fresh filled) where
  nonneg := h
  le := Int.le_refl filled
  keys := List.not_mem_nil
  idle _ := rfl

theorem Sane.moves {filled : Int} {s s' : State} {a : Action} (hs : Sane filled s)
    (h : Moves s a s') : Sane filled s' := by
  obtain ⟨hnonneg, hle, hkeys, hidle⟩ := hs
  cases h with
  | idle cash keys k => exact ⟨hnonneg, hle, hkeys, hidle⟩
  | inserted cash keys pin => exact ⟨hnonneg, hle, hkeys, nofun⟩
  | ignored h pin => exact ⟨hnonneg, hle, hkeys, hidle⟩
  | typed h hk =>
      refine ⟨hnonneg, hle, ?_, fun hstage => absurd hstage h⟩
      simpa [hkeys] using Ne.symm hk
  | confirmed cash keys => exact ⟨hnonneg, hle, List.not_mem_nil, nofun⟩
  | mistyped h => exact ⟨hnonneg, hle, List.not_mem_nil, fun _ => rfl⟩
  | @paid cash keys h =>
      simp only at hnonneg hle
      exact ⟨by simp only; omega, by simp only; omega, List.not_mem_nil, fun _ => rfl⟩
  | refused h => exact ⟨hnonneg, hle, List.not_mem_nil, fun _ => rfl⟩

theorem Sane.after {filled : Int} {s : State} (hs : Sane filled s) (actions : List Action) :
    Sane filled (after s actions) := by
  induction actions generalizing s with
  | nil => exact hs
  | cons a as ih => exact ih (hs.moves (moves_next s a))

def ignores (s : State) : Action → Bool
  | .swipeCard _ => decide (s.stage ≠ .waiting)
  | .pressKey _ => false

def effective (s : State) : List Action → List Action
  | [] => []
  | a :: as => if ignores s a then effective (next s a) as else a :: effective (next s a) as

theorem effective_append (s : State) (as bs : List Action) :
    effective s (as ++ bs) = effective s as ++ effective (after s as) bs := by
  induction as generalizing s with
  | nil => rfl
  | cons a as ih =>
      rw [List.cons_append, effective, effective, ih]
      split <;> rfl

structure Since (s : State) (recent : List Action) : Prop where
  waiting : s.stage = .waiting
  busy : ∀ seen, seen <+: recent → seen ≠ [] → (after s seen).stage ≠ .waiting

theorem Since.concat {s : State} {recent : List Action} {a : Action} (h : Since s recent)
    (hbusy : (after s (recent ++ [a])).stage ≠ .waiting) : Since s (recent ++ [a]) where
  waiting := h.waiting
  busy := by
    intro seen hseen hne
    rcases List.prefix_concat_iff.1 hseen with rfl | hseen
    · exact hbusy
    · exact h.busy seen hseen hne

inductive Trail : State → List Action → Prop where
  | waiting (cash : Int) : Trail ⟨cash, .waiting, []⟩ []
  | authenticating (cash : Int) (pin : Text.Utf16) {keys : List Key} (hkeys : .enter ∉ keys) :
      Trail ⟨cash, .authenticating pin, keys⟩ (.swipeCard pin :: keys.map .pressKey)
  | authenticated (cash : Int) {code keys : List Key} (hcode : .enter ∉ code)
      (hkeys : .enter ∉ keys) :
      Trail ⟨cash, .authenticated, keys⟩
        (.swipeCard (pinHash code) :: code.map .pressKey ++ .pressKey .enter :: keys.map .pressKey)

theorem Trail.moves {s s' : State} {a : Action} {as : List Action} (h : Trail s as)
    (hmoves : Moves s a s') :
    Trail s' (if s'.stage = .waiting then [] else if ignores s a then as else as ++ [a]) := by
  cases h with
  | waiting cash =>
      cases hmoves with
      | idle _ _ k => exact .waiting cash
      | inserted _ _ pin => exact .authenticating cash pin List.not_mem_nil
      | ignored h pin => exact absurd rfl h
      | typed h hk => exact absurd rfl h
  | @authenticating cash pin keys hkeys =>
      cases hmoves with
      | ignored h other => exact .authenticating cash pin hkeys
      | @typed _ _ _ k h hk =>
          have hkeys' : .enter ∉ keys ++ [k] := by simpa [hkeys] using Ne.symm hk
          simpa [ignores] using Trail.authenticating cash pin hkeys'
      | confirmed =>
          simpa [ignores] using Trail.authenticated cash hkeys List.not_mem_nil
      | mistyped h => exact .waiting cash
  | @authenticated cash code keys hcode hkeys =>
      cases hmoves with
      | ignored h other => exact .authenticated cash hcode hkeys
      | @typed _ _ _ k h hk =>
          have hkeys' : .enter ∉ keys ++ [k] := by simpa [hkeys] using Ne.symm hk
          simpa [ignores] using Trail.authenticated cash hcode hkeys'
      | paid h => exact .waiting _
      | refused h => exact .waiting cash

theorem exists_trail (filled : Int) (actions : List Action) :
    ∃ earlier recent, actions = earlier ++ recent ∧ Since (after (fresh filled) earlier) recent ∧
      Trail (after (fresh filled) actions) (effective (after (fresh filled) earlier) recent) := by
  -- on the last action the dispenser either waits again, or the recent actions get one more
  induction actions using List.reverseRecOn with
  | nil => exact ⟨[], [], rfl, ⟨rfl, by simp⟩, .waiting filled⟩
  | append_singleton as a ih =>
      obtain ⟨earlier, recent, rfl, hsince, htrail⟩ := ih
      have hafter : after (fresh filled) (earlier ++ recent ++ [a]) =
          next (after (fresh filled) (earlier ++ recent)) a := after_append ..
      have hmoved := htrail.moves (moves_next _ a)
      rw [← hafter] at hmoved
      by_cases hwaiting : (after (fresh filled) (earlier ++ recent ++ [a])).stage = .waiting
      · rw [if_pos hwaiting] at hmoved
        exact ⟨earlier ++ recent ++ [a], [], by simp, ⟨hwaiting, by simp⟩, hmoved⟩
      · rw [if_neg hwaiting] at hmoved
        refine ⟨earlier, recent ++ [a], by simp, hsince.concat ?_, ?_⟩
        · rw [← after_append, ← List.append_assoc]
          exact hwaiting
        · rw [effective_append, ← after_append]
          simp only [effective]
          split at hmoved <;> simp_all

def spelled (keys : List Key) : Nat :=
  Nat.ofDigits 10 (keys.filterMap Key.digit?).reverse

theorem amountOf_eq_spelled (keys : List Key) : amountOf keys = spelled keys := by
  unfold spelled
  induction keys using List.reverseRecOn with
  | nil => rfl
  | append_singleton ks k ih =>
      rw [amountOf, List.foldl_append, ← amountOf, ih, List.filterMap_append, List.reverse_append]
      cases hk : k.digit? with
      | none => simp [hk]
      | some d =>
          simp only [List.foldl_cons, List.foldl_nil, List.filterMap_cons, List.filterMap_nil, hk,
            List.reverse_singleton, List.singleton_append, Nat.ofDigits_cons]
          omega

def withdraws (s : State) (a : Action) : Bool :=
  decide ((next s a).cashInside < s.cashInside)

def authenticates (s : State) (a : Action) : Bool :=
  decide (s.stage ≠ .authenticated ∧ (next s a).stage = .authenticated)

def countAlong (kind : State → Action → Bool) (s : State) : List Action → Nat
  | [] => 0
  | a :: as => (kind s a).toNat + countAlong kind (next s a) as

def allowance (s : State) : Nat :=
  if s.stage = .authenticated then 1 else 0

theorem Moves.of_decrease {s s' : State} {a : Action} (h : Moves s a s')
    (hless : s'.cashInside < s.cashInside) :
    a = .pressKey .enter ∧ s.stage = .authenticated ∧ s'.stage = .waiting ∧
      amountOf s.keystrokes ≤ s.cashInside ∧
      s'.cashInside = s.cashInside - amountOf s.keystrokes := by
  cases h with
  | paid h => exact ⟨rfl, rfl, rfl, h, rfl⟩
  | _ => exact absurd hless (Int.lt_irrefl _)

theorem withdraws_add_allowance_le (s : State) (a : Action) :
    (withdraws s a).toNat + allowance (next s a) ≤ (authenticates s a).toNat + allowance s := by
  by_cases hless : (next s a).cashInside < s.cashInside
  · obtain ⟨_, hstage, hnext, _⟩ := (moves_next s a).of_decrease hless
    simp [withdraws, allowance, hless, hstage, hnext]
  · by_cases hnext : (next s a).stage = .authenticated
    · by_cases hstage : s.stage = .authenticated <;>
        simp [withdraws, authenticates, allowance, hless, hnext, hstage]
    · simp [withdraws, allowance, hless, hnext]

theorem withdrawals_le_authentications (s : State) (actions : List Action) :
    countAlong withdraws s actions + allowance (after s actions) ≤
      countAlong authenticates s actions + allowance s := by
  induction actions generalizing s with
  | nil => exact Nat.le_refl _
  | cons a as ih =>
      have hstep := withdraws_add_allowance_le s a
      have hrest := ih (next s a)
      simp only [countAlong, after, List.foldl_cons] at hrest ⊢
      omega

structure Withdrawal (filled : Int) (actions : List Action) (s s' : State) (a : Action) : Prop where
  action : a = .pressKey .enter
  stage : s.stage = .authenticated
  next : s'.stage = .waiting
  authenticated : ∃ earlier recent w pin code keys, actions = earlier ++ recent ∧
    machine.run (fresh filled) earlier = .ok w ∧ Since w recent ∧
    effective w recent =
      .swipeCard pin :: code.map .pressKey ++ .pressKey .enter :: keys.map .pressKey ∧
    .enter ∉ code ∧ .enter ∉ keys ∧ pinHash code = pin ∧
    s'.cashInside = s.cashInside - spelled keys ∧ spelled keys ≤ s.cashInside

theorem withdrawal_of_decrease {filled : Int} (actions : List Action) {s' : State} {a : Action}
    (h : Moves (after (fresh filled) actions) a s')
    (hless : s'.cashInside < (after (fresh filled) actions).cashInside) :
    Withdrawal filled actions (after (fresh filled) actions) s' a := by
  obtain ⟨haction, hstage, hnext, hcovered, hcash⟩ := h.of_decrease hless
  refine ⟨haction, hstage, hnext, ?_⟩
  obtain ⟨earlier, recent, hactions, hsince, htrail⟩ := exists_trail filled actions
  generalize after (fresh filled) actions = s at *
  generalize heff : effective (after (fresh filled) earlier) recent = as at *
  cases htrail with
  | waiting cash => simp at hstage
  | authenticating cash pin hkeys => simp at hstage
  | @authenticated cash code keys hcode hkeys =>
      rw [amountOf_eq_spelled] at hcovered hcash
      exact ⟨earlier, recent, _, _, code, keys, hactions, run_eq .., hsince, heff, hcode, hkeys, rfl,
        hcash, hcovered⟩

theorem cash_only_after_authentication {filled : Int} (hfilled : 0 ≤ filled)
    (actions : List Action) :
    ∃ s, machine.run (fresh filled) actions = .ok s ∧ Sane filled s ∧
      (∀ a s', machine.step s a = .ok s' → s'.cashInside < s.cashInside →
        Withdrawal filled actions s s' a) ∧
      countAlong withdraws (fresh filled) actions ≤
        countAlong authenticates (fresh filled) actions ∧
      ∀ more, countAlong authenticates s more = 0 → countAlong withdraws s more ≤ allowance s := by
  refine ⟨_, run_eq _ actions, (sane_fresh hfilled).after actions, ?_, ?_, ?_⟩
  · intro a s' hstep hless
    obtain rfl := Except.ok.inj hstep
    exact withdrawal_of_decrease actions (moves_next _ a) hless
  · have h := withdrawals_le_authentications (fresh filled) actions
    have hnone : allowance (fresh filled) = 0 := rfl
    omega
  · intro more hno
    have h := withdrawals_le_authentications (after (fresh filled) actions) more
    omega

namespace Visit

def code : List Key :=
  [.one, .two]

def actions : List Action :=
  [.pressKey .four, .swipeCard (pinHash code), .swipeCard ⟨[]⟩, .pressKey .one, .pressKey .two,
    .pressKey .enter, .pressKey .two, .swipeCard ⟨[]⟩, .pressKey .three]

theorem run_actions :
    machine.run (fresh 100) actions = .ok ⟨100, .authenticated, [.two, .three]⟩ := by
  rw [run_eq]
  simp [after, actions, code, fresh, next, press, enter]

end Visit

theorem visit_cash_only_after_authentication :
    (0 : Int) ≤ 100 ∧ ∃ s, machine.run (fresh 100) Visit.actions = .ok s ∧ Sane 100 s ∧
      machine.step s (.pressKey .enter) = .ok ⟨77, .waiting, []⟩ ∧
      Withdrawal 100 Visit.actions s ⟨77, .waiting, []⟩ (.pressKey .enter) ∧
      countAlong withdraws (fresh 100) Visit.actions ≤
        countAlong authenticates (fresh 100) Visit.actions := by
  obtain ⟨s, hrun, hsane, hwithdrawal, hcount, _⟩ :=
    @cash_only_after_authentication 100 (by decide) Visit.actions
  obtain rfl := Except.ok.inj (Visit.run_actions.symm.trans hrun)
  exact ⟨by decide, _, hrun, hsane, rfl, hwithdrawal _ _ rfl (by decide), hcount⟩

end BlockTree.Atm
