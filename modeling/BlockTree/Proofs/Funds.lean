import BlockTree.Proofs.SafeChains

namespace BlockTree

namespace Assoc

variable {κ α : Type} [DecidableEq κ] {k : κ} {a : α} {es : List (κ × α)}

theorem set_perm (k : κ) (a : α) (es : List (κ × α)) :
    ((k, a) :: erase k es).Perm (set k a es) := by
  induction es with
  | nil => exact .refl _
  | cons e es ih =>
      unfold erase set
      split
      · exact .refl _
      · exact (List.Perm.swap e (k, a) _).trans (ih.cons e)

theorem erase_of_get? (h : get? k es = none) : erase k es = es := by
  induction es with
  | nil => rfl
  | cons e es ih =>
      unfold get? at h
      unfold erase
      split at h
      · simp at h
      · rename_i hk
        rw [if_neg hk, ih h]

end Assoc

namespace Currency

open Balances

variable {s s' mid : Balances} {t : Transaction}

namespace Balances

theorem total_eq_sum (s : Balances) : s.total = s.values.sum :=
  List.sum_eq_foldl.symm

theorem balance_of_get? {user : String} {held : Int} (h : s.get? user = some held) :
    s.balance user = held := by
  rw [balance, h, Option.getD_some]

theorem total_erase (s : Balances) (user : String) :
    total (s.erase user) = s.total - s.balance user := by
  cases h : s.get? user with
  | none =>
      have herase : s.erase user = s := by
        obtain ⟨es, hes⟩ := s
        simp only [Table.erase, Assoc.erase_of_get? h]
      rw [herase, balance, h, Option.getD_none, Int.sub_zero]
  | some held =>
      have hperm := (Table.values_erase_perm h).sum_eq
      rw [List.sum_cons, ← total_eq_sum, ← total_eq_sum] at hperm
      rw [balance_of_get? h]
      omega

theorem total_set (s : Balances) (user : String) (amount : Int) :
    total (s.set user amount) = s.total - s.balance user + amount := by
  have hperm : (amount :: (s.erase user).values).Perm (s.set user amount).values :=
    (Assoc.set_perm user amount s.entries).map Prod.snd
  have hsum := hperm.sum_eq
  rw [List.sum_cons, ← total_eq_sum, ← total_eq_sum, total_erase] at hsum
  omega

theorem total_withBalance (s : Balances) (user : String) (amount : Int) :
    (s.withBalance user amount).total = s.total - s.balance user + amount := by
  unfold withBalance
  split
  · rename_i hzero
    rw [total_erase, hzero, Int.add_zero]
  · exact total_set s user amount

theorem total_credit (s : Balances) (user : String) (amount : Int) :
    (s.credit user amount).total = s.total + amount := by
  rw [credit, total_withBalance]
  omega

theorem balance_withBalance_self (s : Balances) (user : String) (amount : Int) :
    (s.withBalance user amount).balance user = amount := by
  unfold withBalance balance
  split
  · rename_i hzero
    rw [Table.get?_erase, if_pos rfl, Option.getD_none, hzero]
  · rw [Table.get?_set_self, Option.getD_some]

theorem get?_withBalance_of_ne (s : Balances) {user other : String} (amount : Int)
    (hne : other ≠ user) : (s.withBalance user amount).get? other = s.get? other := by
  unfold withBalance
  split
  · rw [Table.get?_erase, if_neg hne.symm]
  · rw [Table.get?_set, if_neg hne.symm]

theorem balance_withBalance_of_ne (s : Balances) {user other : String} (amount : Int)
    (hne : other ≠ user) : (s.withBalance user amount).balance other = s.balance other := by
  rw [balance, get?_withBalance_of_ne s amount hne, balance]

end Balances

inductive Moves : Balances → Transaction → Balances → Prop where
  | minted (s : Balances) (minter : String) (amount : Int) :
      Moves s (.mint minter amount) (s.credit minter amount)
  | burned {s : Balances} {burner : String} {held : Int} (h : s.get? burner = some held)
      (amount : Int) :
      Moves s (.burn burner amount) (s.withBalance burner (held - min amount held))
  | returned {s : Balances} {user : String} {held : Int} (h : s.get? user = some held)
      {amount : Int} (hcovered : amount ≤ held) : Moves s (.transfer user user amount) s
  | transferred {s : Balances} {sender receiver : String} {held : Int}
      (h : s.get? sender = some held) {amount : Int} (hcovered : amount ≤ held)
      (hne : sender ≠ receiver) :
      Moves s (.transfer sender receiver amount)
        ((s.withBalance sender (held - amount)).credit receiver amount)

theorem moves_burn {burner : String} {amount : Int} (h : burn s burner amount = .ok s') :
    Moves s (.burn burner amount) s' := by
  unfold burn at h
  split at h
  · simp at h
  rename_i held hheld
  cases h
  have hleft : (if held > amount then held - amount else 0) = held - min amount held := by
    split <;> omega
  rw [hleft]
  exact .burned hheld amount

theorem moves_transfer {sender receiver : String} {amount : Int}
    (h : transfer s sender receiver amount = .ok s') :
    Moves s (.transfer sender receiver amount) s' := by
  unfold transfer at h
  split at h
  · simp at h
  rename_i held hheld
  split at h
  · simp at h
  rename_i hcovered
  split at h
  · rename_i hsame
    subst hsame
    cases h
    exact .returned hheld (Int.not_lt.1 hcovered)
  · rename_i hne
    cases h
    exact .transferred hheld (Int.not_lt.1 hcovered) hne

theorem moves_step (h : step s t = .ok s') : Moves s t s' := by
  unfold step at h
  split at h
  · simp at h
  cases t with
  | mint minter amount =>
      cases h
      exact .minted s minter amount
  | burn burner amount => exact moves_burn h
  | transfer sender receiver amount => exact moves_transfer h

def Transaction.named : Transaction → List String
  | .mint minter _ => [minter]
  | .burn burner _ => [burner]
  | .transfer sender receiver _ => [sender, receiver]

def Transaction.minted : Transaction → Int
  | .mint _ amount => amount
  | .burn _ _ => 0
  | .transfer _ _ _ => 0

def Transaction.burned (s : Balances) : Transaction → Int
  | .mint _ _ => 0
  | .burn burner amount => min amount (s.balance burner)
  | .transfer _ _ _ => 0

def burnedAlong (s : Balances) : List Transaction → Int
  | [] => 0
  | t :: ts => t.burned s + match step s t with
      | .ok next => burnedAlong next ts
      | .error _ => 0

def Transaction.Effect (s s' : Balances) : Transaction → Prop
  | .mint minter amount => s'.balance minter = s.balance minter + amount
  | .burn burner amount => s'.balance burner = s.balance burner - min amount (s.balance burner)
  | .transfer sender receiver amount =>
      s'.total = s.total ∧
      (sender ≠ receiver → s'.balance sender = s.balance sender - amount ∧
        s'.balance receiver = s.balance receiver + amount) ∧
      (sender = receiver → s' = s)

structure Settles (s : Balances) (t : Transaction) (s' : Balances) : Prop where
  total : s'.total = s.total + t.minted - t.burned s
  effect : t.Effect s s'
  others : ∀ user, user ∉ t.named → s'.get? user = s.get? user

theorem Moves.settles (h : Moves s t s') : Settles s t s' := by
  cases h with
  | minted minter amount =>
      refine ⟨?_, balance_withBalance_self .., fun user hother => ?_⟩
      · rw [total_credit, Transaction.minted, Transaction.burned, Int.sub_zero]
      · exact get?_withBalance_of_ne s _ (List.ne_of_not_mem_cons hother)
  | @burned burner held hheld amount =>
      refine ⟨?_, ?_, fun user hother => ?_⟩
      · rw [total_withBalance, Transaction.minted, Transaction.burned, balance_of_get? hheld]
        omega
      · rw [Transaction.Effect, balance_withBalance_self, balance_of_get? hheld]
      · exact get?_withBalance_of_ne s _ (List.ne_of_not_mem_cons hother)
  | @returned user held hheld amount hcovered =>
      refine ⟨?_, ⟨rfl, fun hne => absurd rfl hne, fun _ => rfl⟩, fun _ _ => rfl⟩
      rw [Transaction.minted, Transaction.burned, Int.add_zero, Int.sub_zero]
  | @transferred sender receiver held hheld amount hcovered hne =>
      have htotal : ((s.withBalance sender (held - amount)).credit receiver amount).total =
          s.total := by
        rw [total_credit, total_withBalance, balance_of_get? hheld]
        omega
      have hsender : ((s.withBalance sender (held - amount)).credit receiver amount).balance
          sender = s.balance sender - amount := by
        rw [credit, balance_withBalance_of_ne _ _ hne, balance_withBalance_self,
          balance_of_get? hheld]
      have hreceiver : ((s.withBalance sender (held - amount)).credit receiver amount).balance
          receiver = s.balance receiver + amount := by
        rw [credit, balance_withBalance_self, balance_withBalance_of_ne _ _ hne.symm]
      refine ⟨?_, ⟨htotal, fun _ => ⟨hsender, hreceiver⟩, fun heq => absurd heq hne⟩,
        fun user hother => ?_⟩
      · rw [htotal, Transaction.minted, Transaction.burned, Int.add_zero, Int.sub_zero]
      · obtain ⟨hother, hothers⟩ := not_or.1 (mt List.mem_cons.2 hother)
        rw [credit, get?_withBalance_of_ne _ _ (List.ne_of_not_mem_cons hothers),
          get?_withBalance_of_ne s _ hother]

theorem settles_step (h : step s t = .ok s') : Settles s t s' :=
  (moves_step h).settles

theorem total_run {ts : List Transaction} (h : machine.run s ts = .ok s') :
    s'.total = s.total + (ts.map Transaction.minted).sum - burnedAlong s ts := by
  induction ts generalizing s with
  | nil =>
      cases h
      simp [burnedAlong]
  | cons t ts ih =>
      obtain ⟨next, hstep, hrest⟩ := Machine.run_cons_eq_ok_iff.1 h
      have htotal := (settles_step hstep).total
      have hburned : burnedAlong s (t :: ts) = t.burned s + burnedAlong next ts := by
        change step s t = .ok next at hstep
        rw [burnedAlong, hstep]
      rw [ih hrest, htotal, hburned, List.map_cons, List.sum_cons]
      omega

theorem settles_run {before after : List Transaction}
    (h : machine.run s (before ++ t :: after) = .ok s') :
    ∃ mid next, machine.run s before = .ok mid ∧ machine.step mid t = .ok next ∧
      machine.run next after = .ok s' ∧ Settles mid t next := by
  obtain ⟨mid, hbefore, hrest⟩ := Machine.run_append_eq_ok_iff.1 h
  obtain ⟨next, hstep, hafter⟩ := Machine.run_cons_eq_ok_iff.1 hrest
  exact ⟨mid, next, hbefore, hstep, hafter, settles_step hstep⟩

theorem funds_conserved_and_deposits_kept (hs : Funded s) {ts : List Transaction}
    (h : machine.run s ts = .ok s') :
    Funded s' ∧
    s'.total = s.total + (ts.map Transaction.minted).sum - burnedAlong s ts ∧
    ∀ before t after, ts = before ++ t :: after →
      ∃ mid next, machine.run s before = .ok mid ∧ machine.step mid t = .ok next ∧
        machine.run next after = .ok s' ∧ Settles mid t next := by
  refine ⟨Machine.run_keeps (fun hfunded hstep => hfunded.step hstep) hs h, total_run h, ?_⟩
  rintro before t after rfl
  exact settles_run h

namespace Accounts

def opening : Balances :=
  .ofList [("alice", 100), ("bob", 50)]

def transactions : List Transaction :=
  [.transfer "bob" "alice" 50, .mint "bob" 7, .transfer "alice" "alice" 20, .burn "bob" 9,
    .burn "alice" 30]

def closing : Balances :=
  .ofList [("alice", 120)]

end Accounts

theorem accounts_funds_conserved_and_deposits_kept :
    Funded Accounts.opening ∧
      machine.run Accounts.opening Accounts.transactions = .ok Accounts.closing ∧
      Funded Accounts.closing ∧
      Accounts.closing.total = Accounts.opening.total + 7 - (7 + 30) ∧
      burnedAlong Accounts.opening Accounts.transactions = 7 + 30 := by
  have hs : Funded Accounts.opening := by
    refine funded_iff.2 ⟨?_, ?_⟩
    · unfold Solvent
      decide
    · unfold NoneEmpty
      decide
  have hrun : machine.run Accounts.opening Accounts.transactions = .ok Accounts.closing := rfl
  obtain ⟨hfunded, htotal, _⟩ := funds_conserved_and_deposits_kept hs hrun
  exact ⟨hs, hrun, hfunded, htotal, rfl⟩

end Currency

end BlockTree
