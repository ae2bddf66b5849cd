import BlockTree.Proofs.Runs
import BlockTree.Proofs.Spending
import Mathlib.Data.List.Nodup

namespace BlockTree

namespace Assoc

variable {κ α : Type} [DecidableEq κ] {k : κ} {a : α} {es : List (κ × α)}

theorem set_of_notMem (h : k ∉ es.map Prod.fst) : set k a es = es ++ [(k, a)] := by
  induction es with
  | nil => rfl
  | cons e es ih =>
      rw [List.map_cons, List.mem_cons, not_or] at h
      rw [set, if_neg (Ne.symm h.1), ih h.2]
      rfl

end Assoc

namespace Table

variable {κ α : Type} [DecidableEq κ]

theorem entries_foldl_set {t : Table κ α} {es : List (κ × α)}
    (h : ((t.entries ++ es).map Prod.fst).Nodup) :
    (es.foldl (fun t e => t.set e.1 e.2) t).entries = t.entries ++ es := by
  induction es generalizing t with
  | nil => simp
  | cons e es ih =>
      have hnew : e.1 ∉ t.entries.map Prod.fst := by
        rw [List.map_append, List.nodup_append] at h
        exact fun hmem => h.2.2 _ hmem _ (.head _) rfl
      have hset : (t.set e.1 e.2).entries = t.entries ++ [e] := Assoc.set_of_notMem hnew
      rw [List.foldl_cons, ih, hset, List.append_assoc]
      · rfl
      · rw [hset, List.append_assoc]
        exact h

theorem entries_ofList {es : List (κ × α)} (h : (es.map Prod.fst).Nodup) :
    (ofList es).entries = es :=
  entries_foldl_set (t := empty) h

end Table

namespace Cash

theorem total_append (bs cs : List Bill) : total (bs ++ cs) = total bs + total cs := by
  rw [total, List.map_append, List.sum_append, total, total]

theorem total_of_perm {bs cs : List Bill} (h : bs.Perm cs) : total bs = total cs :=
  (h.map Bill.amount).sum_eq

structure Ordered (s : State) : Prop where
  rising : s.bills.Pairwise (·.serial < ·.serial)
  below : ∀ b ∈ s.bills, b.serial < s.nextSerial

theorem rising_of_sorted {bills : List Bill} (hsorted : bills.Pairwise (·.serial ≤ ·.serial))
    (hnodup : (bills.map Bill.serial).Nodup) : bills.Pairwise (·.serial < ·.serial) := by
  have hdistinct : bills.Pairwise (·.serial ≠ ·.serial) := List.pairwise_map.1 hnodup
  exact (hsorted.and hdistinct).imp Int.lt_iff_le_and_ne.2

def Transaction.spends : Transaction → List Bill
  | .mint _ _ => []
  | .transfer spends _ => spends

def Transaction.issues (next : Int) : Transaction → List Bill
  | .mint minter amount => [⟨minter, amount, next⟩]
  | .transfer _ receives => receives

def Transaction.minted : Transaction → Int
  | .mint _ amount => amount
  | .transfer _ _ => 0

def Transaction.destroyed : Transaction → Int
  | .mint _ _ => 0
  | .transfer spends receives => total spends - total receives

theorem total_issues (next : Int) (t : Transaction) :
    total (t.issues next) = t.minted + total t.spends - t.destroyed := by
  cases t with
  | mint minter amount => simp [total, Transaction.issues, Transaction.minted,
      Transaction.spends, Transaction.destroyed]
  | transfer spends receives =>
      simp only [Transaction.issues, Transaction.minted, Transaction.spends, Transaction.destroyed]
      omega

def spent (ts : List Transaction) : List Bill :=
  ts.flatMap Transaction.spends

def issued (next : Int) : List Transaction → List Bill
  | [] => []
  | t :: ts => t.issues next ++ issued (next + (t.issues next).length) ts

structure Booked (s s' : State) (spends issues : List Bill) : Prop where
  balance : (s'.bills ++ spends).Perm (s.bills ++ issues)
  nextSerial : s'.nextSerial = s.nextSerial + issues.length
  rising : issues.Pairwise (·.serial < ·.serial)
  range : ∀ b ∈ issues, s.nextSerial ≤ b.serial ∧ b.serial < s'.nextSerial
  sorted : s'.bills.Pairwise (·.serial ≤ ·.serial)

namespace Booked

variable {s s' s'' : State} {spends issues spends' issues' : List Bill}

theorem refl (hs : Ordered s) : Booked s s [] [] where
  balance := .refl _
  nextSerial := by simp
  rising := .nil
  range := by simp
  sorted := hs.rising.imp Int.le_of_lt

theorem trans (h : Booked s s' spends issues) (h' : Booked s' s'' spends' issues') :
    Booked s s'' (spends ++ spends') (issues ++ issues') where
  balance := by
    rw [List.perm_iff_count]
    intro b
    have hcount := List.perm_iff_count.1 h.balance b
    have hcount' := List.perm_iff_count.1 h'.balance b
    simp only [List.count_append] at hcount hcount' ⊢
    omega
  nextSerial := by
    rw [h'.nextSerial, h.nextSerial, List.length_append]
    omega
  rising := by
    refine List.pairwise_append.2 ⟨h.rising, h'.rising, fun b hb c hc => ?_⟩
    exact Int.lt_of_lt_of_le (h.range b hb).2 (h'.range c hc).1
  range := by
    intro b hb
    have hnext := h.nextSerial
    have hnext' := h'.nextSerial
    rcases List.mem_append.1 hb with hb | hb
    · obtain ⟨hlow, hhigh⟩ := h.range b hb
      omega
    · obtain ⟨hlow, hhigh⟩ := h'.range b hb
      omega
  sorted := h'.sorted

theorem nodup_before (h : Booked s s' spends issues) (hs : Ordered s) :
    ((s.bills ++ issues).map Bill.serial).Nodup := by
  have hrising : (s.bills ++ issues).Pairwise (·.serial < ·.serial) := by
    refine List.pairwise_append.2 ⟨hs.rising, h.rising, fun b hb c hc => ?_⟩
    exact Int.lt_of_lt_of_le (hs.below b hb) (h.range c hc).1
  exact List.pairwise_map.2 (hrising.imp Int.ne_of_lt)

theorem nodup_after (h : Booked s s' spends issues) (hs : Ordered s) :
    ((s'.bills ++ spends).map Bill.serial).Nodup :=
  (h.balance.map Bill.serial).nodup_iff.2 (h.nodup_before hs)

theorem mem_of_held (h : Booked s s' spends issues) {b : Bill} (hb : b ∈ s'.bills) :
    b ∈ s.bills ∨ b ∈ issues :=
  List.mem_append.1 (h.balance.mem_iff.1 (List.mem_append_left _ hb))

theorem ordered (h : Booked s s' spends issues) (hs : Ordered s) : Ordered s' := by
  refine ⟨?_, fun b hb => ?_⟩
  · have hnodup := h.nodup_after hs
    rw [List.map_append, List.nodup_append] at hnodup
    exact rising_of_sorted h.sorted hnodup.1
  · have hnext := h.nextSerial
    rcases h.mem_of_held hb with hb | hb
    · have hbelow := hs.below b hb
      omega
    · exact (h.range b hb).2

theorem total_eq (h : Booked s s' spends issues) :
    total s'.bills + total spends = total s.bills + total issues := by
  rw [← total_append, ← total_append]
  exact total_of_perm h.balance

theorem notMem_of_notMem (h : Booked s s' spends issues) {n : Int} (hn : n < s.nextSerial)
    (hno : n ∉ s.bills.map Bill.serial) : n ∉ s'.bills.map Bill.serial := by
  intro hmem
  obtain ⟨b, hb, rfl⟩ := List.mem_map.1 hmem
  rcases h.mem_of_held hb with hb | hb
  · exact hno (List.mem_map_of_mem hb)
  · have hlow := (h.range b hb).1
    omega

end Booked

variable {s s' : State}

theorem sorted_sortBills (bills : List Bill) :
    (sortBills bills).Pairwise (·.serial ≤ ·.serial) := by
  have h : (sortBills bills).Pairwise fun a b => decide (a.serial ≤ b.serial) = true :=
    Sorting.sort_pairwise (fun a b => by simpa using Int.le_total a.serial b.serial)
      (fun a b c hab hbc => by simp only [decide_eq_true_eq] at *; omega) bills
  exact h.imp of_decide_eq_true

theorem values_holding (hs : Ordered s) : (holding s.bills).values = s.bills := by
  have hkeys : ((s.bills.map fun b => (b.serial, b)).map Prod.fst).Nodup := by
    rw [List.map_map]
    exact List.pairwise_map.2 (hs.rising.imp Int.ne_of_lt)
  rw [holding, Table.values, Table.entries_ofList hkeys, List.map_map]
  exact List.map_id _

theorem booked_mint {minter : String} {amount : Int}
    (h : mint s minter amount = .ok s') :
    Booked s s' [] [⟨minter, amount, s.nextSerial⟩] := by
  unfold mint at h
  split at h
  · simp at h
  cases h
  exact {
    balance := by
      rw [List.append_nil]
      exact Sorting.sort_perm ..
    nextSerial := rfl
    rising := List.pairwise_singleton ..
    range := by
      intro b hb
      obtain rfl := List.mem_singleton.1 hb
      exact ⟨Int.le_refl _, Int.lt_add_one_of_le (Int.le_refl _)⟩
    sorted := sorted_sortBills _ }

theorem booked_transfer (hs : Ordered s) {spends receives : List Bill}
    (h : transfer s spends receives = .ok s') :
    Booked s s' spends receives ∧ total receives ≤ total spends := by
  obtain ⟨hcleared, rfl⟩ := transfer_eq_ok_iff.1 h
  have hleft := hcleared.spendable.left_perm
  rw [values_holding hs] at hleft
  refine ⟨⟨?_, rfl, hcleared.numbered.rising, fun b => hcleared.numbered.range,
    sorted_sortBills _⟩, hcleared.covered⟩
  generalize ((holding s.bills).without (spends.map Bill.serial)).values = left at hleft ⊢
  calc
    List.Perm (sortBills (left ++ receives) ++ spends) (left ++ receives ++ spends) :=
      (Sorting.sort_perm ..).append_right _
    List.Perm _ (left ++ spends ++ receives) := by
      rw [List.append_assoc, List.append_assoc]
      exact List.perm_append_comm.append_left _
    List.Perm _ (s.bills ++ receives) := hleft.append_right _

theorem booked_step (hs : Ordered s) {t : Transaction} (h : step s t = .ok s') :
    Booked s s' t.spends (t.issues s.nextSerial) ∧ 0 ≤ t.destroyed := by
  cases t with
  | mint minter amount => exact ⟨booked_mint h, Int.le_refl 0⟩
  | transfer spends receives =>
      obtain ⟨hbooked, hcovered⟩ := booked_transfer hs h
      exact ⟨hbooked, Int.sub_nonneg.2 hcovered⟩

theorem booked_run (hs : Ordered s) {ts : List Transaction} (h : machine.run s ts = .ok s') :
    Booked s s' (spent ts) (issued s.nextSerial ts) ∧ ∀ t ∈ ts, 0 ≤ t.destroyed := by
  induction ts generalizing s with
  | nil =>
      cases h
      exact ⟨.refl hs, by simp⟩
  | cons t ts ih =>
      obtain ⟨mid, hstep, hrest⟩ := Machine.run_cons_eq_ok_iff.1 h
      obtain ⟨hbooked, hcovered⟩ := booked_step hs hstep
      obtain ⟨hlater, hcovered'⟩ := ih (hbooked.ordered hs) hrest
      rw [hbooked.nextSerial] at hlater
      exact ⟨hbooked.trans hlater, List.forall_mem_cons.2 ⟨hcovered, hcovered'⟩⟩

theorem total_issued (next : Int) (ts : List Transaction) :
    total (issued next ts) = (ts.map Transaction.minted).sum + total (spent ts) -
      (ts.map Transaction.destroyed).sum := by
  induction ts generalizing next with
  | nil => simp [issued, spent, total]
  | cons t ts ih =>
      have hspent : spent (t :: ts) = t.spends ++ spent ts := List.flatMap_cons
      rw [issued, total_append, total_issues, ih, hspent, total_append, List.map_cons,
        List.sum_cons, List.map_cons, List.sum_cons]
      omega

def Retired (s : State) (ts : List Transaction) : Prop :=
  ∀ earlier between later, ts = earlier ++ between ++ later →
    ∃ mid after, machine.run s earlier = .ok mid ∧ machine.run mid between = .ok after ∧
      ∀ n < mid.nextSerial, n ∉ mid.bills.map Bill.serial → n ∉ after.bills.map Bill.serial

theorem retired_run (hs : Ordered s) {ts : List Transaction} (h : machine.run s ts = .ok s') :
    Retired s ts := by
  rintro earlier between later rfl
  obtain ⟨after, hbefore, _⟩ := Machine.run_append_eq_ok_iff.1 h
  obtain ⟨mid, hearlier, hbetween⟩ := Machine.run_append_eq_ok_iff.1 hbefore
  have hmid := (booked_run hs hearlier).1.ordered hs
  exact ⟨mid, after, hearlier, hbetween, fun n hn => (booked_run hmid hbetween).1.notMem_of_notMem hn⟩

theorem bills_unique_and_value_accounted (hs : Ordered s) {ts : List Transaction}
    (h : machine.run s ts = .ok s') :
    Ordered s' ∧
    s'.nextSerial = s.nextSerial + (issued s.nextSerial ts).length ∧
    (s'.bills ++ spent ts).Perm (s.bills ++ issued s.nextSerial ts) ∧
    ((s.bills ++ issued s.nextSerial ts).map Bill.serial).Nodup ∧
    ((spent ts).map Bill.serial).Nodup ∧
    Retired s ts ∧
    total s'.bills = total s.bills + (ts.map Transaction.minted).sum -
      (ts.map Transaction.destroyed).sum ∧
    ∀ t ∈ ts, 0 ≤ t.destroyed := by
  obtain ⟨hbooked, hcovered⟩ := booked_run hs h
  have hnodup := hbooked.nodup_after hs
  rw [List.map_append] at hnodup
  refine ⟨hbooked.ordered hs, hbooked.nextSerial, hbooked.balance, hbooked.nodup_before hs,
    (List.nodup_append.1 hnodup).2.1, retired_run hs h, ?_, hcovered⟩
  have hsum := hbooked.total_eq
  rw [total_issued] at hsum
  omega

namespace Purse

def opening : State :=
  ⟨[⟨"alice", 5, 0⟩, ⟨"bob", 3, 2⟩], 3⟩

def transactions : List Transaction :=
  [.mint "alice" 4, .transfer [⟨"bob", 3, 2⟩, ⟨"alice", 4, 3⟩] [⟨"charlie", 6, 4⟩],
    .transfer [⟨"charlie", 6, 4⟩] [⟨"bob", 5, 5⟩, ⟨"alice", 1, 6⟩]]

def closing : State :=
  ⟨[⟨"alice", 5, 0⟩, ⟨"bob", 5, 5⟩, ⟨"alice", 1, 6⟩], 7⟩

end Purse

theorem purse_unique_and_value_accounted :
    Ordered Purse.opening ∧ machine.run Purse.opening Purse.transactions = .ok Purse.closing ∧
      Ordered Purse.closing ∧ Purse.closing.nextSerial = 3 + 4 ∧
      ((spent Purse.transactions).map Bill.serial).Nodup ∧
      Retired Purse.opening Purse.transactions ∧ total Purse.closing.bills = 8 + 4 - 1 := by
  have hs : Ordered Purse.opening := ⟨by decide, by decide⟩
  have hrun : machine.run Purse.opening Purse.transactions = .ok Purse.closing := rfl
  obtain ⟨hordered, hnext, _, _, hspent, hretired, htotal, _⟩ :=
    bills_unique_and_value_accounted hs hrun
  exact ⟨hs, hrun, hordered, hnext, hspent, hretired, htotal⟩

end Cash

end BlockTree
