import BlockTree.Machines.Cash
import BlockTree.Proofs.Admission
import Mathlib.Algebra.BigOperators.Group.List.Basic
import Mathlib.Algebra.Ring.Int.Defs

namespace BlockTree

namespace Table

variable {κ α : Type} [DecidableEq κ]

def without (t : Table κ α) (ks : List κ) : Table κ α :=
  ks.foldl erase t

@[simp] theorem without_nil (t : Table κ α) : t.without [] = t := rfl

@[simp] theorem without_cons (t : Table κ α) (k : κ) (ks : List κ) :
    t.without (k :: ks) = (t.erase k).without ks := rfl

theorem entries_without (t : Table κ α) (ks : List κ) :
    (t.without ks).entries = t.entries.filter fun e => decide (e.1 ∉ ks) := by
  induction ks generalizing t with
  | nil => simp
  | cons k ks ih =>
      rw [without_cons, ih, entries_erase, List.filter_filter]
      apply List.filter_congr
      intro e _
      simp [Bool.and_comm]

theorem mem_values_of_without {t : Table κ α} {ks : List κ} {a : α}
    (h : a ∈ (t.without ks).values) : a ∈ t.values := by
  rw [values, entries_without] at h
  exact List.map_subset _ (List.filter_sublist.subset) h

end Table

namespace Assoc

variable {κ α : Type} [DecidableEq κ] {k : κ} {a : α} {es : List (κ × α)}

theorem erase_perm (h : get? k es = some a) : ((k, a) :: erase k es).Perm es := by
  induction es with
  | nil => simp [get?] at h
  | cons e es ih =>
      unfold get? at h
      unfold erase
      split at h
      · rename_i hk
        rw [if_pos hk, ← hk, ← Option.some.inj h]
      · rename_i hk
        rw [if_neg hk]
        exact (List.Perm.swap e (k, a) _).trans ((ih h).cons e)

end Assoc

theorem Table.values_erase_perm {κ α : Type} [DecidableEq κ] {t : Table κ α} {k : κ} {a : α}
    (h : t.get? k = some a) : (a :: (t.erase k).values).Perm t.values :=
  (Assoc.erase_perm h).map Prod.snd

namespace Cash

def total (bills : List Bill) : Int :=
  (bills.map Bill.amount).sum

theorem total_cons (b : Bill) (bs : List Bill) : total (b :: bs) = b.amount + total bs := by
  rw [total, List.map_cons, List.sum_cons, total]

def Numbered (next : Int) (bills : List Bill) : Prop :=
  ∀ i (h : i < bills.length), bills[i].serial = next + i

theorem numbered_nil (next : Int) : Numbered next [] :=
  fun _ h => absurd h (Nat.not_lt_zero _)

theorem numbered_cons_iff {next : Int} {b : Bill} {bs : List Bill} :
    Numbered next (b :: bs) ↔ b.serial = next ∧ Numbered (next + 1) bs := by
  constructor
  · intro h
    refine ⟨by simpa using h 0 (Nat.zero_lt_succ _), fun i hi => ?_⟩
    have hnext := h (i + 1) (Nat.succ_lt_succ hi)
    rw [List.getElem_cons_succ] at hnext
    omega
  · rintro ⟨hb, hbs⟩ i hi
    cases i with
    | zero => simpa using hb
    | succ i =>
        have hnext := hbs i (Nat.lt_of_succ_lt_succ hi)
        rw [List.getElem_cons_succ]
        omega

namespace Numbered

variable {next : Int} {bills : List Bill}

theorem rising (h : Numbered next bills) : bills.Pairwise (·.serial < ·.serial) := by
  rw [List.pairwise_iff_getElem]
  intro i j hi hj hij
  rw [h i hi, h j hj]
  omega

theorem range (h : Numbered next bills) {b : Bill} (hb : b ∈ bills) :
    next ≤ b.serial ∧ b.serial < next + bills.length := by
  obtain ⟨i, hi, rfl⟩ := List.mem_iff_getElem.1 hb
  rw [h i hi]
  omega

end Numbered

theorem receive_eq_ok_iff {serial sum : Int} {bs : List Bill} {r : Int × Int} :
    receive serial sum bs = .ok r ↔
      Numbered serial bs ∧ (∀ b ∈ bs, 0 < b.amount) ∧
        r = (serial + bs.length, sum + total bs) := by
  induction bs generalizing serial sum with
  | nil => simp [receive, numbered_nil, total, eq_comm]
  | cons b bs ih =>
      have hlength : serial + 1 + (bs.length : Int) = serial + (b :: bs).length := by
        rw [List.length_cons]
        omega
      rw [receive, numbered_cons_iff, List.forall_mem_cons, total_cons, ← Int.add_assoc, ← hlength]
      by_cases hserial : b.serial = serial
      · by_cases hamount : b.amount ≤ 0
        · simp [hserial, hamount, Int.not_lt.2 hamount]
        · simp [hserial, hamount, Int.not_le.1 hamount, ih]
      · simp [hserial]

structure Spendable (held : Holding) (before : List Int) (bs : List Bill) : Prop where
  held : ∀ b ∈ bs, held.get? b.serial = some b
  unspent : ∀ b ∈ bs, b.serial ∉ before
  distinct : (bs.map Bill.serial).Nodup

theorem spendable_nil (held : Holding) (before : List Int) : Spendable held before [] :=
  ⟨by simp, by simp, .nil⟩

theorem spendable_cons_iff {held : Holding} {before : List Int} {b : Bill} {bs : List Bill} :
    Spendable held before (b :: bs) ↔ b.serial ∉ before ∧ held.get? b.serial = some b ∧
      Spendable (held.erase b.serial) (b.serial :: before) bs := by
  constructor
  · intro h
    obtain ⟨hb, hbs⟩ := List.nodup_cons.1 h.distinct
    have hne : ∀ c ∈ bs, b.serial ≠ c.serial := by
      intro c hc heq
      exact hb (heq ▸ List.mem_map_of_mem hc)
    refine ⟨h.unspent b (.head _), h.held b (.head _), ?_, ?_, hbs⟩
    · intro c hc
      rw [Table.get?_erase, if_neg (hne c hc), h.held c (.tail _ hc)]
    · intro c hc
      exact List.not_mem_cons_of_ne_of_not_mem (hne c hc).symm (h.unspent c (.tail _ hc))
  · rintro ⟨hb, hheld, h⟩
    have hne : ∀ c ∈ bs, b.serial ≠ c.serial := by
      intro c hc heq
      exact h.unspent c hc (heq ▸ List.mem_cons_self)
    refine ⟨List.forall_mem_cons.2 ⟨hheld, ?_⟩, List.forall_mem_cons.2 ⟨hb, ?_⟩, ?_⟩
    · intro c hc
      have hleft := h.held c hc
      rwa [Table.get?_erase, if_neg (hne c hc)] at hleft
    · intro c hc
      exact List.not_mem_of_not_mem_cons (h.unspent c hc)
    · refine List.nodup_cons.2 ⟨?_, h.distinct⟩
      intro hmem
      obtain ⟨c, hc, heq⟩ := List.mem_map.1 hmem
      exact hne c hc heq.symm

theorem spend_eq_ok_iff {held : Holding} {before : List Int} {sum : Int} {bs : List Bill}
    {r : Holding × Int} :
    spend held before sum bs = .ok r ↔
      Spendable held before bs ∧ r = (held.without (bs.map Bill.serial), sum + total bs) := by
  induction bs generalizing held before sum with
  | nil => simp [spend, spendable_nil, total, eq_comm]
  | cons b bs ih =>
      rw [spend, spendable_cons_iff, List.map_cons, Table.without_cons, total_cons, ← Int.add_assoc]
      by_cases hb : b.serial ∈ before
      · simp [hb]
      · by_cases hheld : held.get? b.serial = some b
        · simp [hb, hheld, ih]
        · simp [hb, hheld]

theorem Spendable.left_perm {held : Holding} {before : List Int} {bs : List Bill}
    (h : Spendable held before bs) :
    ((held.without (bs.map Bill.serial)).values ++ bs).Perm held.values := by
  induction bs generalizing held before with
  | nil => simp
  | cons b bs ih =>
      obtain ⟨_, hheld, hrest⟩ := spendable_cons_iff.1 h
      exact List.perm_middle.trans (((ih hrest).cons b).trans (Table.values_erase_perm hheld))

structure Cleared (s : State) (spends receives : List Bill) : Prop where
  spends_ne : spends ≠ []
  receives_ne : receives ≠ []
  spendable : Spendable (holding s.bills) [] spends
  numbered : Numbered s.nextSerial receives
  positive : ∀ b ∈ receives, 0 < b.amount
  covered : total receives ≤ total spends

theorem transfer_eq_ok_iff {s s' : State} {spends receives : List Bill} :
    transfer s spends receives = .ok s' ↔ Cleared s spends receives ∧
      s' = ⟨sortBills (((holding s.bills).without (spends.map Bill.serial)).values ++ receives),
        s.nextSerial + receives.length⟩ := by
  unfold transfer
  constructor
  · intro h
    split at h
    · simp at h
    rename_i hspends
    split at h
    · simp at h
    rename_i hreceives
    obtain ⟨r, hspend, h⟩ := bind_eq_ok_iff.1 h
    obtain ⟨hspendable, rfl⟩ := spend_eq_ok_iff.1 hspend
    obtain ⟨r, hreceive, h⟩ := bind_eq_ok_iff.1 h
    obtain ⟨hnumbered, hpositive, rfl⟩ := receive_eq_ok_iff.1 hreceive
    simp only [Int.zero_add] at h
    split at h
    · simp at h
    rename_i hcovered
    exact ⟨⟨hspends, hreceives, hspendable, hnumbered, hpositive, Int.not_lt.1 hcovered⟩,
      (Except.ok.inj h).symm⟩
  · rintro ⟨h, rfl⟩
    have hspend : spend (holding s.bills) [] 0 spends = .ok _ :=
      spend_eq_ok_iff.2 ⟨h.spendable, rfl⟩
    have hreceive : receive s.nextSerial 0 receives = .ok _ :=
      receive_eq_ok_iff.2 ⟨h.numbered, h.positive, rfl⟩
    rw [if_neg h.spends_ne, if_neg h.receives_ne, hspend, hreceive]
    simp only [bind, Except.bind, Int.zero_add]
    rw [if_neg (Int.not_lt.2 h.covered)]

end Cash

end BlockTree
