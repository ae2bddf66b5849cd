import BlockTree.Proofs.Bills

namespace BlockTree

namespace Cash

variable {s s' : State} {spends receives : List Bill}

namespace Ordered

theorem serials_nodup (hs : Ordered s) : (s.bills.map Bill.serial).Nodup :=
  List.pairwise_map.2 (hs.rising.imp Int.ne_of_lt)

theorem entries_holding (hs : Ordered s) :
    (holding s.bills).entries = s.bills.map fun b => (b.serial, b) := by
  apply Table.entries_ofList
  rw [List.map_map]
  exact hs.serials_nodup

theorem get?_holding_iff (hs : Ordered s) {b : Bill} :
    (holding s.bills).get? b.serial = some b ↔ b ∈ s.bills := by
  rw [Table.get?_eq_some_iff, hs.entries_holding, List.mem_map]
  constructor
  · rintro ⟨c, hc, heq⟩
    obtain rfl : c = b := congrArg Prod.snd heq
    exact hc
  · intro hb
    exact ⟨b, hb, rfl⟩

theorem spendable_iff (hs : Ordered s) {bs : List Bill} :
    Spendable (holding s.bills) [] bs ↔
      (∀ b ∈ bs, b ∈ s.bills) ∧ (bs.map Bill.serial).Nodup := by
  constructor
  · intro h
    exact ⟨fun b hb => hs.get?_holding_iff.1 (h.held b hb), h.distinct⟩
  · rintro ⟨hheld, hdistinct⟩
    exact ⟨fun b hb => hs.get?_holding_iff.2 (hheld b hb), by simp, hdistinct⟩

theorem mem_serials_iff (hs : Ordered s) {bs : List Bill} (hbs : ∀ b ∈ bs, b ∈ s.bills) {b : Bill}
    (hb : b ∈ s.bills) : b.serial ∈ bs.map Bill.serial ↔ b ∈ bs := by
  constructor
  · intro hmem
    obtain ⟨c, hc, heq⟩ := List.mem_map.1 hmem
    exact List.inj_on_of_nodup_map hs.serials_nodup (hbs c hc) hb heq ▸ hc
  · exact List.mem_map_of_mem

theorem values_without (hs : Ordered s) {bs : List Bill} (hbs : ∀ b ∈ bs, b ∈ s.bills) :
    ((holding s.bills).without (bs.map Bill.serial)).values =
      s.bills.filter fun b => decide (b ∉ bs) := by
  rw [Table.values, Table.entries_without, hs.entries_holding, List.filter_map, List.map_map]
  refine (List.map_id _).trans (List.filter_congr fun b hb => ?_)
  exact decide_eq_decide.2 (not_congr (hs.mem_serials_iff hbs hb))

end Ordered

structure Payable (s : State) (spends receives : List Bill) : Prop where
  spends_ne : spends ≠ []
  receives_ne : receives ≠ []
  held : ∀ b ∈ spends, b ∈ s.bills
  distinct : (spends.map Bill.serial).Nodup
  numbered : Numbered s.nextSerial receives
  positive : ∀ b ∈ receives, 0 < b.amount
  covered : total receives ≤ total spends

def exchanged (s : State) (spends receives : List Bill) : State :=
  ⟨s.bills.filter (fun b => decide (b ∉ spends)) ++ receives, s.nextSerial + receives.length⟩

theorem Ordered.sortBills_exchanged (hs : Ordered s) (hreceives : Numbered s.nextSerial receives) :
    sortBills (s.bills.filter (fun b => decide (b ∉ spends)) ++ receives) =
      s.bills.filter (fun b => decide (b ∉ spends)) ++ receives := by
  have hsorted : (s.bills.filter (fun b => decide (b ∉ spends)) ++ receives).Pairwise
      (·.serial < ·.serial) := by
    refine List.pairwise_append.2 ⟨hs.rising.filter _, hreceives.rising, ?_⟩
    intro b hb c hc
    exact Int.lt_of_lt_of_le (hs.below b (List.mem_of_mem_filter hb)) (hreceives.range hc).1
  exact Sorting.sort_of_pairwise (hsorted.imp fun h => decide_eq_true (Int.le_of_lt h))

theorem Ordered.cleared_iff (hs : Ordered s) :
    Cleared s spends receives ↔ Payable s spends receives := by
  constructor
  · intro h
    obtain ⟨hheld, hdistinct⟩ := hs.spendable_iff.1 h.spendable
    exact ⟨h.spends_ne, h.receives_ne, hheld, hdistinct, h.numbered, h.positive, h.covered⟩
  · intro h
    exact ⟨h.spends_ne, h.receives_ne, hs.spendable_iff.2 ⟨h.held, h.distinct⟩, h.numbered,
      h.positive, h.covered⟩

theorem Ordered.transfer_eq_ok_iff (hs : Ordered s) :
    transfer s spends receives = .ok s' ↔
      Payable s spends receives ∧ s' = exchanged s spends receives := by
  rw [Cash.transfer_eq_ok_iff, hs.cleared_iff]
  refine and_congr_right fun h => ?_
  rw [hs.values_without h.held, hs.sortBills_exchanged h.numbered, exchanged]

theorem Payable.of_perm {spends' : List Bill} (h : Payable s spends receives)
    (hperm : spends'.Perm spends) : Payable s spends' receives where
  spends_ne := by
    rintro rfl
    exact h.spends_ne hperm.nil_eq.symm
  receives_ne := h.receives_ne
  held b hb := h.held b (hperm.mem_iff.1 hb)
  distinct := (hperm.map Bill.serial).nodup_iff.2 h.distinct
  numbered := h.numbered
  positive := h.positive
  covered := by
    rw [total_of_perm hperm]
    exact h.covered

theorem exchanged_perm {spends' : List Bill} (s : State) (hperm : spends'.Perm spends)
    (receives : List Bill) : exchanged s spends' receives = exchanged s spends receives := by
  simp only [exchanged, hperm.mem_iff]

theorem transfers_accepted_iff_payable (hs : Ordered s) (spends receives : List Bill) :
    ((∃ s', machine.step s (.transfer spends receives) = .ok s') ↔ Payable s spends receives) ∧
    (∀ s', machine.step s (.transfer spends receives) = .ok s' →
      s'.bills = s.bills.filter (fun b => decide (b ∉ spends)) ++ receives ∧
      s'.nextSerial = s.nextSerial + receives.length) ∧
    ∀ spends', spends'.Perm spends → ∀ s',
      machine.step s (.transfer spends' receives) = .ok s' ↔
        machine.step s (.transfer spends receives) = .ok s' := by
  have hstep : ∀ spends s', machine.step s (.transfer spends receives) = .ok s' ↔
      Payable s spends receives ∧ s' = exchanged s spends receives :=
    fun _ _ => hs.transfer_eq_ok_iff
  refine ⟨⟨?_, ?_⟩, ?_, ?_⟩
  · rintro ⟨s', h⟩
    exact ((hstep _ _).1 h).1
  · intro h
    exact ⟨_, (hstep _ _).2 ⟨h, rfl⟩⟩
  · intro s' h
    obtain ⟨_, rfl⟩ := (hstep _ _).1 h
    exact ⟨rfl, rfl⟩
  · intro spends' hperm s'
    rw [hstep, hstep, exchanged_perm s hperm]
    constructor
    · rintro ⟨h, heq⟩
      exact ⟨h.of_perm hperm.symm, heq⟩
    · rintro ⟨h, heq⟩
      exact ⟨h.of_perm hperm, heq⟩

namespace Purse

def filled : State :=
  ⟨[⟨"alice", 5, 0⟩, ⟨"bob", 3, 2⟩, ⟨"alice", 4, 3⟩], 4⟩

def given : List Bill :=
  [⟨"alice", 4, 3⟩, ⟨"alice", 5, 0⟩]

def gained : List Bill :=
  [⟨"charlie", 6, 4⟩, ⟨"alice", 2, 5⟩]

end Purse

theorem purse_transfers_accepted_iff_payable :
    Ordered Purse.filled ∧ Payable Purse.filled Purse.given Purse.gained ∧
      machine.step Purse.filled (.transfer Purse.given Purse.gained) =
        .ok ⟨[⟨"bob", 3, 2⟩, ⟨"charlie", 6, 4⟩, ⟨"alice", 2, 5⟩], 6⟩ ∧
      machine.step Purse.filled (.transfer Purse.given.reverse Purse.gained) =
        .ok ⟨[⟨"bob", 3, 2⟩, ⟨"charlie", 6, 4⟩, ⟨"alice", 2, 5⟩], 6⟩ := by
  have hs : Ordered Purse.filled := ⟨by decide, by decide⟩
  have hstep : machine.step Purse.filled (.transfer Purse.given Purse.gained) =
      .ok ⟨[⟨"bob", 3, 2⟩, ⟨"charlie", 6, 4⟩, ⟨"alice", 2, 5⟩], 6⟩ := rfl
  obtain ⟨hpayable, _, hperm⟩ := transfers_accepted_iff_payable hs Purse.given Purse.gained
  exact ⟨hs, hpayable.1 ⟨_, hstep⟩, hstep, (hperm _ (List.reverse_perm _) _).2 hstep⟩

end Cash

end BlockTree
