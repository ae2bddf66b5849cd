import BlockTree.Chain
import BlockTree.Proofs.Bills
import BlockTree.Proofs.Faults
import BlockTree.Proofs.Withdrawals

namespace BlockTree

namespace Currency

variable {s s' : Balances}

def Funded (s : Balances) : Prop :=
  ∀ user n, s.get? user = some n → 1 ≤ n

def NoneEmpty (s : Balances) : Prop :=
  0 ∉ s.values

theorem funded_iff : Funded s ↔ Solvent s ∧ NoneEmpty s := by
  simp only [Funded, Solvent, NoneEmpty, Table.mem_values_iff]
  constructor
  · intro h
    refine ⟨?_, ?_⟩
    · rintro n ⟨user, hn⟩
      have := h user n hn
      omega
    · rintro ⟨user, hzero⟩
      exact absurd (h user 0 hzero) (by decide)
  · rintro ⟨hsolvent, hnone⟩ user n hn
    have hnonneg := hsolvent n ⟨user, hn⟩
    have hne : n ≠ 0 := fun hzero => hnone ⟨user, hzero ▸ hn⟩
    omega

theorem NoneEmpty.withBalance (hs : NoneEmpty s) (user : String) (n : Int) :
    NoneEmpty (s.withBalance user n) := by
  intro h
  unfold Balances.withBalance at h
  split at h
  · exact hs (Table.mem_values_of_erase h)
  · rename_i hn
    rcases Table.mem_values_of_set h with hzero | h
    · exact hn hzero.symm
    · exact hs h

theorem NoneEmpty.step (hs : NoneEmpty s) {t : Transaction} (h : step s t = .ok s') :
    NoneEmpty s' := by
  unfold Currency.step at h
  split at h
  · simp at h
  split at h
  · cases h
    exact hs.withBalance _ _
  · unfold burn at h
    split at h
    · simp at h
    · cases h
      exact hs.withBalance _ _
  · unfold transfer at h
    split at h
    · simp at h
    split at h
    · simp at h
    split at h
    · cases h
      exact hs
    · cases h
      exact (hs.withBalance _ _).withBalance _ _

theorem Funded.step (hs : Funded s) {t : Transaction} (h : step s t = .ok s') : Funded s' := by
  obtain ⟨hsolvent, hnone⟩ := funded_iff.1 hs
  exact funded_iff.2 ⟨hsolvent.step h, hnone.step h⟩

end Currency

namespace SumProduct

structure InRange (s : State) : Prop where
  sum_nonneg : 0 ≤ s.sum
  sum_le : s.sum ≤ maxWord
  product_nonneg : 0 ≤ s.product
  product_le : s.product ≤ maxWord

theorem InRange.step {s s' : State} (hs : InRange s) {x : Int} (h : step s x = .ok s') :
    InRange s' := by
  have hnatural := Natural.step ⟨hs.sum_nonneg, hs.product_nonneg⟩ h
  obtain ⟨_, hsum, hproduct, rfl⟩ := step_eq_ok_iff.1 h
  exact ⟨hnatural.sum, hsum, hnatural.product, hproduct⟩

end SumProduct

def Founding.Safe : (f : Founding) → f.kind.State → Prop
  | .lightSwitch _, _ => True
  | .twoSwitches _, _ => True
  | .atm founded, s => Atm.Sane founded.cashInside s
  | .currency _, s => Currency.Funded s
  | .cash _, s => Cash.Ordered s ∧ ∀ b ∈ s.bills, 0 ≤ b.amount
  | .sumProduct _, s => SumProduct.InRange s

theorem Founding.Safe.step {f : Founding} {s s' : f.kind.State} {x : f.kind.Extrinsic}
    (hnatural : f.kind.Natural s) (hs : f.Safe s) (h : f.kind.machine.step s x = .ok s') :
    f.Safe s' := by
  have hnatural' := Genesis.Kind.Natural.step hnatural h
  cases f with
  | lightSwitch founded => trivial
  | twoSwitches founded => trivial
  | atm founded =>
      cases h
      exact Atm.Sane.moves hs (Atm.moves_next s x)
  | currency founded => exact Currency.Funded.step hs h
  | cash founded =>
      have hordered := (Cash.booked_step hs.1 h).1.ordered hs.1
      exact ⟨hordered, fun b hb => (Cash.Natural.bills hnatural' b hb).1⟩
  | sumProduct founded => exact SumProduct.InRange.step hs h

namespace Genesis

open Reading

theorem le_maxWord_of_readWord {j : Json} {n : Int} (h : (readWord j).result = .ok n) :
    n ≤ SumProduct.maxWord := by
  obtain ⟨_, hmax⟩ := result_require.1 h
  exact of_decide_eq_true hmax

theorem le_maxWord_of_field {key : String} {fields : List (String × Json)} {n : Int}
    (h : (field key readWord fields).result = .ok n) : n ≤ SumProduct.maxWord := by
  obtain ⟨j, _, h⟩ := result_field.1 h
  exact le_maxWord_of_readWord h

theorem sane_of_readAtm {j : Json} {s : Atm.State} (h : (readAtm j).result = .ok s) :
    Atm.Sane s.cashInside s := by
  have hnonneg := natural_of_readAtm h
  obtain ⟨cash, _, hs⟩ := result_convert.1 h
  obtain rfl := Option.some.inj hs
  exact Atm.sane_fresh hnonneg

theorem funded_of_readBalances {j : Json} {s : Currency.Balances}
    (h : (readBalances j).result = .ok s) : Currency.Funded s := by
  refine Currency.funded_iff.2 ⟨solvent_of_readBalances h, ?_⟩
  obtain ⟨entries, _, hs⟩ := result_convert.1 h
  obtain rfl := Option.some.inj hs
  exact fun hzero => (mem_openAccounts hzero).1 rfl

theorem ordered_of_readCash {j : Json} {s : Cash.State} (h : (readCash j).result = .ok s) :
    Cash.Ordered s := by
  obtain ⟨hopened, hbelow⟩ := result_require.1 h
  obtain ⟨⟨bills, nextSerial⟩, hrequired, hs⟩ := result_convert.1 hopened
  obtain rfl := Option.some.inj hs
  obtain ⟨_, hnodup⟩ := result_require.1 hrequired
  have hserials : ((Cash.sortBills bills).map Cash.Bill.serial).Perm (bills.map Cash.Bill.serial) :=
    (Sorting.sort_perm ..).map _
  refine ⟨Cash.rising_of_sorted (Cash.sorted_sortBills bills) ?_, fun b hb => ?_⟩
  · exact hserials.nodup_iff.2 (of_decide_eq_true hnodup)
  · exact of_decide_eq_true (List.all_eq_true.1 hbelow b hb)

theorem inRange_of_readSumProduct {j : Json} {s : SumProduct.State}
    (h : (readSumProduct j).result = .ok s) : SumProduct.InRange s := by
  obtain ⟨fields, _, h⟩ := result_object.1 h
  obtain ⟨sum, product, hsum, hproduct, rfl⟩ := result_combine.1 h
  exact ⟨nonneg_of_field hsum, le_maxWord_of_field hsum, nonneg_of_field hproduct,
    le_maxWord_of_field hproduct⟩

theorem safe_of_readState {k : Kind} {j : Json} {f : Founding}
    (h : (Kind.readState j k).result = .ok f) : f.Safe f.state := by
  cases k <;> obtain ⟨s, hs, hf⟩ := result_convert.1 h <;> obtain rfl := Option.some.inj hf
  case lightSwitch => trivial
  case twoSwitches => trivial
  case atm => exact sane_of_readAtm hs
  case currency => exact funded_of_readBalances hs
  case cash => exact ⟨ordered_of_readCash hs, fun b hb => ((natural_of_readCash hs).bills b hb).1⟩
  case sumProduct => exact inRange_of_readSumProduct hs

theorem safe_of_parse {j : Json} {g : Genesis} (h : parse j = .ok g) :
    g.founding.Safe g.founding.state := by
  obtain ⟨kind, state, hstate⟩ := readState_of_parse h
  exact safe_of_readState hstate

end Genesis

def Chain.of : (k : Genesis.Kind) → Tree k.State k.Extrinsic k.Cause → Chain
  | .lightSwitch, t => .lightSwitch t
  | .twoSwitches, t => .twoSwitches t
  | .atm, t => .atm t
  | .currency, t => .currency t
  | .cash, t => .cash t
  | .sumProduct, t => .sumProduct t

namespace Genesis

theorem start_of_difficulty {g : Genesis} {configured : Number} {d : Difficulty}
    (hd : g.difficultyOr configured = .ok d) (choice : ForkChoice) :
    g.start configured choice =
      (foundOn g.founding.kind.machine g.founding.state d choice).map (Chain.of g.founding.kind) := by
  obtain ⟨difficulty, founding⟩ := g
  -- with the bind in place both sides would be run to compare them
  simp only [start, hd, bind, Except.bind]
  cases founding <;> rfl

theorem exists_difficulty (g : Genesis) {configured : Number} {n : Int}
    (hn : configured.toInt? = some n) (hmin : 0 ≤ n) (hmax : n ≤ 255) :
    ∃ d, g.difficultyOr configured = .ok d := by
  unfold difficultyOr
  cases g.difficulty with
  | some d => exact ⟨d, rfl⟩
  | none =>
      refine ⟨⟨n.toNat, Int.toNat_le.2 hmax⟩, ?_⟩
      simp only [Difficulty.ofNumber, Difficulty.ofNumber?, hn, hmin, hmax, and_self, dite_true]

end Genesis

theorem accepted_documents_start_safe_chains {j : Json} {g : Genesis}
    (hg : Genesis.parse j = .ok g) {configured : Number} {n : Int}
    (hn : configured.toInt? = some n) (hmin : 0 ≤ n) (hmax : n ≤ 255) (choice : ForkChoice) :
    ∃ t₀, g.start configured choice = .ok (.of g.founding.kind t₀) ∧
      ∀ calls t, t = ((Session.start t₀).run calls).tree →
        t.validity.machine = g.founding.kind.machine ∧
        (∀ id, (t.state? id).isSome = t.has id) ∧
        ∀ id s, t.state? id = some s →
          g.founding.Safe s ∧ ∃ root, g.founding.kind.machine.stateRoot s = .ok root := by
  obtain ⟨d, hd⟩ := g.exists_difficulty hn hmin hmax
  have hnatural := Genesis.natural_of_parse hg
  obtain ⟨root, hroot⟩ := Genesis.Kind.exists_stateRoot hnatural
  obtain ⟨t₀, hfound⟩ : ∃ t₀, Genesis.foundOn g.founding.kind.machine g.founding.state d choice =
      .ok t₀ := Tree.exists_found hroot
  refine ⟨t₀, ?_, ?_⟩
  · rw [Genesis.start_of_difficulty hd, hfound]
    rfl
  rintro calls t rfl
  have hgrown := Session.grown_run hfound calls
  refine ⟨hgrown.sound.machine_eq, hgrown.sound.stored, fun id s hs => ?_⟩
  have hkept := hgrown.state_keeps
    (P := fun s => g.founding.kind.Natural s ∧ g.founding.Safe s)
    (fun h hstep => ⟨h.1.step hstep, h.2.step h.1 hstep⟩) ⟨hnatural, Genesis.safe_of_parse hg⟩ hs
  exact ⟨hkept.2, Genesis.Kind.exists_stateRoot hkept.1⟩

namespace Cash.Purse

def document : Json :=
  .object [("machine", .text "digital-cash"), ("state", .object [("bills", .array
    [.object [("owner", .text "bob"), ("amount", .number (.finite false 5 0)),
      ("serial", .number (.finite false 1 2))],
     .object [("owner", .text "alice"), ("amount", .text "20"), ("serial", .text "1")]])])]

def founded : Cash.State :=
  ⟨[⟨"alice", 20, 1⟩, ⟨"bob", 5, 4⟩], 5⟩

theorem parse_document : Genesis.parse document = .ok ⟨none, .cash founded⟩ := by
  rfl

end Cash.Purse

theorem purse_document_starts_safe_chain :
    Genesis.parse Cash.Purse.document = .ok ⟨none, .cash Cash.Purse.founded⟩ ∧
      (Number.finite false 1 4).toInt? = some 16 ∧ (0 : Int) ≤ 16 ∧ (16 : Int) ≤ 255 ∧
      ∃ t₀, Genesis.start ⟨none, .cash Cash.Purse.founded⟩ (.finite false 1 4) = .ok (.cash t₀) ∧
        ∀ calls t, t = ((Session.start t₀).run calls).tree → ∀ id s, t.state? id = some s →
          (Cash.Ordered s ∧ ∀ b ∈ s.bills, 0 ≤ b.amount) ∧
            ∃ root, Cash.machine.stateRoot s = .ok root := by
  have hn : (Number.finite false 1 4).toInt? = some 16 := by rfl
  obtain ⟨t₀, hstart, hsafe⟩ := accepted_documents_start_safe_chains Cash.Purse.parse_document hn
    (by decide) (by decide) Preference.heaviestChain.rule
  exact ⟨Cash.Purse.parse_document, hn, by decide, by decide, t₀, hstart,
    fun calls t ht => (hsafe calls t ht).2.2⟩

end BlockTree
