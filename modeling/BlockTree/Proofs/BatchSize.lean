import BlockTree.Proofs.Batches
import BlockTree.Proofs.Configuration

namespace BlockTree

def FailsAs {α : Type} (kind : Fault.Kind) (x : Except Fault α) : Prop :=
  ∀ fault, x = .error fault → fault.kind = kind

namespace FailsAs

variable {α β : Type} {kind : Fault.Kind}

theorem ok (a : α) : FailsAs kind (.ok a : Except Fault α) :=
  fun fault h => by simp at h

theorem error {fault : Fault} (h : fault.kind = kind) :
    FailsAs kind (.error fault : Except Fault α) := by
  intro fault' heq
  obtain rfl := Except.error.inj heq
  exact h

theorem bind {x : Except Fault α} {f : α → Except Fault β} (hx : FailsAs kind x)
    (hf : ∀ a, FailsAs kind (f a)) : FailsAs kind (x >>= f) := by
  intro fault h
  rcases bind_eq_error_iff.1 h with h | ⟨a, _, h⟩
  · exact hx fault h
  · exact hf a fault h

end FailsAs

theorem Hex.decodePairs_failsAs (index : Nat) (us : List Nat) :
    FailsAs .format (decodePairs index us) := by
  fun_induction decodePairs index us with
  | case1 index u v rest h l hu hv ih => exact ih.bind fun bytes => .ok _
  | case2 => exact .error rfl
  | case3 => exact .ok _

theorem Hex.decode_failsAs (s : String) : FailsAs .format (decode s) := by
  unfold decode decodeUnits
  split
  · exact .error rfl
  · exact decodePairs_failsAs _ _

theorem Rlp.Item.ofInt_failsAs (n : Int) : FailsAs .format (ofInt n) := by
  unfold ofInt
  split
  · exact .error rfl
  · exact .ok _

theorem Header.id_failsAs (h : Header) : FailsAs .format h.id := by
  have hitem : FailsAs .format h.item :=
    (Hex.decode_failsAs _).bind fun _ => (Hex.decode_failsAs _).bind fun _ =>
      (Hex.decode_failsAs _).bind fun _ => (Rlp.Item.ofInt_failsAs _).bind fun _ =>
        (Rlp.Item.ofInt_failsAs _).bind fun _ => .ok _
  exact (hitem.bind fun _ => .ok _).bind fun _ => .ok _

namespace Mining

variable {h : UnsealedHeader} {d : Difficulty}

theorem search_failsAs (h : UnsealedHeader) (d : Difficulty) (start : Int) (attempts : Nat) :
    FailsAs .format (search h d start attempts) := by
  induction attempts generalizing start with
  | zero => exact .ok _
  | succ attempts ih =>
      have hhits : FailsAs .format (hits h d start) := (Header.id_failsAs _).bind fun _ => .ok _
      refine hhits.bind fun hit => ?_
      cases hit with
      | false => exact ih (start + 1)
      | true => exact .ok _

theorem kind_of_mine {batch : Nat} {o : Options} (hbatch : batchOf o.batchSize = .ok batch)
    {fault : Fault} (hfault : mine h d o = .error fault) :
    fault.kind = .format ∨ fault.kind = .aborted := by
  obtain ⟨start, batchSize, signal, patience⟩ := o
  cases signal with
  | none =>
      rw [mine_unsignalled hbatch] at hfault
      exact .inl (search_failsAs _ _ _ _ fault hfault)
  | some reads =>
      rw [mine_signalled hbatch] at hfault
      rcases bind_eq_error_iff.1 hfault with hsearch | ⟨found, _, haborted⟩
      · exact .inl (search_failsAs _ _ _ _ fault hsearch)
      · cases found with
        | none =>
            obtain rfl := Except.error.inj haborted
            exact .inr rfl
        | some nonce => simp [pure, Except.pure] at haborted

theorem mine_of_batchOf_error {o : Options} {fault : Fault}
    (hbatch : batchOf o.batchSize = .error fault) : mine h d o = .error fault := by
  rw [mine, hbatch]
  rfl

end Mining

namespace Config

open Reading

variable {env : Json} {c : Config}

def Oversized (env : Json) : Prop :=
  ∃ fields s n, env.fields? = some fields ∧ Assoc.get? Key.batch.name fields = some (.text s) ∧
    Spells s n ∧ Number.overflow ≤ n

theorem exists_difficulty_of_means {j : Json} {x : Number} (h : MeansNumber (· ≤ 255) j x) :
    ∃ d : Difficulty, x.toInt? = some (d.bits : Int) ∧ Difficulty.ofNumber x = .ok d := by
  obtain ⟨s, n, _, _, hmost, rfl⟩ := h
  have hoverflow : n < Number.overflow :=
    Nat.lt_of_lt_of_le (Nat.lt_of_le_of_lt hmost (by decide)) (Number.le_halfway 970)
  have hint : (Number.ofDecimal false n 0).toInt? = some (n : Int) := by
    rw [Number.toInt?_ofDecimal hoverflow,
      Number.rounded_of_lt (Nat.lt_of_le_of_lt hmost (by decide))]
  have hrange : (0 : Int) ≤ n ∧ (n : Int) ≤ 255 := by omega
  refine ⟨⟨n, hmost⟩, hint, ?_⟩
  simp only [Difficulty.ofNumber, Difficulty.ofNumber?, hint, hrange, and_self, dite_true,
    Int.toNat_natCast]

theorem meant_of_load (hc : load env = .ok c) :
    ∃ fields, env.fields? = some fields ∧
      MeansNumber (· ≤ 255) ((Assoc.get? Key.difficulty.name fields).getD (.text "16"))
        c.difficulty ∧
      MeansNumber (1 ≤ ·) ((Assoc.get? Key.batch.name fields).getD (.text "1000")) c.mineBatch := by
  obtain ⟨fields, hfields, hc⟩ := result_object.1 hc
  obtain ⟨left, right, _, hright, rfl⟩ := result_combine.1 hc
  obtain ⟨difficulty, batch, hdifficulty, hbatch, rfl⟩ := result_combine.1 hright
  exact ⟨fields, hfields, means_of_defaultField decides_difficulty hdifficulty,
    means_of_defaultField decides_batch hbatch⟩

theorem exists_batch_of_load (hc : load env = .ok c) :
    ∃ n, 1 ≤ n ∧ c.mineBatch = .ofDecimal false n 0 ∧ (Oversized env ↔ Number.overflow ≤ n) := by
  obtain ⟨fields, hfields, _, s, n, hs, hn, hleast, hbatch⟩ := meant_of_load hc
  refine ⟨n, hleast, hbatch, ?_, fun hover => ?_⟩
  · rintro ⟨fields', s', n', hfields', hs', hn', hover⟩
    obtain rfl := Option.some.inj (hfields.symm.trans hfields')
    rw [hs', Option.getD_some] at hs
    obtain rfl := Json.text.inj hs
    exact hn.unique hn' ▸ hover
  · cases hget : Assoc.get? Key.batch.name fields with
    | none =>
        rw [hget, Option.getD_none] at hs
        obtain rfl := Json.text.inj hs
        have hdefault : n = 1000 := hn.unique ⟨0, by decide⟩
        exact absurd (Nat.le_trans (Number.le_halfway 970) (hdefault ▸ hover)) (by decide)
    | some j =>
        rw [hget, Option.getD_some] at hs
        exact ⟨fields, s, n, hfields, hs ▸ hget, hn, hover⟩

theorem accepted_settings_usable_below_overflow (hc : load env = .ok c) :
    (∃ d : Difficulty, c.difficulty.toInt? = some (d.bits : Int) ∧
      Difficulty.ofNumber c.difficulty = .ok d) ∧
    (¬ Oversized env →
      (∃ batch : Nat, 1 ≤ batch ∧ c.mineBatch.toInt? = some (batch : Int)) ∧
      ∀ (h : UnsealedHeader) (d : Difficulty) (o : Mining.Options) (fault : Fault),
        Mining.mine h d { o with batchSize := c.mineBatch } = .error fault → fault.kind ≠ .range) ∧
    (Oversized env →
      c.mineBatch = .infinite false ∧
      ∀ (h : UnsealedHeader) (d : Difficulty) (o : Mining.Options),
        Mining.mine h d { o with batchSize := c.mineBatch } =
          .error (.fractionalBatch (.infinite false))) := by
  obtain ⟨_, _, hdifficulty, _⟩ := meant_of_load hc
  obtain ⟨n, hleast, hbatch, hover⟩ := exists_batch_of_load hc
  refine ⟨exists_difficulty_of_means hdifficulty, fun hbelow => ?_, fun hoversized => ?_⟩
  · have hint := Number.toInt?_ofDecimal (Nat.not_le.1 (hover.not.1 hbelow))
    have hpos : 1 ≤ Number.rounded n := (Number.le_rounded_iff (by decide)).2 hleast
    rw [← hbatch] at hint
    refine ⟨⟨_, hpos, hint⟩, fun h d o fault hfault => ?_⟩
    have hsize := Mining.batchOf_eq hint (Int.ofNat_le.2 hpos)
    rcases Mining.kind_of_mine (o := { o with batchSize := c.mineBatch }) hsize hfault with
      hkind | hkind
    · simp [hkind]
    · simp [hkind]
  · have hinfinite : c.mineBatch = .infinite false := by
      rw [hbatch, Number.ofDecimal_of_overflow false (hover.1 hoversized)]
    refine ⟨hinfinite, fun h d o => ?_⟩
    rw [hinfinite]
    exact Mining.mine_of_batchOf_error rfl

def wide : Json :=
  .object [(Key.batch.name, .text "9007199254740993"), (Key.difficulty.name, .text "007")]

theorem wide_not_oversized : ¬ Oversized wide := by
  rintro ⟨fields, s, n, hfields, hs, hn, hover⟩
  obtain rfl := Option.some.inj hfields
  obtain rfl : "9007199254740993" = s := Json.text.inj (Option.some.inj hs)
  have hvalue : n = 9007199254740993 := hn.unique ⟨0, by decide⟩
  rw [hvalue] at hover
  exact absurd hover (by decide +kernel)

theorem wide_settings_usable :
    ∃ c d, load wide = .ok c ∧ ¬ Oversized wide ∧
      c.mineBatch.toInt? = some 9007199254740992 ∧
      Difficulty.ofNumber c.difficulty = .ok d ∧ d.bits = 7 ∧
      ∀ (h : UnsealedHeader) (d : Difficulty) (o : Mining.Options) (fault : Fault),
        Mining.mine h d { o with batchSize := c.mineBatch } = .error fault → fault.kind ≠ .range := by
  have hload : load wide =
      .ok ⟨.info, false, .ofDecimal false 7 0, .ofDecimal false 9007199254740993 0⟩ := by
    decide +kernel
  obtain ⟨⟨d, hbits, hd⟩, husable, _⟩ := accepted_settings_usable_below_overflow hload
  have hseven : (Number.ofDecimal false 7 0).toInt? = some 7 := by decide +kernel
  have hint := Option.some.inj (hbits.symm.trans hseven)
  exact ⟨_, d, hload, wide_not_oversized, by decide +kernel, hd, Int.ofNat_inj.1 hint,
    (husable wide_not_oversized).2⟩

theorem load_batch {s : String} {n : Nat} (hs : Spells s n) (hn : 1 ≤ n) :
    load (.object [(Key.batch.name, .text s)]) =
      .ok ⟨.info, false, .ofDecimal false 16 0, .ofDecimal false n 0⟩ := by
  have hbatch : readBatch (.text s) = hold (.ofDecimal false n 0) := by
    cases decides_batch (.text s) with
    | right x means eq =>
        obtain ⟨s', m, hs', hm, _, rfl⟩ := means
        obtain rfl := Json.text.inj hs'
        rw [eq, hm.unique hs]
    | wrong p none _ => exact absurd ⟨s, n, rfl, hs, hn, rfl⟩ (none _)
  have hfield : defaultField Key.batch.name (.text "1000") readBatch [(Key.batch.name, .text s)] =
      (hold (.ofDecimal false n 0) : Reading Number).under Key.batch.name := by
    rw [← hbatch]
    rfl
  have hload : load (.object [(Key.batch.name, .text s)]) =
      (combine (fun l r => ⟨l.1, l.2, r.1, r.2⟩)
        (combine Prod.mk (.defaultField "LOG_LEVEL" (.text "info") readLevel [])
          (.defaultField "LOG_PRETTY" (.text "false") readPretty []))
        (combine Prod.mk (.defaultField "CHAIN_DIFFICULTY" (.text "16") readDifficulty [])
          ((hold (.ofDecimal false n 0) : Reading Number).under Key.batch.name)) :
            Reading Config).result := by
    rw [← hfield]
    rfl
  rw [hload]
  rfl

def endless : Json :=
  .object [(Key.batch.name, .text (String.ofList ('1' :: List.replicate 309 '0')))]

theorem overflow_le_pow10 {k : Nat} (hk : k = 309) : Number.overflow ≤ Nat.pow 10 k := by
  subst hk
  decide +kernel

theorem endless_batch_refused :
    ∃ c, load endless = .ok c ∧ c.mineBatch.toInt? = none ∧
      ∀ (h : UnsealedHeader) (d : Difficulty) (o : Mining.Options),
        Mining.mine h d { o with batchSize := c.mineBatch } =
          .error (.fractionalBatch c.mineBatch) := by
  -- the power is kept from being worked out
  obtain ⟨k, hk⟩ : ∃ k, k = 309 := ⟨_, rfl⟩
  have hload := load_batch (spells_pow10 k) (Nat.pow_pos (by decide))
  rw [Number.ofDecimal_of_overflow false (overflow_le_pow10 hk), hk] at hload
  exact ⟨_, hload, rfl, fun h d o => Mining.mine_of_batchOf_error rfl⟩

end Config

end BlockTree
