import BlockTree.Admission

namespace BlockTree

theorem bind_eq_ok_iff {ε α β : Type} {x : Except ε α} {f : α → Except ε β} {b : β} :
    (x >>= f) = .ok b ↔ ∃ a, x = .ok a ∧ f a = .ok b := by
  cases x <;> simp [bind, Except.bind]

theorem bind_pure_eq_ok_iff {ε α β : Type} {x : Except ε α} {f : α → β} {b : β} :
    (x >>= fun a => pure (f a)) = .ok b ↔ ∃ a, x = .ok a ∧ f a = b := by
  cases x <;> simp [bind, Except.bind, pure, Except.pure]

theorem bind_eq_error_iff {ε α β : Type} {x : Except ε α} {f : α → Except ε β} {e : ε} :
    (x >>= f) = .error e ↔ x = .error e ∨ ∃ a, x = .ok a ∧ f a = .error e := by
  cases x <;> simp [bind, Except.bind]

theorem bind_pure_eq_error_iff {ε α β : Type} {x : Except ε α} {f : α → β} {e : ε} :
    (x >>= fun a => pure (f a)) = .error e ↔ x = .error e := by
  cases x <;> simp [bind, Except.bind, pure, Except.pure]

theorem map_eq_ok_iff {ε α β : Type} {x : Except ε α} {f : α → β} {b : β} :
    x.map f = .ok b ↔ ∃ a, x = .ok a ∧ f a = b := by
  cases x <;> simp [Except.map]

theorem map_eq_error_iff {ε α β : Type} {x : Except ε α} {f : α → β} {e : ε} :
    x.map f = .error e ↔ x = .error e := by
  cases x <;> simp [Except.map]

theorem eq_ok_of_toOption {ε α : Type} {x : Except ε α} {a : α} (h : x.toOption = some a) :
    x = .ok a := by
  cases x with
  | error e => simp [Except.toOption] at h
  | ok b => exact congrArg Except.ok (Option.some.inj h)

theorem Header.id_eq_ok_iff {h : Header} {id : String} :
    h.id = .ok id ↔ ∃ b, h.encode = .ok b ∧ Hex.encode (keccak256 b) = id :=
  bind_pure_eq_ok_iff

theorem Header.checkDigest_eq_ok_iff (h : Header) (d : Difficulty) :
    h.checkDigest d = .ok (.ok ()) ↔ ∃ id, h.id = .ok id ∧ d.admits id = true := by
  rw [checkDigest, bind_pure_eq_ok_iff]
  apply exists_congr
  intro id
  cases d.admits id <;> simp

namespace Machine

variable {S T E : Type}

theorem stateRoot_eq_ok_iff {m : Machine S T E} {s : S} {root : String} :
    m.stateRoot s = .ok root ↔ ∃ b, m.stateBytes s = .ok b ∧ Hex.encode (keccak256 b) = root :=
  bind_pure_eq_ok_iff

theorem genesisBlock_eq_ok_iff {m : Machine S T E} {s : S} {b : Block T} :
    m.genesisBlock s = .ok b ↔ ∃ bodyRoot stateRoot, m.bodyRoot [] = .ok bodyRoot ∧
      m.stateRoot s = .ok stateRoot ∧
      ⟨⟨⟨genesisParent, 0, bodyRoot, stateRoot⟩, 0⟩, []⟩ = b := by
  rw [genesisBlock, bind_eq_ok_iff]
  apply exists_congr
  intro bodyRoot
  rw [bind_pure_eq_ok_iff, exists_and_left]

end Machine

namespace Validity

variable {S T E : Type}

structure Accepts (v : Validity S T E) (parent : ParentContext S) (b : Block T) (post : S) :
    Prop where
  wellFormed : b.header.malformedField? = none
  linked : b.header.parent = parent.id
  height : b.header.height = parent.height + 1
  bodyRoot : v.machine.bodyRoot b.body = .ok b.header.extrinsicsRoot
  digest : ∃ id, b.header.id = .ok id ∧ v.difficulty.admits id = true
  run : v.machine.run parent.state b.body = .ok post
  stateRoot : v.machine.stateRoot post = .ok b.header.stateRoot
  rules : ∀ r ∈ v.rules, r.check b.header post = true

theorem brokenRule?_eq_none_iff (v : Validity S T E) (h : Header) (post : S) :
    v.brokenRule? h post = none ↔ ∀ r ∈ v.rules, r.check h post = true := by
  simp [brokenRule?]

theorem checkLinked_eq_ok_iff (v : Validity S T E) (parent : ParentContext S) (b : Block T)
    (post : S) :
    v.checkLinked parent b = .ok (.ok post) ↔
      b.header.height = parent.height + 1 ∧
      v.machine.bodyRoot b.body = .ok b.header.extrinsicsRoot ∧
      b.header.checkDigest v.difficulty = .ok (.ok ()) ∧
      v.machine.run parent.state b.body = .ok post ∧
      v.machine.stateRoot post = .ok b.header.stateRoot ∧
      v.brokenRule? b.header post = none := by
  unfold checkLinked
  simp only [bind, Except.bind, pure, Except.pure]
  constructor
  · intro h
    -- one split for each check, in the order in which they are made
    split at h
    · simp at h
    rename_i hheight
    split at h
    · simp at h
    rename_i root hroot
    split at h
    · simp at h
    rename_i hbody
    split at h
    · simp at h
    rename_i digest hdigest
    split at h
    · simp at h
    split at h
    · simp at h
    rename_i after hrun
    split at h
    · simp at h
    rename_i stateRoot hstate
    split at h
    · simp at h
    rename_i hroots
    split at h
    · simp at h
    rename_i hrule
    obtain rfl : after = post := by simpa using h
    simp only [ne_eq, Decidable.not_not] at hheight hbody hroots
    exact ⟨hheight, hbody ▸ hroot, hdigest, hrun, hroots ▸ hstate, hrule⟩
  · rintro ⟨hheight, hroot, hdigest, hrun, hstate, hrule⟩
    simp [hheight, hroot, hdigest, hrun, hstate, hrule]

theorem check_eq_ok_iff (v : Validity S T E) (parent? : Option (ParentContext S)) (b : Block T)
    (post : S) :
    v.check parent? b = .ok (.ok post) ↔
      ∃ parent, parent? = some parent ∧ v.Accepts parent b post := by
  unfold check
  constructor
  · intro h
    split at h
    · simp at h
    rename_i hshape
    split at h
    · simp at h
    rename_i parent
    split at h
    · simp at h
    rename_i hparent
    obtain ⟨hheight, hroot, hdigest, hrun, hstate, hrule⟩ := (checkLinked_eq_ok_iff ..).1 h
    exact ⟨parent, rfl, hshape, (Decidable.not_not.1 hparent).symm, hheight, hroot,
      (Header.checkDigest_eq_ok_iff ..).1 hdigest, hrun, hstate,
      (brokenRule?_eq_none_iff ..).1 hrule⟩
  · rintro ⟨parent, rfl, h⟩
    simp only [h.wellFormed, h.linked, ne_eq, not_true_eq_false, if_false]
    exact (checkLinked_eq_ok_iff ..).2 ⟨h.height, h.bodyRoot,
      (Header.checkDigest_eq_ok_iff ..).2 h.digest, h.run, h.stateRoot,
      (brokenRule?_eq_none_iff ..).2 h.rules⟩

theorem accepts_of_check {v : Validity S T E} {parent : ParentContext S} {b : Block T} {post : S}
    (h : v.check (some parent) b = .ok (.ok post)) : v.Accepts parent b post := by
  obtain ⟨_, hparent, haccepts⟩ := (check_eq_ok_iff ..).1 h
  rwa [Option.some.inj hparent]

def unruled (v : Validity S T E) : Validity S T E :=
  { v with rules := [] }

theorem check_of_unruled {v : Validity S T E} {parent : ParentContext S} {b : Block T} {post : S}
    (h : v.unruled.Accepts parent b post) :
    v.check (some parent) b = .ok (match v.brokenRule? b.header post with
      | some rule => .error (.ruleViolation rule.name)
      | none => .ok post) := by
  have hroot : v.machine.bodyRoot b.body = .ok b.header.extrinsicsRoot := h.bodyRoot
  have hdigest : b.header.checkDigest v.difficulty = .ok (.ok ()) :=
    (Header.checkDigest_eq_ok_iff ..).2 h.digest
  have hrun : v.machine.run parent.state b.body = .ok post := h.run
  have hstate : v.machine.stateRoot post = .ok b.header.stateRoot := h.stateRoot
  simp only [check, checkLinked, h.wellFormed, h.linked, h.height, hroot, hdigest, hrun, hstate,
    bind, Except.bind, pure, Except.pure, ne_eq, not_true_eq_false, if_false]
  cases v.brokenRule? b.header post <;> rfl

theorem brokenRule?_of_first {v : Validity S T E} {h : Header} {post : S}
    {before after : List (ChainRule S)} {rule : ChainRule S}
    (hrules : v.rules = before ++ rule :: after) (hbefore : ∀ r ∈ before, r.check h post = true)
    (hrule : rule.check h post = false) : v.brokenRule? h post = some rule := by
  rw [brokenRule?, hrules]
  refine List.find?_eq_some_iff_append.2 ⟨by simp [hrule], before, after, rfl, fun r hr => ?_⟩
  simp [hbefore r hr]

theorem Accepts.post_eq {v : Validity S T E} {parent : ParentContext S} {b : Block T} {s s' : S}
    (h : v.Accepts parent b s) (h' : v.Accepts parent b s') : s = s' := by
  have := h.run.symm.trans h'.run
  simpa using this

end Validity

end BlockTree
