import BlockTree.Proofs.Atomicity
import BlockTree.Proofs.Faults

namespace BlockTree

section FirstFailing

variable {α : Type} {ok : α → Prop} {x y : α} {xs : List α}

def FirstFailing (ok : α → Prop) (xs : List α) (x : α) : Prop :=
  ∃ before after, xs = before ++ x :: after ∧ (∀ y ∈ before, ok y) ∧ ¬ok x

theorem firstFailing_cons_iff :
    FirstFailing ok (x :: xs) y ↔ (¬ok x ∧ x = y) ∨ (ok x ∧ FirstFailing ok xs y) := by
  constructor
  · rintro ⟨before, after, hxs, hbefore, hy⟩
    cases before with
    | nil =>
        obtain ⟨rfl, _⟩ := List.cons.inj hxs
        exact .inl ⟨hy, rfl⟩
    | cons z before =>
        obtain ⟨rfl, rfl⟩ := List.cons.inj hxs
        exact .inr ⟨hbefore x (.head _), before, after, rfl,
          fun z hz => hbefore z (.tail _ hz), hy⟩
  · rintro (⟨hx, rfl⟩ | ⟨hx, before, after, rfl, hbefore, hy⟩)
    · exact ⟨[], xs, rfl, fun _ hz => absurd hz List.not_mem_nil, hx⟩
    · exact ⟨x :: before, after, rfl, List.forall_mem_cons.2 ⟨hx, hbefore⟩, hy⟩

theorem FirstFailing.unique (hx : FirstFailing ok xs x) (hy : FirstFailing ok xs y) : x = y := by
  induction xs with
  | nil =>
      obtain ⟨before, after, hxs, _⟩ := hx
      simp at hxs
  | cons z zs ih =>
      rcases firstFailing_cons_iff.1 hx with ⟨hz, rfl⟩ | ⟨hz, hx⟩
      · rcases firstFailing_cons_iff.1 hy with ⟨_, hy⟩ | ⟨hz', _⟩
        · exact hy
        · exact absurd hz' hz
      · rcases firstFailing_cons_iff.1 hy with ⟨hz', _⟩ | ⟨_, hy⟩
        · exact absurd hz hz'
        · exact ih hx hy

theorem FirstFailing.mem (h : FirstFailing ok xs x) : x ∈ xs ∧ ¬ok x := by
  obtain ⟨before, after, rfl, _, hx⟩ := h
  exact ⟨List.mem_append_right _ (.head _), hx⟩

theorem firstFailing_of_find? {p : α → Bool} (h : xs.find? (fun x => !p x) = some x) :
    FirstFailing (fun x => p x = true) xs x := by
  obtain ⟨hx, before, after, hxs, hbefore⟩ := List.find?_eq_some_iff_append.1 h
  refine ⟨before, after, hxs, fun y hy => ?_, ?_⟩
  · simpa using hbefore y hy
  · simpa using hx

end FirstFailing

inductive Check where
  | shape
  | parent
  | height
  | bodyRoot
  | digest
  | run
  | stateRoot
  | rules
  deriving DecidableEq, Repr

namespace Check

def all : List Check :=
  [.shape, .parent, .height, .bodyRoot, .digest, .run, .stateRoot, .rules]

theorem mem_all (c : Check) : c ∈ all := by
  cases c <;> simp [all]

end Check

namespace Tree

variable {S T E α : Type} {settings : Settings S T E} {t : Tree S T E} {b : Block T}

def LeadsTo (t : Tree S T E) (b : Block T) (post : S) : Prop :=
  ∃ pre, t.state? b.header.parent = some pre ∧ t.validity.machine.run pre b.body = .ok post

def Passes (t : Tree S T E) (b : Block T) : Check → Prop
  | .shape => b.header.malformedField? = none
  | .parent => t.has b.header.parent = true ∧ ¬t.Absent b.header.parent
  | .height => ∃ n, t.height? b.header.parent = some n ∧ b.header.height = n + 1
  | .bodyRoot => t.validity.machine.bodyRoot b.body = .ok b.header.extrinsicsRoot
  | .digest => ∃ id, b.header.id = .ok id ∧ Hex.toNat id ≤ t.difficulty.threshold
  | .run => ∃ post, t.LeadsTo b post
  | .stateRoot => ∃ post, t.LeadsTo b post ∧
      t.validity.machine.stateRoot post = .ok b.header.stateRoot
  | .rules => ∃ post, t.LeadsTo b post ∧ ∀ rule ∈ t.validity.rules, rule.check b.header post = true

def Blames (t : Tree S T E) (b : Block T) : Check → Rejection E → Prop
  | .shape, reason => ∃ field, FirstFailing (fun f => b.header.fieldOk f = true) Header.fields field ∧
      reason = .malformedHeader field
  | .parent, reason => reason = .unknownParent b.header.parent
  | .height, reason => ∃ n, t.height? b.header.parent = some n ∧
      reason = .badHeight (n + 1) b.header.height
  | .bodyRoot, reason => ∃ root, t.validity.machine.bodyRoot b.body = .ok root ∧
      reason = .bodyMismatch b.header.extrinsicsRoot root
  | .digest, reason => ∃ id, b.header.id = .ok id ∧
      reason = .invalidDigest ⟨id, t.difficulty.threshold⟩
  | .run, reason => ∃ pre failure, t.state? b.header.parent = some pre ∧
      t.validity.machine.StopsAt pre b.body failure ∧ reason = .invalidTransition failure
  | .stateRoot, reason => ∃ post root, t.LeadsTo b post ∧
      t.validity.machine.stateRoot post = .ok root ∧
      reason = .stateRootMismatch b.header.stateRoot root
  | .rules, reason => ∃ post rule, t.LeadsTo b post ∧
      FirstFailing (fun rule => rule.check b.header post = true) t.validity.rules rule ∧
      reason = .ruleViolation rule.name

theorem LeadsTo.unique {post post' : S} (h : t.LeadsTo b post) (h' : t.LeadsTo b post') :
    post = post' := by
  obtain ⟨pre, hpre, hrun⟩ := h
  obtain ⟨pre', hpre', hrun'⟩ := h'
  obtain rfl : pre = pre' := Option.some.inj (hpre.symm.trans hpre')
  exact Except.ok.inj (hrun.symm.trans hrun')

theorem Blames.unique {c : Check} {reason reason' : Rejection E} (h : t.Blames b c reason)
    (h' : t.Blames b c reason') : reason = reason' := by
  cases c with
  | shape =>
      obtain ⟨field, hfield, rfl⟩ := h
      obtain ⟨field', hfield', rfl⟩ := h'
      rw [hfield.unique hfield']
  | parent => exact Eq.trans h (Eq.symm h')
  | height =>
      obtain ⟨n, hn, rfl⟩ := h
      obtain ⟨n', hn', rfl⟩ := h'
      rw [Option.some.inj (hn.symm.trans hn')]
  | bodyRoot =>
      obtain ⟨root, hroot, rfl⟩ := h
      obtain ⟨root', hroot', rfl⟩ := h'
      rw [Except.ok.inj (hroot.symm.trans hroot')]
  | digest =>
      obtain ⟨id, hid, rfl⟩ := h
      obtain ⟨id', hid', rfl⟩ := h'
      rw [Except.ok.inj (hid.symm.trans hid')]
  | run =>
      obtain ⟨pre, failure, hpre, hstop, rfl⟩ := h
      obtain ⟨pre', failure', hpre', hstop', rfl⟩ := h'
      obtain rfl : pre = pre' := Option.some.inj (hpre.symm.trans hpre')
      have hrun := Machine.run_eq_error_iff.2 hstop
      have hrun' := Machine.run_eq_error_iff.2 hstop'
      rw [Except.error.inj (hrun.symm.trans hrun')]
  | stateRoot =>
      obtain ⟨post, root, hpost, hroot, rfl⟩ := h
      obtain ⟨post', root', hpost', hroot', rfl⟩ := h'
      obtain rfl := hpost.unique hpost'
      rw [Except.ok.inj (hroot.symm.trans hroot')]
  | rules =>
      obtain ⟨post, rule, hpost, hrule, rfl⟩ := h
      obtain ⟨post', rule', hpost', hrule', rfl⟩ := h'
      obtain rfl := hpost.unique hpost'
      rw [hrule.unique hrule']

section Judged

variable {c : Check} {checks : List Check} {verdict : Except (Rejection E) α}

def Judged (t : Tree S T E) (b : Block T) (checks : List Check) : Except (Rejection E) α → Prop
  | .ok _ => ∀ c ∈ checks, t.Passes b c
  | .error reason => ∃ c, FirstFailing (t.Passes b) checks c ∧ t.Blames b c reason

theorem Judged.pass (h : t.Passes b c) (hrest : t.Judged b checks verdict) :
    t.Judged b (c :: checks) verdict := by
  cases verdict with
  | ok a => exact List.forall_mem_cons.2 ⟨h, hrest⟩
  | error reason =>
      obtain ⟨d, hd, hblames⟩ := hrest
      exact ⟨d, firstFailing_cons_iff.2 (.inr ⟨h, hd⟩), hblames⟩

theorem Judged.fail {reason : Rejection E} (h : ¬t.Passes b c) (hblames : t.Blames b c reason)
    (hverdict : verdict = .error reason) : t.Judged b (c :: checks) verdict := by
  subst hverdict
  exact ⟨c, firstFailing_cons_iff.2 (.inl ⟨h, rfl⟩), hblames⟩

end Judged

theorem passes_height_iff {n : Int} (hn : t.height? b.header.parent = some n) :
    t.Passes b .height ↔ b.header.height = n + 1 := by
  simp [Passes, hn]

theorem passes_bodyRoot_iff {root : String} (h : t.validity.machine.bodyRoot b.body = .ok root) :
    t.Passes b .bodyRoot ↔ root = b.header.extrinsicsRoot := by
  simp [Passes, h]

theorem passes_digest_iff {id : String} (hid : b.header.id = .ok id) :
    t.Passes b .digest ↔ t.validity.difficulty.admits id = true := by
  simp [Passes, hid, difficulty, Difficulty.admits]

theorem passes_run_iff {pre : S} (hpre : t.state? b.header.parent = some pre) :
    t.Passes b .run ↔ ∃ post, t.validity.machine.run pre b.body = .ok post := by
  simp [Passes, LeadsTo, hpre]

theorem LeadsTo.passes_stateRoot_iff {post : S} {root : String} (h : t.LeadsTo b post)
    (hroot : t.validity.machine.stateRoot post = .ok root) :
    t.Passes b .stateRoot ↔ root = b.header.stateRoot := by
  constructor
  · rintro ⟨post', hpost', hroot'⟩
    rw [← h.unique hpost'] at hroot'
    exact Except.ok.inj (hroot.symm.trans hroot')
  · rintro rfl
    exact ⟨post, h, hroot⟩

theorem LeadsTo.passes_rules_iff {post : S} (h : t.LeadsTo b post) :
    t.Passes b .rules ↔ ∀ rule ∈ t.validity.rules, rule.check b.header post = true := by
  constructor
  · rintro ⟨post', hpost', hrules⟩
    rwa [h.unique hpost']
  · exact fun hrules => ⟨post, h, hrules⟩

theorem judged_of_checkLinked {p : ParentContext S} (hshape : b.header.malformedField? = none)
    (hp : t.parentContext? b.header.parent = some p) {verdict : Except (Rejection E) S}
    (h : t.validity.checkLinked p b = .ok verdict) :
    t.Judged b [.height, .bodyRoot, .digest, .run, .stateRoot, .rules] verdict := by
  obtain ⟨e, pre, he, hpre, rfl⟩ := exists_of_parentContext? hp
  have hparent : t.height? b.header.parent = some e.height := by rw [height?, he, Option.map_some]
  obtain ⟨id, hid⟩ := Header.exists_id_eq_ok hshape
  unfold Validity.checkLinked at h
  simp only [Header.checkDigest, hid, bind, Except.bind, pure, Except.pure] at h
  -- one split for each check, in the order in which they are made
  split at h
  · rename_i hheight
    exact .fail (mt (passes_height_iff hparent).1 hheight) ⟨_, hparent, rfl⟩ (Except.ok.inj h).symm
  rename_i hheight
  refine .pass ((passes_height_iff hparent).2 (Decidable.not_not.1 hheight)) ?_
  split at h
  · simp at h
  rename_i root hroot
  split at h
  · rename_i hne
    exact .fail (mt (passes_bodyRoot_iff hroot).1 hne) ⟨_, hroot, rfl⟩ (Except.ok.inj h).symm
  rename_i heq
  refine .pass ((passes_bodyRoot_iff hroot).2 (Decidable.not_not.1 heq)) ?_
  cases hadmits : t.validity.difficulty.admits id with
  | false =>
      simp only [hadmits, Bool.false_eq_true, if_false] at h
      refine .fail ?_ ⟨id, hid, rfl⟩ (Except.ok.inj h).symm
      simp [passes_digest_iff hid, hadmits]
  | true =>
      refine .pass ((passes_digest_iff hid).2 hadmits) ?_
      cases hrun : t.validity.machine.run pre b.body with
      | error failure =>
          simp only [hadmits, if_true, hrun] at h
          refine .fail ?_ ⟨pre, failure, hpre, Machine.run_eq_error_iff.1 hrun, rfl⟩
            (Except.ok.inj h).symm
          simp [passes_run_iff hpre, hrun]
      | ok post =>
          simp only [hadmits, if_true, hrun] at h
          refine .pass ((passes_run_iff hpre).2 ⟨post, hrun⟩) ?_
          have hpost : t.LeadsTo b post := ⟨pre, hpre, hrun⟩
          split at h
          · simp at h
          rename_i root hroot
          split at h
          · rename_i hne
            exact .fail (mt (hpost.passes_stateRoot_iff hroot).1 hne) ⟨post, root, hpost, hroot, rfl⟩
              (Except.ok.inj h).symm
          rename_i heq
          refine .pass ((hpost.passes_stateRoot_iff hroot).2 (Decidable.not_not.1 heq)) ?_
          cases hbroken : t.validity.brokenRule? b.header post with
          | some rule =>
              simp only [hbroken] at h
              have hfirst := firstFailing_of_find? hbroken
              exact .fail (fun hpass => hfirst.mem.2 (hpost.passes_rules_iff.1 hpass _ hfirst.mem.1))
                ⟨post, rule, hpost, hfirst, rfl⟩ (Except.ok.inj h).symm
          | none =>
              simp only [hbroken] at h
              obtain rfl := Except.ok.inj h
              exact .pass (hpost.passes_rules_iff.2 ((Validity.brokenRule?_eq_none_iff ..).1 hbroken))
                fun _ hc => absurd hc List.not_mem_nil

theorem judged_of_malformed {field : Header.Field} (h : b.header.malformedField? = some field) :
    t.Judged b Check.all (.error (.malformedHeader field) : Except (Rejection E) α) := by
  have hfirst : FirstFailing (fun f => b.header.fieldOk f = true) Header.fields field :=
    firstFailing_of_find? h
  exact .fail (by simp [Passes, h]) ⟨field, hfirst, rfl⟩ rfl

theorem judged_of_check (hs : Sound settings t) {verdict : Except (Rejection E) S}
    (h : t.validity.check (t.parentContext? b.header.parent) b = .ok verdict) :
    t.Judged b Check.all verdict := by
  unfold Validity.check at h
  cases hshape : b.header.malformedField? with
  | some field =>
      simp only [hshape] at h
      obtain rfl := Except.ok.inj h
      exact judged_of_malformed hshape
  | none =>
      simp only [hshape] at h
      refine .pass hshape ?_
      cases hctx : t.parentContext? b.header.parent with
      | none =>
          simp only [hctx] at h
          refine .fail ?_ rfl (Except.ok.inj h).symm
          rintro ⟨hhas, hpresent⟩
          obtain ⟨e, he⟩ := has_iff.1 hhas
          obtain ⟨s, _, hstored⟩ := hs.exists_stored he
          cases hpre : t.validity.machine.isPresent s with
          | false => exact hpresent (hstored.absent hpre)
          | true => cases hctx.symm.trans (hstored.parentContext? hpre)
      | some p =>
          obtain ⟨e, _, he, _, rfl⟩ := exists_of_parentContext? hctx
          simp only [hctx, ne_eq, not_true_eq_false, if_false] at h
          refine .pass ⟨has_iff.2 ⟨e, he⟩, fun habsent => ?_⟩
            (judged_of_checkLinked hshape hctx h)
          rw [habsent.parentContext?] at hctx
          cases hctx

def New (t : Tree S T E) (b : Block T) : Prop :=
  b.header.malformedField? ≠ none ∨ ∃ id, b.header.id = .ok id ∧ t.has id = false

theorem New.fresh (h : t.New b) (hshape : b.header.malformedField? = none) {id : String}
    (hid : b.header.id = .ok id) : t.has id = false := by
  rcases h with hbad | ⟨id', hid', hfresh⟩
  · exact absurd hshape hbad
  · rwa [Except.ok.inj (hid.symm.trans hid')]

theorem judged_of_insert (hs : Sound settings t) (hnew : t.New b) {r : Receipt S T E}
    (h : t.insert b = .ok r) : t.Judged b Check.all r.result := by
  cases insert_cases h with
  | malformed hbad => exact judged_of_malformed hbad
  | known hshape hid hhas => simp [hnew.fresh hshape hid] at hhas
  | rejected _ _ _ hcheck _ => exact judged_of_check hs hcheck
  | admitted hb => exact judged_of_check hs ((Validity.check_eq_ok_iff ..).2 hb.accepted)

theorem id_of_insert {r : Receipt S T E} (h : t.insert b = .ok r) {id : String}
    (hid : r.result = .ok id) : b.header.id = .ok id := by
  cases insert_cases h with
  | malformed _ => cases hid
  | known _ hid' _ =>
      cases hid
      exact hid'
  | rejected _ _ _ _ _ => cases hid
  | admitted hb =>
      cases hid
      exact hb.id_eq

theorem result_eq_ok_iff (hs : Sound settings t) (hnew : t.New b) {r : Receipt S T E}
    (h : t.insert b = .ok r) (id : String) :
    r.result = .ok id ↔ b.header.id = .ok id ∧ ∀ c, t.Passes b c := by
  have hjudged := judged_of_insert hs hnew h
  constructor
  · intro hid
    rw [hid] at hjudged
    exact ⟨id_of_insert h hid, fun c => hjudged c c.mem_all⟩
  · rintro ⟨hid, hpass⟩
    cases hresult : r.result with
    | error reason =>
        rw [hresult] at hjudged
        obtain ⟨c, hc, _⟩ := hjudged
        exact absurd (hpass c) hc.mem.2
    | ok id' => rw [Except.ok.inj ((id_of_insert h hresult).symm.trans hid)]

theorem Sound.holds_bodies (hs : Sound settings t) {id : String} {e : Entry T}
    (he : t.entry? id = some e) :
    settings.machine.bodyRoot e.block.body = .ok e.block.header.extrinsicsRoot := by
  obtain ⟨_, hpost⟩ := hs.exists_state he
  exact (hs.commits he hpost).bodyRoot

theorem Admits.bodyRoot {id : String} {post : S} (h : t.Admits id b post) :
    t.validity.machine.bodyRoot b.body = .ok b.header.extrinsicsRoot := by
  obtain ⟨_, _, haccepts⟩ := h.accepted
  exact haccepts.bodyRoot

section Tampered

variable {r : Receipt S T E}
  (htampered : t.validity.machine.bodyRoot b.body ≠ .ok b.header.extrinsicsRoot)

include htampered

theorem tree_eq_of_tampered (h : t.insert b = .ok r) : r.tree = t := by
  cases insert_cases h with
  | malformed _ => rfl
  | known _ _ _ => rfl
  | rejected _ _ _ _ _ => rfl
  | admitted hb => exact absurd hb.bodyRoot htampered

theorem accepts_tampered_iff (id : String) :
    (∃ r, t.insert b = .ok r ∧ r.result = .ok id) ↔
      b.header.malformedField? = none ∧ b.header.id = .ok id ∧ t.has id = true := by
  constructor
  · rintro ⟨r, hr, hid⟩
    cases insert_cases hr with
    | malformed _ => cases hid
    | known hshape hid' hhas =>
        cases hid
        exact ⟨hshape, hid', hhas⟩
    | rejected _ _ _ _ _ => cases hid
    | admitted hb => exact absurd hb.bodyRoot htampered
  · rintro ⟨hshape, hid, hhas⟩
    exact ⟨_, insert_known hshape hid hhas, rfl⟩

end Tampered

end Tree

namespace Sums

def sunken : Block Int :=
  ⟨{ opening.header with height := 0 }, [4]⟩

def sunkenId : String :=
  "0x5d5cf23ceb0a3b29b1193a851ebfee818865fb7201364a2d9025c65de9fa3982"

def sunkenRoot : String :=
  "0xf344df9daaac4c66d6a2deb61e2f18009500fdb49ec05bde8aa7a2d020f3e085"

theorem sunken_digests : sunken.header.id.toOption = some sunkenId ∧
    (settings.machine.bodyRoot sunken.body).toOption = some sunkenRoot ∧
    (settings.machine.stateRoot ⟨4, 4⟩).toOption.isSome = true := by
  decide +kernel

theorem bodyRoot_sunken : settings.machine.bodyRoot sunken.body = .ok sunkenRoot :=
  eq_ok_of_toOption sunken_digests.2.1

end Sums

theorem tampered_body_accepted_iff_known {S T E : Type} (settings : Settings S T E)
    {t₀ t : Tree S T E} (hfound : Tree.found settings = .ok t₀) (calls : List (Call S T))
    (ht : t = ((Session.start t₀).run calls).tree) :
    (∀ id e, t.entry? id = some e →
      settings.machine.bodyRoot e.block.body = .ok e.block.header.extrinsicsRoot) ∧
    ∀ b, settings.machine.bodyRoot b.body ≠ .ok b.header.extrinsicsRoot →
      (∀ id, (∃ r, t.insert b = .ok r ∧ r.result = .ok id) ↔
        b.header.malformedField? = none ∧ b.header.id = .ok id ∧ t.has id = true) ∧
      ∀ r, t.insert b = .ok r → r.tree = t := by
  subst ht
  have hs := (Session.grown_run hfound calls).sound
  refine ⟨fun _ _ => hs.holds_bodies, fun b htampered => ?_⟩
  rw [← hs.machine_eq] at htampered
  exact ⟨Tree.accepts_tampered_iff htampered, fun _ => Tree.tree_eq_of_tampered htampered⟩

namespace Sums

def altered : Block Int :=
  ⟨opening.header, [4]⟩

theorem altered_tampered :
    settings.machine.bodyRoot altered.body ≠ .ok altered.header.extrinsicsRoot := by
  have hne : sunkenRoot ≠ altered.header.extrinsicsRoot := by decide
  exact fun h => hne (Except.ok.inj (bodyRoot_sunken.symm.trans h))

theorem knows_opening (b : Block Int) :
    ((Session.start (Tree.first settings genesisId b)).run [.insert opening]).tree.has openingId =
      true := by
  rw [Session.run_cons, Session.run_nil,
    Session.start_step_insert (Tree.insert_of_admits (opening_admits b))]
  exact has_opening b

end Sums

theorem sums_tampered_body_accepted_iff_known :
    ∃ t₀ t, Tree.found Sums.settings = .ok t₀ ∧
      t = ((Session.start t₀).run [.insert Sums.opening]).tree ∧
      Sums.settings.machine.bodyRoot Sums.altered.body ≠
        .ok Sums.altered.header.extrinsicsRoot ∧
      (¬∃ r, t₀.insert Sums.altered = .ok r ∧ r.result = .ok Sums.openingId) ∧
      ∃ r, t.insert Sums.altered = .ok r ∧ r.result = .ok Sums.openingId ∧ r.tree = t := by
  obtain ⟨b, hfound⟩ := Sums.found_first
  have hfresh := (Sums.opening_admits b).fresh
  have hhas := Sums.knows_opening b
  generalize Tree.first Sums.settings Sums.genesisId b = t at *
  have hbefore := (tampered_body_accepted_iff_known Sums.settings hfound [] rfl).2 Sums.altered
    Sums.altered_tampered
  have hafter := (tampered_body_accepted_iff_known Sums.settings hfound [.insert Sums.opening]
    rfl).2 Sums.altered Sums.altered_tampered
  obtain ⟨r, hr, hid⟩ := (hafter.1 Sums.openingId).2
    ⟨Sums.opening_accepted.wellFormed, Sums.ids.1, hhas⟩
  refine ⟨t, _, hfound, rfl, Sums.altered_tampered, fun h => ?_, r, hr, hid, hafter.2 r hr⟩
  have hknown : t.has Sums.openingId = true := ((hbefore.1 Sums.openingId).1 h).2.2
  simp [hfresh] at hknown

theorem altered_opening_accepted :
    ∃ t₀ t r, Tree.found Sums.settings = .ok t₀ ∧
      t = ((Session.start t₀).run [.insert Sums.opening]).tree ∧
      t.insert Sums.altered = .ok r ∧ r.result = .ok Sums.openingId ∧
      Sums.settings.machine.bodyRoot Sums.altered.body ≠
        .ok Sums.altered.header.extrinsicsRoot := by
  obtain ⟨b, hfound⟩ := Sums.found_first
  have hhas := Sums.knows_opening b
  exact ⟨_, _, _, hfound, rfl,
    Tree.insert_known Sums.opening_accepted.wellFormed Sums.ids.1 hhas, rfl,
    Sums.altered_tampered⟩

end BlockTree
