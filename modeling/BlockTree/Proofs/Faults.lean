import BlockTree.Proofs.GenesisState
import BlockTree.Proofs.Production

namespace BlockTree

variable {S T E : Type}

namespace Validity

variable {v : Validity S T E} {p : ParentContext S} {b : Block T}

theorem checkLinked_of_bodyRoot_error {fault : Fault}
    (hheight : b.header.height = p.height + 1)
    (hroot : v.machine.bodyRoot b.body = .error fault) :
    v.checkLinked p b = .error fault := by
  simp [checkLinked, hheight, hroot, bind, Except.bind]

theorem exists_checkLinked {id : String} (hid : b.header.id = .ok id)
    (hroot : b.header.height = p.height + 1 → ∃ root, v.machine.bodyRoot b.body = .ok root)
    (hstate : ∀ post, v.machine.run p.state b.body = .ok post →
      ∃ root, v.machine.stateRoot post = .ok root) :
    ∃ verdict, v.checkLinked p b = .ok verdict := by
  by_cases hheight : b.header.height = p.height + 1
  · obtain ⟨root, hroot⟩ := hroot hheight
    simp only [checkLinked, hheight, hroot, Header.checkDigest, hid, bind, Except.bind, pure,
      Except.pure, ne_eq, not_true_eq_false, if_false]
    split
    · exact ⟨_, rfl⟩
    cases v.difficulty.admits id with
    | false => exact ⟨_, rfl⟩
    | true =>
        cases hrun : v.machine.run p.state b.body with
        | error failure => exact ⟨_, rfl⟩
        | ok post =>
            obtain ⟨stateRoot, hstate⟩ := hstate post hrun
            simp only [hstate, if_true]
            split
            · exact ⟨_, rfl⟩
            · cases v.brokenRule? b.header post with
              | some rule => exact ⟨_, rfl⟩
              | none => exact ⟨_, rfl⟩
  · exact ⟨_, if_pos hheight⟩

end Validity

namespace Tree

variable {settings : Settings S T E} {t : Tree S T E} {b : Block T}

structure Reaches (t : Tree S T E) (b : Block T) : Prop where
  wellFormed : b.header.malformedField? = none
  fresh : ∃ id, b.header.id = .ok id ∧ t.has id = false
  height : ∃ height, t.height? b.header.parent = some height ∧ b.header.height = height + 1

theorem Sound.insert_of_reaches (hs : Sound settings t)
    (hdefined : t.validity.machine.StatesDefined) (h : t.Reaches b) {fault : Fault}
    (hroot : t.validity.machine.bodyRoot b.body = .error fault) : t.insert b = .error fault := by
  obtain ⟨id, hid, hfresh⟩ := h.fresh
  obtain ⟨height, hparent, hheight⟩ := h.height
  obtain ⟨e, he, rfl⟩ := Option.map_eq_some_iff.1 hparent
  obtain ⟨s, _, hstored⟩ := hs.exists_stored he
  have hctx := hstored.parentContext? (hdefined s)
  rw [insert_fresh h.wellFormed hid hfresh, hctx]
  simp only [Validity.check, h.wellFormed, ne_eq, not_true_eq_false, if_false,
    Validity.checkLinked_of_bodyRoot_error (p := ⟨b.header.parent, e.height, s⟩) hheight hroot]
  rfl

theorem exists_check {id : String} (shape : b.header.malformedField? = none)
    (hid : b.header.id = .ok id) (fresh : t.has id = false)
    (hroot : t.Reaches b → ∃ root, t.validity.machine.bodyRoot b.body = .ok root)
    (hstate : ∀ s post, t.state? b.header.parent = some s →
      t.validity.machine.run s b.body = .ok post →
      ∃ root, t.validity.machine.stateRoot post = .ok root) :
    ∃ verdict, t.validity.check (t.parentContext? b.header.parent) b = .ok verdict := by
  cases hctx : t.parentContext? b.header.parent with
  | none => exact ⟨.error (.unknownParent b.header.parent), by simp [Validity.check, shape]⟩
  | some parent =>
      obtain ⟨e, s, he, hs, rfl⟩ := exists_of_parentContext? hctx
      simp only [Validity.check, shape, ne_eq, not_true_eq_false, if_false]
      refine Validity.exists_checkLinked hid (fun hheight => hroot ⟨shape, ⟨id, hid, fresh⟩,
        e.height, ?_, hheight⟩) fun post => hstate s post hs
      rw [height?, he, Option.map_some]

theorem exists_insert (htold : t.validity.machine.CausesTold)
    (hroot : t.Reaches b → ∃ root, t.validity.machine.bodyRoot b.body = .ok root)
    (hstate : ∀ s post, t.state? b.header.parent = some s →
      t.validity.machine.run s b.body = .ok post →
      ∃ root, t.validity.machine.stateRoot post = .ok root) : ∃ r, t.insert b = .ok r := by
  cases shape : b.header.malformedField? with
  | some field => exact ⟨_, insert_malformed shape⟩
  | none =>
      obtain ⟨id, hid⟩ := Header.exists_id_eq_ok shape
      cases hhas : t.has id with
      | true => exact ⟨_, insert_known shape hid hhas⟩
      | false =>
          obtain ⟨verdict, hcheck⟩ := exists_check shape hid hhas hroot hstate
          cases verdict with
          | ok post => exact ⟨_, by rw [insert_fresh shape hid hhas, hcheck]; rfl⟩
          | error reason =>
              obtain ⟨text, htext⟩ := htold.exists_describe reason
              exact ⟨_, insert_rejected shape hid hhas hcheck htext⟩

theorem exists_found {root : String}
    (hstate : settings.machine.stateRoot settings.genesisState = .ok root) :
    ∃ t₀, found settings = .ok t₀ := by
  have hgenesis := Machine.genesisBlock_eq_ok_iff.2 ⟨_, _, rfl, hstate, rfl⟩
  obtain ⟨id, hid⟩ := Header.exists_id_eq_ok (Machine.wellFormed_genesisBlock hgenesis)
  exact ⟨_, found_eq_ok_iff.2 ⟨_, id, hgenesis, hid, rfl⟩⟩

end Tree

namespace Genesis.Kind

variable {k : Kind} {settings : Settings k.State k.Extrinsic k.Cause}
  {t : Tree k.State k.Extrinsic k.Cause} {b : Block k.Extrinsic}

theorem negative_of_insert (hgrown : Tree.Grown settings t) (hm : settings.machine = k.machine)
    (hnatural : k.Natural settings.genesisState) {fault : Fault} (h : t.insert b = .error fault) :
    t.Reaches b ∧ ∃ x ∈ b.body, ∃ n ∈ k.amounts x, n < 0 ∧ fault = .negativeInteger n := by
  have hmachine : t.validity.machine = k.machine := hgrown.sound.machine_eq.trans hm
  have hstep : ∀ {s s' x}, k.Natural s → settings.machine.step s x = .ok s' → k.Natural s' := by
    rw [hm]
    exact Natural.step
  have hstate : ∀ s post, t.state? b.header.parent = some s →
      t.validity.machine.run s b.body = .ok post →
      ∃ root, t.validity.machine.stateRoot post = .ok root := by
    intro s post hs hrun
    rw [hmachine] at hrun ⊢
    exact exists_stateRoot (Machine.run_keeps Natural.step
      (hgrown.state_keeps hstep hnatural hs) hrun)
  have hno : ¬(t.Reaches b → ∃ root, t.validity.machine.bodyRoot b.body = .ok root) := by
    intro hroot
    obtain ⟨r, hr⟩ := Tree.exists_insert (hmachine ▸ k.causesTold) hroot hstate
    simp [hr] at h
  obtain ⟨hreaches, hroot⟩ := Classical.not_imp.1 hno
  refine ⟨hreaches, ?_⟩
  cases hbody : t.validity.machine.bodyRoot b.body with
  | ok root => exact absurd ⟨root, hbody⟩ hroot
  | error reported =>
      have heq :=
        (hgrown.sound.insert_of_reaches (hmachine ▸ k.statesDefined) hreaches hbody).symm.trans h
      obtain rfl := Except.error.inj heq
      exact negative_of_bodyRoot (hmachine ▸ hbody)

theorem insert_of_negative (hgrown : Tree.Grown settings t) (hm : settings.machine = k.machine)
    (hreaches : t.Reaches b) {x : k.Extrinsic} {n : Int} (hx : x ∈ b.body) (hn : n ∈ k.amounts x)
    (hneg : n < 0) : ∃ fault, t.insert b = .error fault := by
  have hmachine : t.validity.machine = k.machine := hgrown.sound.machine_eq.trans hm
  obtain ⟨fault, hbody⟩ := bodyRoot_of_negative hx hn hneg
  rw [← hmachine] at hbody
  exact ⟨fault, hgrown.sound.insert_of_reaches (hmachine ▸ k.statesDefined) hreaches hbody⟩

end Genesis.Kind

theorem insert_faults_iff_negative_amount {j : Json} {g : Genesis}
    (hg : Genesis.parse j = .ok g)
    (settings : Settings g.founding.kind.State g.founding.kind.Extrinsic g.founding.kind.Cause)
    (hm : settings.machine = g.founding.kind.machine)
    (hs : settings.genesisState = g.founding.state) :
    ∃ t₀, Tree.found settings = .ok t₀ ∧
      ∀ calls t, t = ((Session.start t₀).run calls).tree → ∀ b,
        ((∃ fault, t.insert b = .error fault) ↔
          t.Reaches b ∧ ∃ x ∈ b.body, ∃ n ∈ g.founding.kind.amounts x, n < 0) ∧
        ∀ fault, t.insert b = .error fault →
          ∃ x ∈ b.body, ∃ n ∈ g.founding.kind.amounts x, n < 0 ∧ fault = .negativeInteger n := by
  have hnatural : g.founding.kind.Natural settings.genesisState :=
    hs ▸ Genesis.natural_of_parse hg
  obtain ⟨root, hroot⟩ := Genesis.Kind.exists_stateRoot hnatural
  obtain ⟨t₀, hfound⟩ := Tree.exists_found (hm ▸ hroot)
  refine ⟨t₀, hfound, ?_⟩
  rintro calls t rfl b
  have hgrown := Session.grown_run hfound calls
  refine ⟨⟨?_, ?_⟩, fun fault h => (Genesis.Kind.negative_of_insert hgrown hm hnatural h).2⟩
  · rintro ⟨fault, h⟩
    obtain ⟨hreaches, x, hx, n, hn, hneg, _⟩ :=
      Genesis.Kind.negative_of_insert hgrown hm hnatural h
    exact ⟨hreaches, x, hx, n, hn, hneg⟩
  · rintro ⟨hreaches, x, hx, n, hn, hneg⟩
    exact Genesis.Kind.insert_of_negative hgrown hm hreaches hx hn hneg

namespace Sums

def document : Json :=
  .object [("machine", .text "sum-product"),
    ("state", .object [("sum", .text "0"), ("product", .text "1")])]

theorem parse_document : Genesis.parse document = .ok ⟨none, .sumProduct ⟨0, 1⟩⟩ := by
  rfl

def debt : Block Int :=
  ⟨opening.header, [-1]⟩

theorem reaches_debt {like : Settings SumProduct.State Int SumProduct.Failure} {b : Block Int} :
    (Tree.first like genesisId b).Reaches debt where
  wellFormed := opening_accepted.wellFormed
  fresh := ⟨openingId, ids.1, Tree.has_first like ..⟩
  height := ⟨0, congrArg (Option.map Entry.height) ((Tree.entry?_first like ..).trans (if_pos rfl)),
    rfl⟩

end Sums

theorem sums_insert_faults_iff_negative_amount :
    ∃ t₀, Tree.found Sums.plainSettings = .ok t₀ ∧ t₀.Reaches Sums.debt ∧
      (∃ fault, t₀.insert Sums.debt = .error fault) ∧ ∃ r, t₀.insert Sums.opening = .ok r := by
  obtain ⟨b, hfirst⟩ := Sums.found_like Sums.plainSettings rfl rfl
  obtain ⟨t₀, hfound, hfaults⟩ :=
    insert_faults_iff_negative_amount Sums.parse_document Sums.plainSettings rfl rfl
  obtain rfl := Except.ok.inj (hfirst.symm.trans hfound)
  refine ⟨_, hfound, Sums.reaches_debt, ?_, ?_⟩
  · exact (hfaults [] _ rfl Sums.debt).1.2 ⟨Sums.reaches_debt, (-1 : Int), .head _, (-1 : Int), .head _, by decide⟩
  · cases hr : (Tree.first Sums.plainSettings Sums.genesisId b).insert Sums.opening with
    | ok r => exact ⟨r, rfl⟩
    | error fault =>
        obtain ⟨_, x, hx, n, hn, hneg⟩ := (hfaults [] _ rfl Sums.opening).1.1 ⟨fault, hr⟩
        obtain rfl : x = (3 : Int) := List.mem_singleton.1 hx
        obtain rfl : n = 3 := List.mem_singleton.1 hn
        exact absurd hneg (by decide)

theorem debt_stops_insertion :
    ∃ t₀, Genesis.parse Sums.document = .ok ⟨none, .sumProduct ⟨0, 1⟩⟩ ∧
      Tree.found Sums.plainSettings = .ok t₀ ∧
      t₀.insert Sums.debt = .error (.negativeInteger (-1)) := by
  obtain ⟨b, hfound⟩ := Sums.found_like Sums.plainSettings rfl rfl
  exact ⟨_, Sums.parse_document, hfound,
    (Tree.sound_of_found hfound).insert_of_reaches (Genesis.Kind.statesDefined .sumProduct)
      Sums.reaches_debt rfl⟩

end BlockTree
