import BlockTree.Machines.SumProduct
import BlockTree.Proofs.Ancestry
import BlockTree.Proofs.Runs

namespace BlockTree

namespace Tree

variable {S T E : Type} {settings : Settings S T E} {t : Tree S T E}

def bodies (es : List (Entry T)) : List T :=
  es.reverse.flatMap fun e => e.block.body

theorem bodies_cons (e : Entry T) (es : List (Entry T)) :
    bodies (e :: es) = bodies es ++ e.block.body := by
  simp [bodies]

theorem genesisBlock_body {m : Machine S T E} {s : S} {b : Block T}
    (h : m.genesisBlock s = .ok b) : b.body = [] := by
  obtain ⟨_, _, _, _, rfl⟩ := Machine.genesisBlock_eq_ok_iff.1 h
  rfl

theorem Lineage.replay (hs : Sound settings t) {id : String} {es : List (Entry T)} {post : S}
    (h : t.Lineage id es) (hpost : t.state? id = some post) :
    settings.machine.run settings.genesisState (bodies es) = .ok post := by
  induction h generalizing post with
  | @first id e he hp =>
      rcases hs.rests he hpost with ⟨_, hf⟩ | hr
      · simp [bodies, genesisBlock_body hf.genesis, hf.state_eq]
      · simp [hr.parent_eq] at hp
  | @next id parent e es he hp hes ih =>
      rcases hs.rests he hpost with ⟨_, hf⟩ | hr
      · simp [hf.parent_eq] at hp
      · obtain ⟨ctx, hctx, haccepts⟩ := hr.accepted
        obtain ⟨p, pre, _, hpre, rfl⟩ := exists_of_parentContext? hctx
        obtain rfl : e.block.header.parent = parent := by simpa [hr.parent_eq] using hp
        rw [bodies_cons]
        have hrun := haccepts.run
        rw [hs.validity] at hrun
        exact Machine.run_append_eq_ok_iff.2 ⟨pre, ih hpre, hrun⟩

structure Checked (settings : Settings S T E) (t : Tree S T E) (id : String) (e parent : Entry T)
    (pre post : S) : Prop where
  entry_id : e.id = id
  id_eq : e.block.header.id = .ok id
  wellFormed : e.block.header.malformedField? = none
  parent_id : e.parent = some e.block.header.parent
  parent_entry : t.entry? e.block.header.parent = some parent
  height_eq : e.height = e.block.header.height
  height_succ : e.block.header.height = parent.height + 1
  bodyRoot : settings.machine.bodyRoot e.block.body = .ok e.block.header.extrinsicsRoot
  digest : Hex.toNat id ≤ settings.difficulty.threshold
  pre_eq : t.state? e.block.header.parent = some pre
  post_eq : t.state? id = some post
  run : settings.machine.run pre e.block.body = .ok post
  stateRoot : settings.machine.stateRoot post = .ok e.block.header.stateRoot
  rules : ∀ r ∈ settings.rules, r.check e.block.header post = true

theorem Sound.checked (hs : Sound settings t) {id : String} {e : Entry T}
    (he : t.entry? id = some e) (hne : id ≠ t.genesisId) :
    ∃ parent pre post, Checked settings t id e parent pre post := by
  obtain ⟨post, hpost⟩ := hs.exists_state he
  rcases hs.rests he hpost with ⟨hid, _⟩ | hr
  · exact absurd hid hne
  obtain ⟨ctx, hctx, haccepts⟩ := hr.accepted
  obtain ⟨parent, pre, hparent, hpre, rfl⟩ := exists_of_parentContext? hctx
  obtain ⟨id', hid', hadmits⟩ := haccepts.digest
  obtain rfl : id' = id := Except.ok.inj (hid'.symm.trans hr.id_eq)
  rw [hs.validity] at haccepts hadmits
  exact ⟨parent, pre, post, Entry.id_of_find? he, hr.id_eq, haccepts.wellFormed, hr.parent_eq,
    hparent, hr.height_eq, haccepts.height, haccepts.bodyRoot, of_decide_eq_true hadmits, hpre,
    hpost, haccepts.run, haccepts.stateRoot, haccepts.rules⟩

theorem Grown.replayed (h : Grown settings t) {id : String} (hid : t.has id = true) :
    ∃ es post, t.Lineage id es ∧ t.state? id = some post ∧
      settings.machine.run settings.genesisState (bodies es) = .ok post := by
  obtain ⟨post, hpost⟩ := Option.isSome_iff_exists.1 ((h.sound.stored id).trans hid)
  have hline := h.lineage_path hid
  exact ⟨_, post, hline, hpost, hline.replay h.sound hpost⟩

theorem Grown.state_keeps (h : Grown settings t) {P : S → Prop}
    (hstep : ∀ {s s' x}, P s → settings.machine.step s x = .ok s' → P s')
    (hgenesis : P settings.genesisState) {id : String} {s : S} (hs : t.state? id = some s) :
    P s := by
  have hid : t.has id = true := (h.sound.stored id).symm.trans (Option.isSome_iff_exists.2 ⟨s, hs⟩)
  obtain ⟨_, post, _, hpost, hrun⟩ := h.replayed hid
  rw [hs, Option.some.injEq] at hpost
  exact Machine.run_keeps hstep hgenesis (hpost ▸ hrun)

end Tree

theorem admitted_blocks_checked_and_replayed {S T E : Type} (settings : Settings S T E)
    {t₀ t : Tree S T E} (hfound : Tree.found settings = .ok t₀) (calls : List (Call S T))
    (ht : t = ((Session.start t₀).run calls).tree) :
    (∀ id e, t.entry? id = some e → id ≠ t.genesisId →
      ∃ parent pre post, Tree.Checked settings t id e parent pre post) ∧
    (∀ id, t.has id = true → ∃ es post, t.Lineage id es ∧ t.state? id = some post ∧
      settings.machine.run settings.genesisState (Tree.bodies es) = .ok post) := by
  subst ht
  have hgrown := Session.grown_run hfound calls
  exact ⟨fun id e he hne => hgrown.sound.checked he hne, fun id hid => hgrown.replayed hid⟩

namespace Sums

def settings : Settings SumProduct.State Int SumProduct.Failure where
  machine := SumProduct.machine
  difficulty := .zero
  genesisState := ⟨0, 1⟩
  rules := [.parityFrom 2 .even SumProduct.State.sum]

def genesisId : String :=
  "0x95d85c1b804af301b9d9fdae1d2594b8e92d47047ac4c9bc4df3868781c8e177"

def openingId : String :=
  "0xecf7306a67f4f1592f2ff962ca5adb5af5412eee8289e9d9d3c52a43f28d27d3"

def secondId : String :=
  "0x1b0e39c2af0ddb3cfb2aa2559b1f431ee90a140c4a1f77c8acdd02186e19faeb"

def opening : Block Int where
  header :=
    { parent := genesisId
      height := 1
      extrinsicsRoot := "0xa45ecd0647fb3cfe32e2e29be9bb0def445456cb37828659b35c65e99008ca71"
      stateRoot := "0x1e4e327d9e61b3ca3d2e0cdf8892d8f027880b9fa793768bb31b79335bf93338"
      nonce := 0 }
  body := [3]

def second : Block Int where
  header :=
    { parent := openingId
      height := 2
      extrinsicsRoot := "0x04477d541bbc0d54e5c4518dcba859ef9f648fb5c4ef2f315a97463392ae9954"
      stateRoot := "0xa1289e106a9a16943f3b4ebdbd13ecb8812161168a4acb5739725ab7b0046ff9"
      nonce := 0 }
  body := [5]

def falling : ForkChoice where
  name := "rule"
  weight _ h _ := -h.height

def flat : ForkChoice where
  name := "rule"
  weight _ _ _ := 0

def calls : List (Call SumProduct.State Int) :=
  [.handIn falling, .handIn flat, .insert second, .insert opening,
    .weight (.handedIn 0) openingId, .insert second]

theorem digests :
    (opening.header.id.toOption = some openingId ∧ second.header.id.toOption = some secondId) ∧
    ((settings.machine.bodyRoot opening.body).toOption = some opening.header.extrinsicsRoot ∧
      (settings.machine.stateRoot ⟨3, 3⟩).toOption = some opening.header.stateRoot) ∧
    ((settings.machine.bodyRoot second.body).toOption = some second.header.extrinsicsRoot ∧
      (settings.machine.stateRoot ⟨8, 15⟩).toOption = some second.header.stateRoot) ∧
    (Tree.found settings).toOption.map Tree.genesisId = some genesisId := by
  decide +kernel

theorem ids : opening.header.id = .ok openingId ∧ second.header.id = .ok secondId :=
  ⟨eq_ok_of_toOption digests.1.1, eq_ok_of_toOption digests.1.2⟩

theorem opening_accepted :
    settings.toValidity.Accepts ⟨genesisId, 0, ⟨0, 1⟩⟩ opening ⟨3, 3⟩ where
  wellFormed := by decide
  linked := rfl
  height := rfl
  bodyRoot := eq_ok_of_toOption digests.2.1.1
  digest := ⟨openingId, ids.1, by decide⟩
  run := rfl
  stateRoot := eq_ok_of_toOption digests.2.1.2
  rules := by decide

theorem second_accepted :
    settings.toValidity.Accepts ⟨openingId, 1, ⟨3, 3⟩⟩ second ⟨8, 15⟩ where
  wellFormed := by decide
  linked := rfl
  height := rfl
  bodyRoot := eq_ok_of_toOption digests.2.2.1.1
  digest := ⟨secondId, ids.2, by decide⟩
  run := rfl
  stateRoot := eq_ok_of_toOption digests.2.2.1.2
  rules := by decide

theorem found_first : ∃ b, Tree.found settings = .ok (Tree.first settings genesisId b) := by
  obtain ⟨t, ht, hid⟩ := Option.map_eq_some_iff.1 digests.2.2.2
  have hfound := eq_ok_of_toOption ht
  obtain ⟨b, id, _, _, rfl⟩ := Tree.found_eq_ok_iff.1 hfound
  obtain rfl : id = genesisId := hid
  exact ⟨b, hfound⟩

theorem found_like (like : Settings SumProduct.State Int SumProduct.Failure)
    (hm : like.machine = settings.machine) (hs : like.genesisState = settings.genesisState) :
    ∃ b, Tree.found like = .ok (Tree.first like genesisId b) := by
  obtain ⟨_, hfound⟩ := found_first
  obtain ⟨b, x, hb, hx, hfirst⟩ := Tree.found_eq_ok_iff.1 hfound
  obtain rfl : x = genesisId := congrArg Tree.genesisId hfirst
  rw [← hm, ← hs] at hb
  exact ⟨b, Tree.found_eq_ok_iff.2 ⟨b, _, hb, hx, rfl⟩⟩

theorem opening_admits (b : Block Int) :
    (Tree.first settings genesisId b).Admits openingId opening ⟨3, 3⟩ :=
  ⟨ids.1, Tree.has_first .., _, Tree.parentContext?_first rfl .., opening_accepted⟩

theorem second_admits (b : Block Int) :
    ((Tree.first settings genesisId b).commit openingId opening ⟨3, 3⟩).tree.Admits
      secondId second ⟨8, 15⟩ := by
  refine ⟨ids.2, ?_, _, Tree.parentContext?_commit_self rfl .., second_accepted⟩
  rw [Tree.has_commit_of_ne _ _ (by decide)]
  exact Tree.has_first ..

theorem second_orphaned (like : Settings SumProduct.State Int SumProduct.Failure)
    (b : Block Int) : ∃ log, (Tree.first like genesisId b).insert second =
      .ok ⟨Tree.first like genesisId b, .error (.unknownParent openingId), log⟩ := by
  have hfresh : (Tree.first like genesisId b).has secondId = false := Tree.has_first ..
  have hparent : Tree.entry? (Tree.first like genesisId b) second.header.parent = none :=
    Tree.has_eq_false_iff.1 (Tree.has_first ..)
  refine ⟨_, Tree.insert_orphan second_accepted.wellFormed ids.2 hfresh ?_⟩
  rw [Tree.parentContext?, hparent]

theorem run_calls :
    ∃ t₀, Tree.found settings = .ok t₀ ∧ ((Session.start t₀).run calls).tree.size = 3 ∧
      ((Session.start t₀).run calls).tree.has secondId = true := by
  obtain ⟨b, hfound⟩ := found_first
  obtain ⟨log, horphaned⟩ := second_orphaned settings b
  have hopening := Tree.insert_of_admits (opening_admits b)
  have hsecond := Tree.insert_of_admits (second_admits b)
  have hsize : (Tree.first settings genesisId b).size = 1 := rfl
  generalize Tree.first settings genesisId b = t at *
  have hrun : ((Session.start t).run calls).tree =
      ((t.commit openingId opening ⟨3, 3⟩).tree.commit secondId second ⟨8, 15⟩).tree := by
    have hstart : ((Session.start t).step (.handIn falling)).step (.handIn flat) =
        ⟨t, [.start falling, .start flat]⟩ := rfl
    rw [calls, Session.run_cons, Session.run_cons, hstart, Session.run_cons,
      Session.step_insert (s := ⟨t, _⟩) horphaned, Session.run_cons,
      Session.step_insert (s := ⟨t, _⟩) hopening, Session.run_cons, Session.run_cons,
      Session.run_nil, Session.step_insert]
    rw [Session.tree_step_weight]
    exact hsecond
  refine ⟨_, hfound, ?_, ?_⟩
  · rw [hrun, Tree.size_commit, Tree.size_commit, hsize]
  · rw [hrun, Tree.has, Tree.entry?_commit, if_pos rfl, Option.isSome_some]

end Sums

theorem sums_checked_and_replayed :
    ∃ t₀ t, Tree.found Sums.settings = .ok t₀ ∧ t = ((Session.start t₀).run Sums.calls).tree ∧
      t.size = 3 ∧
      (∀ id e, t.entry? id = some e → id ≠ t.genesisId →
        ∃ parent pre post, Tree.Checked Sums.settings t id e parent pre post) ∧
      (∀ id, t.has id = true → ∃ es post, t.Lineage id es ∧ t.state? id = some post ∧
        SumProduct.machine.run ⟨0, 1⟩ (Tree.bodies es) = .ok post) := by
  obtain ⟨t₀, hfound, hsize, _⟩ := Sums.run_calls
  exact ⟨t₀, _, hfound, rfl, hsize,
    admitted_blocks_checked_and_replayed Sums.settings hfound Sums.calls rfl⟩

end BlockTree
