import BlockTree.Proofs.Reanchoring
import BlockTree.Proofs.RuleSets

namespace BlockTree

variable {S T E : Type}

namespace Validity

variable {settings : Settings S T E} {R R' : List (ChainRule S)} {p q : ParentContext S}
  {b : Block T} {xs : List (Block T)} {s post : S}

theorem Accepts.weaken (hR : R ⊆ R') (h : (settings.withRules R').Accepts p b post) :
    (settings.withRules R).Accepts p b post :=
  h.reruled fun r hr => h.rules r (hR hr)

theorem Extends.weaken (hR : R ⊆ R') (h : (settings.withRules R').Extends p xs q) :
    (settings.withRules R).Extends p xs q := by
  induction h with
  | nil p => exact .nil p
  | cons hb hid _ ih => exact .cons (Accepts.weaken hR hb) hid ih

theorem verifySubChain_weaken (hR : R ⊆ R') {a : Block T}
    (h : (settings.withRules R').verifySubChain a s xs = .ok (.ok post)) :
    (settings.withRules R).verifySubChain a s xs = .ok (.ok post) := by
  obtain ⟨p, q, ha, hs, hextends, hpost⟩ := verifySubChain_eq_ok_iff.1 h
  exact verifySubChain_eq_ok_iff.2
    ⟨p, q, ⟨ha.id_eq, ha.height_eq, ha.stateRoot⟩, hs, hextends.weaken hR, hpost⟩

end Validity

namespace Tree

variable {t u : Tree S T E}

structure Shares (t u : Tree S T E) (id : String) : Prop where
  has : u.has id = true
  height : u.height? id = t.height? id
  state : u.state? id = t.state? id
  ancestors : u.ancestors id = t.ancestors id

theorem shares_of_holds {A B : Settings S T E} (ht : Grown A t) (hu : Grown B u)
    (h : ∀ e s, t.Holds e s → u.Holds e s) {id : String} (hid : t.has id = true) :
    t.Shares u id := by
  have hentry : ∀ x e, t.entry? x = some e → u.entry? x = some e := by
    intro x e he
    obtain ⟨s, hs⟩ := ht.sound.holds_of_entry? he
    exact (Entry.id_of_find? he : e.id = x) ▸ (h e s hs).1
  obtain ⟨e, he⟩ := has_iff.1 hid
  obtain ⟨s, hs⟩ := ht.sound.holds_of_entry? he
  obtain rfl : e.id = id := Entry.id_of_find? he
  have hue := hentry e.id e he
  have hline := (ht.lineage_path hid).mono hentry
  exact {
    has := has_iff.2 ⟨e, hue⟩
    height := by rw [height?, height?, he, hue]
    state := by rw [(h e s hs).2, hs.2]
    ancestors := by
      rw [ancestors, ancestors, hline.unique (hu.lineage_path (has_iff.2 ⟨e, hue⟩))] }

end Tree

theorem Session.shares_run {settings : Settings S T E} {R R' : List (ChainRule S)}
    (hR : R ⊆ R') {t u : Tree S T E}
    (ht : Tree.found (settings.withRules R') = .ok t)
    (hu : Tree.found (settings.withRules R) = .ok u) {F : List (Block T)} (hF : Block.Distinct F)
    {xs : List (Block T)} (hxs : ∀ b ∈ xs, b ∈ F) {id : String}
    (hid : ((start t).run (xs.map .insert)).tree.has id = true) :
    ((start t).run (xs.map .insert)).tree.Shares ((start u).run (xs.map .insert)).tree id := by
  obtain ⟨first, s₀, _, hfed⟩ := Tree.exists_fed_withRules ht hu
  have hfed₁ : Tree.Fed (settings.withRules R') first s₀ F (start t).tree := (hfed F).1
  have hfed₂ : Tree.Fed (settings.withRules R) first s₀ F (start u).tree := (hfed F).2
  refine Tree.shares_of_holds (grown_run ht _) (grown_run hu _) (fun e s hs => ?_) hid
  exact hfed₁.holds_run hF (fun _ => True) (fun _ _ => trivial)
    (fun _ hb => Validity.Accepts.weaken hR hb) hfed₂ rfl
    (fun _ => (Tree.holds_iff_of_found ht hu).1) hxs trivial hs

theorem stricter_rules_only_remove_blocks (settings : Settings S T E)
    {R R' : List (ChainRule S)} (hR : R ⊆ R') :
    (∀ t₀ u₀ : Tree S T E, Tree.found (settings.withRules R') = .ok t₀ →
      Tree.found (settings.withRules R) = .ok u₀ → ∀ F : List (Block T), Block.Distinct F →
      ∀ xs : List (Block T), (∀ b ∈ xs, b ∈ F) → ∀ t u,
        t = ((Session.start t₀).run (xs.map .insert)).tree →
        u = ((Session.start u₀).run (xs.map .insert)).tree →
          ∀ id, t.has id = true → t.Shares u id) ∧
    ∀ (anchor : Block T) (s : S) (xs : List (Block T)) (post : S),
      (settings.withRules R').verifySubChain anchor s xs = .ok (.ok post) →
        (settings.withRules R).verifySubChain anchor s xs = .ok (.ok post) := by
  refine ⟨?_, ?_⟩
  · rintro t₀ u₀ ht hu F hF xs hxs t u rfl rfl id hid
    exact Session.shares_run hR ht hu hF hxs hid
  · intro anchor s xs post h
    exact Validity.verifySubChain_weaken hR h

namespace Sums

def odd : ChainRule SumProduct.State :=
  .parityFrom 2 .odd SumProduct.State.sum

def stricter : Settings SumProduct.State Int SumProduct.Failure :=
  settings.withRules (odd :: settings.rules)

theorem opening_accepted_stricter :
    stricter.toValidity.Accepts ⟨genesisId, 0, ⟨0, 1⟩⟩ opening ⟨3, 3⟩ :=
  { opening_accepted with rules := by decide }

def stricterTree (b : Block Int) : Tree SumProduct.State Int SumProduct.Failure :=
  ((Tree.first stricter genesisId b).commit openingId opening ⟨3, 3⟩).tree

theorem insert_opening_stricter (b : Block Int) : (Tree.first stricter genesisId b).insert opening =
    .ok ((Tree.first stricter genesisId b).commit openingId opening ⟨3, 3⟩) :=
  Tree.insert_of_admits
    ⟨ids.1, Tree.has_first .., _, Tree.parentContext?_first rfl .., opening_accepted_stricter⟩

theorem has_second_stricterTree (b : Block Int) : (stricterTree b).has secondId = false := by
  rw [stricterTree, Tree.has_commit_of_ne _ _ (by decide)]
  exact Tree.has_first ..

theorem check_second_stricter : stricter.check (some ⟨openingId, 1, ⟨3, 3⟩⟩) second =
    .ok (.error (.ruleViolation odd.name)) := by
  have hplain : stricter.unruled.Accepts ⟨openingId, 1, ⟨3, 3⟩⟩ second ⟨8, 15⟩ :=
    { second_accepted with rules := fun _ hr => nomatch hr }
  have hrules : stricter.rules = [] ++ odd :: settings.rules := rfl
  rw [Validity.check_of_unruled hplain,
    Validity.brokenRule?_of_first hrules (by simp) (by decide)]

theorem insert_second_stricter (b : Block Int) : ∃ log, (stricterTree b).insert second =
    .ok ⟨stricterTree b, .error (.ruleViolation odd.name), log⟩ := by
  have hparent : (stricterTree b).parentContext? second.header.parent =
      some ⟨openingId, 1, ⟨3, 3⟩⟩ := Tree.parentContext?_commit_self rfl ..
  have hvalidity : (stricterTree b).validity = stricter.toValidity := rfl
  rw [Tree.insert_fresh second_accepted.wellFormed ids.2 (has_second_stricterTree b), hparent,
    hvalidity, check_second_stricter]
  exact ⟨_, rfl⟩

theorem run_stricter (b : Block Int) :
    ((Session.start (Tree.first stricter genesisId b)).run
      ([opening, second].map .insert)).tree = stricterTree b := by
  obtain ⟨log, hsecond⟩ := insert_second_stricter b
  have hopening : (Session.start (Tree.first stricter genesisId b)).step (.insert opening) =
      Session.start (stricterTree b) := Session.start_step_insert (insert_opening_stricter b)
  rw [List.map_cons, List.map_singleton, Session.run_cons, hopening, Session.run_cons,
    Session.start_step_insert hsecond, Session.run_nil]
  rfl

end Sums

theorem sums_stricter_rules_only_remove_blocks :
    Sums.settings.rules ⊆ Sums.odd :: Sums.settings.rules ∧
    ∃ t₀ u₀ t u, Tree.found Sums.stricter = .ok t₀ ∧ Tree.found Sums.settings = .ok u₀ ∧
      Block.Distinct [Sums.opening, Sums.second] ∧
      t = ((Session.start t₀).run ([Sums.opening, Sums.second].map .insert)).tree ∧
      u = ((Session.start u₀).run ([Sums.opening, Sums.second].map .insert)).tree ∧
      t.has Sums.openingId = true ∧ t.Shares u Sums.openingId ∧
      t.has Sums.secondId = false ∧ u.has Sums.secondId = true ∧
      ∃ g, Sums.stricter.verifySubChain g ⟨0, 1⟩ [Sums.opening] = .ok (.ok ⟨3, 3⟩) ∧
        Sums.settings.verifySubChain g ⟨0, 1⟩ [Sums.opening] = .ok (.ok ⟨3, 3⟩) := by
  obtain ⟨b, hfound⟩ := Sums.found_first
  obtain ⟨c, hstricter⟩ := Sums.found_like Sums.stricter rfl rfl
  have hR : Sums.settings.rules ⊆ Sums.odd :: Sums.settings.rules := List.subset_cons_self ..
  have hsame : Sums.settings.withRules Sums.settings.rules = Sums.settings := rfl
  have hmore : Sums.settings.withRules (Sums.odd :: Sums.settings.rules) = Sums.stricter := rfl
  obtain ⟨hshares, hverify⟩ := stricter_rules_only_remove_blocks Sums.settings hR
  rw [hsame, hmore] at hshares hverify
  have hopening : (Sums.stricterTree c).has Sums.openingId = true :=
    Tree.has_iff.2 ⟨_, (Tree.entry?_commit ..).trans (if_pos rfl)⟩
  have hsecond : Tree.has (((Tree.first Sums.settings Sums.genesisId b).commit Sums.openingId
      Sums.opening ⟨3, 3⟩).tree.commit Sums.secondId Sums.second ⟨8, 15⟩).tree Sums.secondId =
      true :=
    Tree.has_iff.2 ⟨_, (Tree.entry?_commit ..).trans (if_pos rfl)⟩
  obtain ⟨g, ha⟩ := Sums.exists_anchor
  have hanchor : Sums.stricter.Anchors g ⟨Sums.genesisId, 0, ⟨0, 1⟩⟩ :=
    ⟨ha.id_eq, ha.height_eq, ha.stateRoot⟩
  have hpassed := (hanchor.verifySubChain_eq [Sums.opening]).trans
    (Validity.Extends.verifyFrom_eq (.cons Sums.opening_accepted_stricter Sums.ids.1 (.nil _)) 0)
  exact ⟨hR, _, _, _, _, hstricter, hfound, Sums.distinct, (Sums.run_stricter c).symm,
    (Sums.run_opening_second b).symm, hopening,
    hshares _ _ hstricter hfound _ Sums.distinct _ (fun _ hb => hb) _ _ (Sums.run_stricter c).symm
      (Sums.run_opening_second b).symm _ hopening,
    Sums.has_second_stricterTree c, hsecond, g, hpassed, hverify _ _ _ _ hpassed⟩

end BlockTree
