import BlockTree.Proofs.ArrivalOrder

namespace BlockTree

variable {S T E : Type}

def Settings.withRules (settings : Settings S T E) (rules : List (ChainRule S)) :
    Settings S T E :=
  { settings with rules }

namespace Validity

variable {v : Validity S T E} {p : ParentContext S} {b : Block T} {post : S}

theorem Accepts.reruled {rules : List (ChainRule S)} (h : v.Accepts p b post)
    (hrules : ∀ r ∈ rules, r.check b.header post = true) :
    ({ v with rules } : Validity S T E).Accepts p b post :=
  ⟨h.wellFormed, h.linked, h.height, h.bodyRoot, h.digest, h.run, h.stateRoot, hrules⟩

theorem Accepts.unruled (h : v.Accepts p b post) : v.unruled.Accepts p b post :=
  h.reruled fun _ hr => nomatch hr

theorem Accepts.ruled (h : v.unruled.Accepts p b post)
    (hrules : ∀ r ∈ v.rules, r.check b.header post = true) : v.Accepts p b post :=
  h.reruled hrules

end Validity

namespace ChainRule

theorem parityFrom_below {height : Int} {parity : Parity} {read : S → Int} {h : Header} (s : S)
    (hlt : h.height < height) : (parityFrom height parity read).check h s = true := by
  simp [parityFrom, hlt]

theorem parityFrom_from {height : Int} {parity : Parity} {read : S → Int} {h : Header} {s : S}
    (hle : height ≤ h.height) :
    (parityFrom height parity read).check h s = parity.holds (read s) := by
  simp [parityFrom, Int.not_lt.2 hle]

theorem not_both_parities {height : Int} {read : S → Int} {h : Header} {s : S}
    (hle : height ≤ h.height) (heven : (parityFrom height .even read).check h s = true) :
    ¬(parityFrom height .odd read).check h s = true := by
  rw [parityFrom_from hle] at heven ⊢
  simpa [Parity.holds] using heven

end ChainRule

namespace Tree

variable {A B : Settings S T E} {t u : Tree S T E} {v : Validity S T E} {first : Entry T}
  {s₀ : S} {F : List (Block T)}

theorem Placed.unruled {e : Entry T} {s : S} (h : Placed v first s₀ F e s) :
    Placed v.unruled first s₀ F e s := by
  induction h with
  | first => exact .first
  | next hb hid hne _ hpresent h ih => exact .next hb hid hne ih hpresent h.unruled

theorem Placed.checked {e : Entry T} {s : S} (h : Placed v first s₀ F e s)
    (hne : e.id ≠ first.id) :
    e.height = e.block.header.height ∧ ∀ r ∈ v.rules, r.check e.block.header s = true := by
  cases h with
  | first => exact absurd rfl hne
  | next _ _ _ _ _ h => exact ⟨rfl, h.rules⟩

theorem Fed.holds_run (hF : Block.Distinct F) (below : Int → Prop)
    (hdown : ∀ n, below (n + 1) → below n)
    (hacc : ∀ {p b post}, below b.header.height → A.toValidity.Accepts p b post →
      B.toValidity.Accepts p b post)
    {s s' : Session S T E} (h : Fed A first s₀ F s.tree) (h' : Fed B first s₀ F s'.tree)
    (hmachine : A.machine = B.machine)
    (hheld : ∀ {e st}, below e.height → s.tree.Holds e st → s'.tree.Holds e st)
    {xs : List (Block T)} (hxs : ∀ b ∈ xs, b ∈ F) {e : Entry T} {st : S} (he : below e.height)
    (hst : (s.run (xs.map .insert)).tree.Holds e st) :
    (s'.run (xs.map .insert)).tree.Holds e st := by
  induction xs generalizing s s' with
  | nil => exact hheld he hst
  | cons b xs ih =>
      have hb : b ∈ F := hxs b (by simp)
      refine ih (h.step hb) (h'.step hb) ?_ (fun c hc => hxs c (List.mem_cons_of_mem _ hc)) hst
      intro x sx hx hsx
      cases heldAfter_step h.grown.sound hsx with
      | old hold => exact (s'.stepped_step _).evolves.holds (hheld hx hold)
      | @new id p pre post hid fresh hp hpresent haccepts =>
          have hparent : below p.height := by
            apply hdown
            rw [← haccepts.height]
            exact hx
          exact h'.holds_insert hF hb hid (ne_of_fresh fresh h.root.1) (hheld hparent hp)
            (hmachine ▸ hpresent) (hacc hx haccepts)

theorem Lineage.entry?_of_mem {id : String} {es : List (Entry T)} (h : t.Lineage id es)
    {e : Entry T} (he : e ∈ es) : t.entry? e.id = some e := by
  induction h with
  | @first id f hf _ =>
      obtain rfl := List.mem_singleton.1 he
      have hid : e.id = id := Entry.id_of_find? hf
      rw [hid, hf]
  | @next id parent f es hf _ _ ih =>
      rcases List.mem_cons.1 he with rfl | he
      · have hid : e.id = id := Entry.id_of_find? hf
        rw [hid, hf]
      · exact ih he

structure Parted (height : Int) (t u : Tree S T E) : Prop where
  apart : ∀ id e, t.entry? id = some e → id ≠ t.genesisId → height ≤ e.height → u.has id = false
  cut : ∀ id e, t.entry? id = some e → id ≠ t.genesisId → height ≤ e.height →
    ∀ x es, u.Lineage x es → ∀ f ∈ es, f.id ≠ id

def AlikeBelow (height : Int) (t u : Tree S T E) : Prop :=
  ∀ e s, e.height < height → (t.Holds e s ↔ u.Holds e s)

theorem parted_of_apart {height : Int} (h : ∀ id e, t.entry? id = some e → id ≠ t.genesisId →
    height ≤ e.height → u.has id = false) : t.Parted height u := by
  refine ⟨h, ?_⟩
  rintro id e he hne hle x es hes f hf rfl
  have hhas := has_iff.2 ⟨f, hes.entry?_of_mem hf⟩
  rw [h f.id e he hne hle] at hhas
  cases hhas

theorem exists_fed_withRules {settings : Settings S T E} {R Q : List (ChainRule S)}
    (ht : found (settings.withRules R) = .ok t) (hu : found (settings.withRules Q) = .ok u) :
    ∃ first s₀, first.id = t.genesisId ∧
      ∀ F, Fed (settings.withRules R) first s₀ F t ∧ Fed (settings.withRules Q) first s₀ F u := by
  obtain ⟨b, id, hb, hid, rfl⟩ := found_eq_ok_iff.1 ht
  obtain ⟨b', id', hb', hid', rfl⟩ := found_eq_ok_iff.1 hu
  obtain rfl : b = b' := Except.ok.inj (hb.symm.trans hb')
  obtain rfl : id = id' := Except.ok.inj (hid.symm.trans hid')
  refine ⟨⟨id, b, none, 0⟩, settings.genesisState, rfl, ?_⟩
  intro F
  exact ⟨fed_first ht F, fed_first hu F⟩

theorem Fed.holds_iff_first {settings : Settings S T E} (h : Fed settings first s₀ [] t)
    {e : Entry T} {s : S} : t.Holds e s ↔ e = first ∧ s = s₀ := by
  constructor
  · intro hst
    cases h.placed hst with
    | first => exact ⟨rfl, rfl⟩
    | next hb _ _ _ _ _ => cases hb
  · rintro ⟨rfl, rfl⟩
    exact h.root

theorem holds_iff_of_found {settings : Settings S T E} {R Q : List (ChainRule S)}
    (ht : found (settings.withRules R) = .ok t) (hu : found (settings.withRules Q) = .ok u)
    {e : Entry T} {s : S} : t.Holds e s ↔ u.Holds e s := by
  obtain ⟨first, s₀, _, hfed⟩ := exists_fed_withRules ht hu
  rw [(hfed []).1.holds_iff_first, (hfed []).2.holds_iff_first]

end Tree

namespace Session

variable {settings : Settings S T E} {t u : Tree S T E} {F : List (Block T)} {height : Int}
  {R Q : List (ChainRule S)}

theorem parted_run (hRQ : ∀ h s, height ≤ h.height → (∀ r ∈ R, r.check h s = true) →
      ¬∀ r ∈ Q, r.check h s = true)
    (ht : Tree.found (settings.withRules R) = .ok t)
    (hu : Tree.found (settings.withRules Q) = .ok u) (hF : Block.Distinct F)
    {xs ys : List (Block T)} (hxs : ∀ b ∈ xs, b ∈ F) (hys : ∀ b ∈ ys, b ∈ F) :
    ((start t).run (xs.map .insert)).tree.Parted height
      ((start u).run (ys.map .insert)).tree := by
  obtain ⟨first, s₀, hfirst, hfed⟩ := Tree.exists_fed_withRules ht hu
  have hrun := Tree.Fed.run (s := start t) (hfed F).1 hxs
  have hrun' := Tree.Fed.run (s := start u) (hfed F).2 hys
  apply Tree.parted_of_apart
  intro id e he hne hle
  rw [run_genesisId] at hne
  cases hhas : ((start u).run (ys.map .insert)).tree.has id with
  | false => rfl
  | true =>
      have heid : e.id = id := Entry.id_of_find? he
      obtain ⟨e', he'⟩ := Tree.has_iff.1 hhas
      have heid' : e'.id = id := Entry.id_of_find? he'
      obtain ⟨s, hs⟩ := hrun.grown.sound.holds_of_entry? he
      obtain ⟨s', hs'⟩ := hrun'.grown.sound.holds_of_entry? he'
      -- without the rules both have a place in one and the same tree
      have hplaced := hrun.placed hs
      have hplaced' := hrun'.placed hs'
      have hplain : Tree.Placed settings.toValidity.unruled first s₀ F e s := hplaced.unruled
      have hplain' : Tree.Placed settings.toValidity.unruled first s₀ F e' s' := hplaced'.unruled
      obtain ⟨rfl, rfl⟩ := hplain.unique hF hplain' (heid.trans heid'.symm)
      have hnf : e.id ≠ first.id := by
        rw [heid, hfirst]
        exact hne
      obtain ⟨hheight, hR⟩ := hplaced.checked hnf
      rw [hheight] at hle
      exact absurd (hplaced'.checked hnf).2 (hRQ _ _ hle hR)

theorem alikeBelow_run (hR : ∀ r ∈ R, ∀ h s, h.height < height → r.check h s = true)
    (ht : Tree.found (settings.withRules R) = .ok t)
    (hu : Tree.found (settings.withRules []) = .ok u) (hF : Block.Distinct F)
    {xs : List (Block T)} (hxs : ∀ b ∈ xs, b ∈ F) :
    ((start t).run (xs.map .insert)).tree.AlikeBelow height
      ((start u).run (xs.map .insert)).tree := by
  obtain ⟨first, s₀, _, hfed⟩ := Tree.exists_fed_withRules ht hu
  have hfed₁ : Tree.Fed (settings.withRules R) first s₀ F (start t).tree := (hfed F).1
  have hfed₂ : Tree.Fed (settings.withRules []) first s₀ F (start u).tree := (hfed F).2
  have hdown : ∀ n : Int, n + 1 < height → n < height := by
    intro n hn
    omega
  have hsame : ∀ {e st}, t.Holds e st ↔ u.Holds e st := Tree.holds_iff_of_found ht hu
  intro e st he
  constructor
  · intro hst
    exact hfed₁.holds_run hF (· < height) hdown (fun _ hacc => hacc.unruled) hfed₂ rfl
      (fun _ => hsame.1) hxs he hst
  · intro hst
    refine hfed₂.holds_run hF (· < height) hdown ?_ hfed₁ rfl (fun _ => hsame.2) hxs he hst
    intro p b post hb hacc
    exact Validity.Accepts.ruled hacc fun r hr => hR r hr _ _ hb

end Session

theorem opposite_parities_partition (settings : Settings S T E) (height : Int) (read : S → Int)
    {even₀ odd₀ plain₀ : Tree S T E}
    (heven : Tree.found (settings.withRules [.parityFrom height .even read]) = .ok even₀)
    (hodd : Tree.found (settings.withRules [.parityFrom height .odd read]) = .ok odd₀)
    (hplain : Tree.found (settings.withRules []) = .ok plain₀) {F : List (Block T)}
    (hF : Block.Distinct F) {xs : List (Block T)} (hxs : ∀ b ∈ xs, b ∈ F) {t : Tree S T E}
    (ht : t = ((Session.start even₀).run (xs.map .insert)).tree) :
    (∀ ys : List (Block T), (∀ b ∈ ys, b ∈ F) → ∀ u,
      u = ((Session.start odd₀).run (ys.map .insert)).tree →
      t.Parted height u ∧ u.Parted height t) ∧
    ∀ u w, u = ((Session.start odd₀).run (xs.map .insert)).tree →
      w = ((Session.start plain₀).run (xs.map .insert)).tree →
      t.AlikeBelow height u ∧ t.AlikeBelow height w ∧ u.AlikeBelow height w := by
  subst ht
  refine ⟨?_, ?_⟩
  · rintro ys hys u rfl
    constructor
    · apply Session.parted_run ?_ heven hodd hF hxs hys
      intro h s hle hrule hrule'
      exact ChainRule.not_both_parities hle (hrule _ (.head _)) (hrule' _ (.head _))
    · apply Session.parted_run ?_ hodd heven hF hys hxs
      intro h s hle hrule hrule'
      exact ChainRule.not_both_parities hle (hrule' _ (.head _)) (hrule _ (.head _))
  · rintro u w rfl rfl
    have hbelow : ∀ p, ∀ r ∈ [ChainRule.parityFrom height p read], ∀ h s, h.height < height →
        r.check h s = true := by
      intro p r hr h s hlt
      obtain rfl := List.mem_singleton.1 hr
      exact ChainRule.parityFrom_below s hlt
    have htw := Session.alikeBelow_run (hbelow .even) heven hplain hF hxs
    have huw := Session.alikeBelow_run (hbelow .odd) hodd hplain hF hxs
    exact ⟨fun e s he => (htw e s he).trans (huw e s he).symm, htw, huw⟩

theorem Sums.run_opening_second (b : Block Int) :
    ((Session.start (Tree.first Sums.settings Sums.genesisId b)).run
        ([Sums.opening, Sums.second].map .insert)).tree =
      (((Tree.first Sums.settings Sums.genesisId b).commit Sums.openingId Sums.opening
        ⟨3, 3⟩).tree.commit Sums.secondId Sums.second ⟨8, 15⟩).tree := by
  have hopening := Tree.insert_of_admits (Sums.opening_admits b)
  have hsecond := Tree.insert_of_admits (Sums.second_admits b)
  rw [List.map_cons, List.map_singleton, Session.run_cons, Session.start_step_insert hopening,
    Session.run_cons, Session.start_step_insert hsecond]
  rfl

theorem sums_opposite_parities_partition :
    ∃ even₀ odd₀ plain₀ t u,
      Tree.found (Sums.settings.withRules [.parityFrom 2 .even SumProduct.State.sum]) = .ok even₀ ∧
      Tree.found (Sums.settings.withRules [.parityFrom 2 .odd SumProduct.State.sum]) = .ok odd₀ ∧
      Tree.found (Sums.settings.withRules []) = .ok plain₀ ∧
      Block.Distinct [Sums.opening, Sums.second] ∧
      t = ((Session.start even₀).run ([Sums.opening, Sums.second].map .insert)).tree ∧
      u = ((Session.start odd₀).run ([Sums.opening, Sums.second].map .insert)).tree ∧
      t.height? Sums.secondId = some 2 ∧ t.Parted 2 u ∧ u.has Sums.secondId = false ∧
      t.AlikeBelow 2 u ∧ u.state? Sums.openingId = some ⟨3, 3⟩ := by
  obtain ⟨b, heven⟩ := Sums.found_first
  obtain ⟨_, hodd⟩ := Sums.found_like
    (Sums.settings.withRules [.parityFrom 2 .odd SumProduct.State.sum]) rfl rfl
  obtain ⟨_, hplain⟩ := Sums.found_like (Sums.settings.withRules []) rfl rfl
  have hself : ∀ b ∈ [Sums.opening, Sums.second], b ∈ [Sums.opening, Sums.second] :=
    fun _ hb => hb
  obtain ⟨hparted, halike⟩ := opposite_parities_partition Sums.settings 2 SumProduct.State.sum
    heven hodd hplain Sums.distinct hself rfl
  obtain ⟨hapart, _⟩ := hparted _ hself _ rfl
  obtain ⟨hbelow, _⟩ := halike _ _ rfl rfl
  have hsecond : Tree.entry? (((Tree.first Sums.settings Sums.genesisId b).commit Sums.openingId
      Sums.opening ⟨3, 3⟩).tree.commit Sums.secondId Sums.second ⟨8, 15⟩).tree Sums.secondId =
      some ⟨Sums.secondId, Sums.second, some Sums.openingId, 2⟩ :=
    (Tree.entry?_commit ..).trans (if_pos rfl)
  have hopening : (((Tree.first Sums.settings Sums.genesisId b).commit Sums.openingId
      Sums.opening ⟨3, 3⟩).tree.commit Sums.secondId Sums.second ⟨8, 15⟩).tree.Holds
      ⟨Sums.openingId, Sums.opening, some Sums.genesisId, 1⟩ ⟨3, 3⟩ := by
    apply (Tree.insert_evolves (Tree.insert_of_admits (Sums.second_admits b))).holds
    exact ⟨(Tree.entry?_commit ..).trans (if_pos rfl), (Tree.state?_commit ..).trans (if_pos rfl)⟩
  rw [← Sums.run_opening_second] at hsecond hopening
  refine ⟨_, _, _, _, _, heven, hodd, hplain, Sums.distinct, rfl, rfl, ?_, hapart, ?_, hbelow, ?_⟩
  · rw [Tree.height?, hsecond, Option.map_some]
  · apply hapart.apart _ _ hsecond ?_ (by decide)
    rw [Session.run_genesisId]
    exact (by decide : Sums.secondId ≠ Sums.genesisId)
  · exact ((hbelow _ _ (by decide)).1 hopening).2

end BlockTree
