import BlockTree.Proofs.Replay

namespace BlockTree

namespace Tree

variable {S T E : Type} {settings : Settings S T E} {t u : Tree S T E}

theorem weight?_of_lineage (h : Grown settings t) (rule : ForkChoice) {id : String}
    {es : List (Entry T)} (hes : t.Lineage id es) :
    t.weight? rule id = some (Entry.pathWeight rule t.difficulty es) := by
  rw [weight?, if_pos hes.has, (h.lineage_path hes.has).unique hes]

theorem weight?_graft {id x : String} (b : Block T) (post : S) (hne : id ≠ x) (rule : ForkChoice) :
    (t.graft id b post).weight? rule x = t.weight? rule x := by
  rw [weight?, weight?, has_graft_of_ne b post hne, path_graft b post hne]
  rfl

theorem weight?_eq_none_iff {rule : ForkChoice} {id : String} :
    t.weight? rule id = none ↔ t.has id = false := by
  unfold weight?
  split <;> simp_all

theorem has_of_weight? {rule : ForkChoice} {id : String} {sum : Int}
    (h : t.weight? rule id = some sum) : t.has id = true := by
  cases hno : t.has id with
  | true => rfl
  | false =>
      rw [weight?_eq_none_iff.2 hno] at h
      simp at h

theorem Evolves.weight? (h : t.Evolves u) (rule : ForkChoice) {id : String}
    (hid : t.has id = true) : u.weight? rule id = t.weight? rule id := by
  cases h with
  | same tally head => rfl
  | @grown x b post h tally head =>
      obtain ⟨e, he⟩ := has_iff.1 hid
      exact weight?_graft b post (ne_of_fresh h.fresh he) rule

end Tree

namespace Tally

variable {S T E : Type} {settings : Settings S T E} {tree tree' : Tree S T E} {t t' : Tally}

def Exact (tree : Tree S T E) (t : Tally) : Prop :=
  ∀ id sum, t.known.get? id = some sum → tree.weight? t.rule id = some sum

theorem exact_start (tree : Tree S T E) (rule : ForkChoice) : (start rule).Exact tree := by
  intro id sum h
  simp [start] at h

theorem Exact.evolves (ht : t.Exact tree) (h : tree.Evolves tree') : t.Exact tree' := by
  intro id sum hknown
  have hw := ht id sum hknown
  rw [h.weight? t.rule (Tree.has_of_weight? hw), hw]

def settle (rule : ForkChoice) (d : Difficulty) (known : Table String Int)
    (es : List (Entry T)) : Table String Int × Int :=
  (pending known es).1.reverse.foldl (climb rule d) (known, (pending known es).2)

theorem settle_cons (rule : ForkChoice) (d : Difficulty) (known : Table String Int) (e : Entry T)
    (es : List (Entry T)) :
    settle rule d known (e :: es) = match known.get? e.id with
      | some sum => (known, sum)
      | none => climb rule d (settle rule d known es) e := by
  unfold settle
  rw [pending]
  cases known.get? e.id with
  | some sum => rfl
  | none => simp only [List.reverse_cons, List.foldl_append, List.foldl_cons, List.foldl_nil]

theorem settle_spec (hgrown : Tree.Grown settings tree) (ht : t.Exact tree) {id : String}
    {es : List (Entry T)} (hes : tree.Lineage id es) :
    (settle t.rule tree.difficulty t.known es).2 =
      Entry.pathWeight t.rule tree.difficulty es ∧
    Exact tree ⟨t.rule, (settle t.rule tree.difficulty t.known es).1⟩ := by
  -- one more entry on a path whose walk is settled
  have climbs : ∀ {x : String} {e : Entry T} {rest : List (Entry T)},
      tree.Lineage x (e :: rest) → tree.entry? x = some e →
      (settle t.rule tree.difficulty t.known rest).2 =
        Entry.pathWeight t.rule tree.difficulty rest →
      Exact tree ⟨t.rule, (settle t.rule tree.difficulty t.known rest).1⟩ →
      (settle t.rule tree.difficulty t.known (e :: rest)).2 =
        Entry.pathWeight t.rule tree.difficulty (e :: rest) ∧
      Exact tree ⟨t.rule, (settle t.rule tree.difficulty t.known (e :: rest)).1⟩ := by
    intro x e rest hline he hsum hexact
    have hid : e.id = x := Entry.id_of_find? he
    have hweight := Tree.weight?_of_lineage hgrown t.rule hline
    rw [settle_cons]
    cases hknown : t.known.get? e.id with
    | some sum =>
        have hw := ht e.id sum hknown
        rw [hid, hweight] at hw
        exact ⟨(Option.some.inj hw).symm, ht⟩
    | none =>
        refine ⟨?_, ?_⟩
        · simp only [climb, hsum, Entry.pathWeight]
        · intro y sum hy
          simp only [climb, Table.get?_set] at hy
          split at hy
          · rename_i hxy
            rw [← hxy, hid, hweight, ← Option.some.inj hy, hsum]
            rfl
          · exact hexact y sum hy
  induction hes with
  | first he hp => exact climbs (.first he hp) he rfl ht
  | next he hp hrest ih => exact climbs (.next he hp hrest) he ih.1 ih.2

theorem weightIn_spec (hgrown : Tree.Grown settings tree) (ht : t.Exact tree) (id : String) :
    (t.weightIn tree id).1 = tree.weight? t.rule id ∧ Exact tree (t.weightIn tree id).2 ∧
      (t.weightIn tree id).2.rule = t.rule := by
  cases hid : tree.has id with
  | false =>
      have h : t.weightIn tree id = (none, t) := by
        rw [weightIn, weigh, if_neg]
        simpa [Tree.has, Tree.entry?] using hid
      rw [h, Tree.weight?_eq_none_iff.2 hid]
      exact ⟨rfl, ht, rfl⟩
  | true =>
      have hline := hgrown.lineage_path hid
      obtain ⟨hsum, hexact⟩ := settle_spec hgrown ht hline
      have h : t.weightIn tree id =
          (some (settle t.rule tree.difficulty t.known (Entry.path id tree.entries)).2,
            ⟨t.rule, (settle t.rule tree.difficulty t.known (Entry.path id tree.entries)).1⟩) := by
        have hfind : (Entry.find? id tree.entries).isSome = true := hid
        rw [weightIn, weigh, if_pos hfind]
        rfl
      rw [h, Tree.weight?_of_lineage hgrown t.rule hline, hsum]
      exact ⟨rfl, hexact, rfl⟩

theorem weighAll_spec (hgrown : Tree.Grown settings tree) (ht : t.Exact tree)
    (ids : List String) :
    (t.weighAll tree.difficulty tree.entries ids).1 =
        ids.map (fun id => (id, tree.weight? t.rule id)) ∧
      Exact tree (t.weighAll tree.difficulty tree.entries ids).2 ∧
      (t.weighAll tree.difficulty tree.entries ids).2.rule = t.rule := by
  induction ids generalizing t with
  | nil => exact ⟨rfl, ht, rfl⟩
  | cons id ids ih =>
      obtain ⟨hweight, hexact, hrule⟩ := weightIn_spec hgrown ht id
      obtain ⟨hrest, hexact', hrule'⟩ := ih hexact
      rw [hrule] at hrest hrule'
      refine ⟨?_, hexact', hrule'⟩
      change (id, (t.weightIn tree id).1) ::
        ((t.weightIn tree id).2.weighAll tree.difficulty tree.entries ids).1 = _
      rw [hweight, hrest]
      rfl

theorem headIn_spec (hgrown : Tree.Grown settings tree) (ht : t.Exact tree) :
    (t.headIn tree).1 = tree.bestHead t.rule ∧ Exact tree (t.headIn tree).2 ∧
      (t.headIn tree).2.rule = t.rule := by
  obtain ⟨hweights, hexact, hrule⟩ := weighAll_spec hgrown ht tree.leaves
  refine ⟨?_, hexact, hrule⟩
  change ForkChoice.head tree.genesisId
    (t.weighAll tree.difficulty tree.entries tree.leaves).1 = _
  rw [hweights]
  rfl

theorem chainIn_spec (hgrown : Tree.Grown settings tree) (ht : t.Exact tree) :
    (t.chainIn tree).1 = tree.canonicalChain t.rule := by
  change (tree.ancestors (t.headIn tree).1).reverse = _
  rw [(headIn_spec hgrown ht).1]
  rfl

theorem Answered.exact (hgrown : Tree.Grown settings tree) (ht : t.Exact tree)
    (h : t.Answered tree t') : t'.Exact tree ∧ t'.rule = t.rule := by
  cases h with
  | weight id => exact (weightIn_spec hgrown ht id).2
  | head => exact (headIn_spec hgrown ht).2

end Tally

namespace Tree

variable {S T E : Type} {settings : Settings S T E} {t u : Tree S T E}

theorem insert_exact (hgrown : Grown settings t) (ht : t.tally.Exact t) {b : Block T}
    {r : Receipt S T E} (h : t.insert b = .ok r) :
    r.tree.tally.Exact r.tree ∧ r.tree.tally.rule = t.tally.rule := by
  cases insert_cases h with
  | malformed _ => exact ⟨ht, rfl⟩
  | known _ _ _ => exact ⟨ht, rfl⟩
  | rejected _ _ _ _ => exact ⟨ht, rfl⟩
  | @admitted id post hb =>
      have hstep : t.Evolves (t.graft id b post) := .grown hb t.tally t.head
      obtain ⟨_, hexact, hrule⟩ := Tally.headIn_spec (.step hgrown hstep) (ht.evolves hstep)
      exact ⟨hexact, hrule⟩

theorem Looked.exact (hgrown : Grown settings t) (ht : t.tally.Exact t) (h : t.Looked u) :
    Grown settings u ∧ u.tally.Exact u ∧ u.tally.rule = t.tally.rule := by
  cases h with
  | no => exact ⟨hgrown, ht, rfl⟩
  | yes =>
      obtain ⟨_, hexact, hrule⟩ := Tally.headIn_spec hgrown ht
      exact ⟨.step hgrown t.evolves_ownHead, hexact, hrule⟩

theorem Worked.exact (hgrown : Grown settings t) (ht : t.tally.Exact t) (h : t.Worked u) :
    u.tally.Exact u ∧ u.tally.rule = t.tally.rule := by
  cases h with
  | looked h => exact (h.exact hgrown ht).2
  | inserted h hr =>
      obtain ⟨hgrown', ht', hrule⟩ := h.exact hgrown ht
      obtain ⟨hexact, hrule'⟩ := insert_exact hgrown' ht' hr
      exact ⟨hexact, hrule'.trans hrule⟩

theorem Lineage.pathWeight_eq_sum (hs : Sound settings t) (rule : ForkChoice) (d : Difficulty)
    {id : String} {es : List (Entry T)} (h : t.Lineage id es) :
    Entry.pathWeight rule d es = List.foldr (· + ·) 0 ((es.filter fun e =>
      e.id ≠ t.genesisId).map fun e => rule.weight e.id e.block.header d) := by
  induction h with
  | @first id e he hp =>
      have hid : e.id = t.genesisId :=
        (Entry.id_of_find? he).trans ((hs.parent_eq_none_iff he).1 hp)
      simp [Entry.pathWeight, Entry.ownWeight, hp, hid]
  | @next id parent e es he hp _ ih =>
      have hid : e.id ≠ t.genesisId := by
        intro heq
        rw [(hs.parent_eq_none_iff he).2 ((Entry.id_of_find? he).symm.trans heq)] at hp
        simp at hp
      rw [List.filter_cons_of_pos (by simpa using hid), List.map_cons, List.foldr_cons, ← ih,
        Entry.pathWeight, Entry.ownWeight, hp, Int.add_comm]

end Tree

namespace Session

variable {S T E : Type} {settings : Settings S T E} {s s' : Session S T E}

def rule? (s : Session S T E) (r : Asked) : Option ForkChoice :=
  (s.tally? r).map Tally.rule

def weight? (s : Session S T E) (r : Asked) (id : String) : Option Int :=
  (s.ask r fun t tree => t.weightIn tree id).1.join

def head? (s : Session S T E) (r : Asked) : Option String :=
  (s.ask r Tally.headIn).1

def chain? (s : Session S T E) (r : Asked) : Option (List Header) :=
  (s.ask r Tally.chainIn).1

def Exact (s : Session S T E) : Prop :=
  ∀ r t, s.tally? r = some t → t.Exact s.tree

theorem keep_tally? {r : Asked} {t : Tally} (ht : s.tally? r = some t) (t' : Tally) (q : Asked) :
    (s.keep t' r).tally? q = if r = q then some t' else s.tally? q := by
  cases r with
  | own => cases q <;> simp [keep, tally?]
  | handedIn i =>
      cases q with
      | own => simp [keep, tally?]
      | handedIn j =>
          have hi : i < s.tallies.length := (List.getElem?_eq_some_iff.1 ht).1
          simp only [keep, tally?, List.getElem?_set, Asked.handedIn.injEq, hi]
          split <;> simp_all

theorem Stepped.exact (hgrown : Tree.Grown settings s.tree) (hs : s.Exact) (h : s.Stepped s') :
    s'.Exact := by
  intro r t ht
  cases h with
  | worked h =>
      cases r with
      | own =>
          obtain rfl := Option.some.inj ht
          exact (h.exact hgrown (hs .own _ rfl)).1
      | handedIn i => exact (hs (.handedIn i) t ht).evolves h.evolves
  | handedIn rule =>
      cases r with
      | own => exact hs .own t ht
      | handedIn i =>
          simp only [tally?, List.getElem?_append] at ht
          split at ht
          · exact hs (.handedIn i) t ht
          · rw [List.getElem?_singleton] at ht
            split at ht
            · obtain rfl := Option.some.inj ht
              exact Tally.exact_start _ rule
            · simp at ht
  | @asked q τ τ' hτ hanswered =>
      have hexact := (hanswered.exact hgrown (hs q τ hτ)).1
      have hevolves := (Stepped.asked hτ hanswered).evolves
      rw [keep_tally? hτ] at ht
      split at ht
      · obtain rfl := Option.some.inj ht
        exact hexact.evolves hevolves
      · exact (hs r t ht).evolves hevolves

theorem Stepped.rule? (hgrown : Tree.Grown settings s.tree) (hs : s.Exact) (h : s.Stepped s')
    {r : Asked} {rule : ForkChoice} (hr : s.rule? r = some rule) : s'.rule? r = some rule := by
  obtain ⟨t, ht, hrule⟩ := Option.map_eq_some_iff.1 hr
  cases h with
  | worked h =>
      cases r with
      | own =>
          obtain rfl := Option.some.inj ht
          exact congrArg some ((h.exact hgrown (hs .own _ rfl)).2.trans hrule)
      | handedIn i => exact hr
  | handedIn new =>
      cases r with
      | own => exact hr
      | handedIn i =>
          have hi : i < s.tallies.length := (List.getElem?_eq_some_iff.1 ht).1
          simp only [Session.rule?, tally?, List.getElem?_append_left hi] at hr ⊢
          exact hr
  | @asked q τ τ' hτ hanswered =>
      unfold Session.rule?
      rw [keep_tally? hτ]
      split
      · rename_i hq
        have heq : t = τ := Option.some.inj (ht.symm.trans (hq ▸ hτ))
        rw [Option.map_some, (hanswered.exact hgrown (hs q τ hτ)).2, ← heq, hrule]
      · exact hr

theorem exact_start {t : Tree S T E} (h : Tree.found settings = .ok t) : (start t).Exact := by
  obtain ⟨b, id, _, _, rfl⟩ := Tree.found_eq_ok_iff.1 h
  intro r τ hτ
  cases r with
  | own =>
      obtain rfl := Option.some.inj hτ
      exact Tally.exact_start _ settings.forkChoice
  | handedIn i => simp [start, tally?] at hτ

theorem run_exact (hgrown : Tree.Grown settings s.tree) (hs : s.Exact) (calls : List (Call S T)) :
    (s.run calls).Exact := by
  have hrun := run_induction (P := fun s => Tree.Grown settings s.tree ∧ s.Exact)
    (fun hst h => ⟨.step h.1 hst.evolves, hst.exact h.1 h.2⟩) ⟨hgrown, hs⟩ calls
  exact hrun.2

theorem run_rule? (hgrown : Tree.Grown settings s.tree) (hs : s.Exact) {r : Asked}
    {rule : ForkChoice} (hr : s.rule? r = some rule) (calls : List (Call S T)) :
    (s.run calls).rule? r = some rule := by
  have hrun := run_induction
    (P := fun s => Tree.Grown settings s.tree ∧ s.Exact ∧ s.rule? r = some rule)
    (fun hst h => ⟨.step h.1 hst.evolves, hst.exact h.1 h.2.1, hst.rule? h.1 h.2.1 h.2.2⟩)
    ⟨hgrown, hs, hr⟩ calls
  exact hrun.2.2

theorem own_rule? {t : Tree S T E} (h : Tree.found settings = .ok t) (calls : List (Call S T)) :
    ((start t).run calls).rule? .own = some settings.forkChoice := by
  have hown : (start t).rule? .own = some settings.forkChoice := by
    obtain ⟨b, id, _, _, rfl⟩ := Tree.found_eq_ok_iff.1 h
    rfl
  exact run_rule? (.found h) (exact_start h) hown calls

theorem handIn_rule? {t : Tree S T E} (h : Tree.found settings = .ok t) (rule : ForkChoice)
    (calls : List (Call S T)) :
    ((start t).run (.handIn rule :: calls)).rule? (.handedIn 0) = some rule := by
  have hstep := (start t).stepped_step (.handIn rule)
  exact run_rule? (.step (.found h) hstep.evolves) (hstep.exact (.found h) (exact_start h)) rfl calls

theorem run_plainWeight (s : Session S T E) (rule : ForkChoice) {id : String}
    (hid : s.tree.has id = true) (calls : List (Call S T)) :
    (s.run calls).tree.weight? rule id = s.tree.weight? rule id := by
  have hrun := run_induction
    (P := fun s' => s'.tree.has id = true ∧ s'.tree.weight? rule id = s.tree.weight? rule id)
    (fun hst h => ⟨hst.evolves.has h.1, (hst.evolves.weight? rule h.1).trans h.2⟩) ⟨hid, rfl⟩ calls
  exact hrun.2

theorem weight?_eq (hgrown : Tree.Grown settings s.tree) (hs : s.Exact) {r : Asked}
    {rule : ForkChoice} (hr : s.rule? r = some rule) (id : String) :
    s.weight? r id = s.tree.weight? rule id := by
  obtain ⟨t, ht, rfl⟩ := Option.map_eq_some_iff.1 hr
  unfold weight? ask
  rw [ht]
  exact (Tally.weightIn_spec hgrown (hs r t ht) id).1

theorem head?_eq (hgrown : Tree.Grown settings s.tree) (hs : s.Exact) {r : Asked}
    {rule : ForkChoice} (hr : s.rule? r = some rule) :
    s.head? r = some (s.tree.bestHead rule) := by
  obtain ⟨t, ht, rfl⟩ := Option.map_eq_some_iff.1 hr
  unfold head? ask
  rw [ht]
  exact congrArg some (Tally.headIn_spec hgrown (hs r t ht)).1

theorem chain?_eq (hgrown : Tree.Grown settings s.tree) (hs : s.Exact) {r : Asked}
    {rule : ForkChoice} (hr : s.rule? r = some rule) :
    s.chain? r = some (s.tree.canonicalChain rule) := by
  obtain ⟨t, ht, rfl⟩ := Option.map_eq_some_iff.1 hr
  unfold chain? ask
  rw [ht]
  exact congrArg some (Tally.chainIn_spec hgrown (hs r t ht))

end Session

theorem weight?_eq_sum_over_path {S T E : Type} (settings : Settings S T E) {t₀ : Tree S T E}
    (hfound : Tree.found settings = .ok t₀) (calls : List (Call S T)) {s : Session S T E}
    (hs : s = (Session.start t₀).run calls) {r : Asked} {rule : ForkChoice}
    (hr : s.rule? r = some rule) (id : String) :
    (s.weight? r id = none ↔ s.tree.has id = false) ∧
    (s.tree.has id = true → ∃ es, s.tree.Lineage id es ∧
      s.weight? r id = some (List.foldr (· + ·) 0 ((es.filter fun e =>
        e.id ≠ s.tree.genesisId).map fun e =>
          rule.weight e.id e.block.header settings.difficulty))) ∧
    (s.tree.has id = true → ∀ more, (s.run more).weight? r id = s.weight? r id) := by
  subst hs
  have hgrown := Session.grown_run hfound calls
  have hexact := Session.run_exact (.found hfound) (Session.exact_start hfound) calls
  have hweight := Session.weight?_eq hgrown hexact hr id
  refine ⟨?_, ?_, ?_⟩
  · rw [hweight]
    exact Tree.weight?_eq_none_iff
  · intro hid
    have hline := hgrown.lineage_path hid
    refine ⟨_, hline, ?_⟩
    rw [hweight, Tree.weight?_of_lineage hgrown rule hline,
      hline.pathWeight_eq_sum hgrown.sound, Tree.difficulty, hgrown.sound.validity]
  · intro hid more
    rw [Session.weight?_eq (Session.run_grown hgrown more) (Session.run_exact hgrown hexact more)
      (Session.run_rule? hgrown hexact hr more) id, hweight, Session.run_plainWeight _ rule hid more]

theorem falling_weight_eq_sum :
    ∃ t₀ s, Tree.found Sums.settings = .ok t₀ ∧ s = (Session.start t₀).run Sums.calls ∧
      s.rule? (.handedIn 0) = some Sums.falling ∧ s.tree.has Sums.secondId = true ∧
      (∃ es, s.tree.Lineage Sums.secondId es ∧
        s.weight? (.handedIn 0) Sums.secondId = some (List.foldr (· + ·) 0 ((es.filter fun e =>
          e.id ≠ s.tree.genesisId).map fun e => -e.block.header.height))) ∧
      ∀ more, (s.run more).weight? (.handedIn 0) Sums.secondId =
        s.weight? (.handedIn 0) Sums.secondId := by
  obtain ⟨t₀, hfound, _, hhas⟩ := Sums.run_calls
  have hr : ((Session.start t₀).run Sums.calls).rule? (.handedIn 0) = some Sums.falling :=
    Session.handIn_rule? hfound Sums.falling _
  obtain ⟨_, hsum, hlater⟩ :=
    weight?_eq_sum_over_path Sums.settings hfound Sums.calls rfl hr Sums.secondId
  exact ⟨t₀, _, hfound, rfl, hr, hhas, hsum hhas, hlater hhas⟩

end BlockTree
