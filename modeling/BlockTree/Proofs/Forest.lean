import BlockTree.Proofs.History
import BlockTree.Proofs.Indexes
import BlockTree.Proofs.Weights

namespace BlockTree

variable {S T E : Type}

theorem Table.size_eq_of_keys {κ α : Type} [DecidableEq κ] (t : Table κ α) {ids : List κ}
    (hids : ids.Nodup) (h : ∀ k, t.has k = true ↔ k ∈ ids) : t.size = ids.length := by
  have hperm : t.keys.Perm ids := by
    apply (List.perm_ext_iff_of_nodup t.nodup hids).2
    intro k
    exact (t.mem_keys_iff k).trans (h k)
  rw [← hperm.length_eq, keys, List.length_map]
  rfl

namespace Tree

variable {settings : Settings S T E} {t u : Tree S T E}

structure Consistent (t : Tree S T E) : Prop where
  stored : ∀ id, t.states.has id = t.has id
  storeSize : t.states.size = t.size
  root : t.has t.genesisId = true
  parentless : ∀ id e, t.entry? id = some e → (e.parent = none ↔ id = t.genesisId)
  heightZero : ∀ id e, t.entry? id = some e → (e.height = 0 ↔ id = t.genesisId)
  childrenNodup : ∀ p, (t.children p).Nodup
  children : ∀ p id, id ∈ t.children p ↔ ∃ e, t.entry? id = some e ∧ e.parent = some p
  leavesSorted : t.leaves.Pairwise (Text.le · · = true)
  leavesNodup : t.leaves.Nodup
  leaves : ∀ id, id ∈ t.leaves ↔ t.has id = true ∧ t.children id = []

theorem Sound.height_eq_zero_iff (hs : Sound settings t) {id : String} {e : Entry T}
    (he : t.entry? id = some e) : e.height = 0 ↔ id = t.genesisId := by
  rw [← hs.parent_eq_none_iff he]
  have heq := hs.entry_eq he
  have hheight : e.height = e.block.header.height := congrArg Entry.height heq
  have hparent := congrArg Entry.parent heq
  rw [hheight, hparent]
  split
  · rename_i hzero
    simp [hzero]
  · rename_i hzero
    simp [hzero]

theorem Indexed.mem_children_iff (h : Indexed t) {p id : String} :
    id ∈ t.children p ↔ ∃ e, t.entry? id = some e ∧ e.parent = some p := by
  rw [h.children, List.mem_map]
  apply exists_congr
  intro e
  rw [List.mem_filter, List.mem_reverse, decide_eq_true_eq, ← entry?_eq_some_iff h]
  constructor
  · rintro ⟨⟨he, hp⟩, rfl⟩
    exact ⟨he, hp⟩
  · rintro ⟨he, hp⟩
    have hid : e.id = id := Entry.id_of_find? he
    exact ⟨⟨hid.symm ▸ he, hp⟩, hid⟩

theorem Indexed.nodup_children (h : Indexed t) (p : String) : (t.children p).Nodup := by
  rw [h.children]
  have hreverse : (t.entries.reverse.map Entry.id).Nodup :=
    (t.entries.reverse_perm.map Entry.id).nodup_iff.2 h.nodup
  exact hreverse.sublist (List.filter_sublist.map _)

theorem Indexed.mem_tips_iff (h : Indexed t) {id : String} :
    id ∈ t.tips ↔ t.has id = true ∧ t.children id = [] := by
  rw [h.tips, ← has_iff_mem, h.children, List.map_eq_nil_iff, List.filter_eq_nil_iff]
  simp

theorem Grown.consistent (h : Grown settings t) : t.Consistent := by
  have hs := h.sound
  have hi := h.indexed
  refine ⟨hs.stored, ?_, ?_, fun id e he => hs.parent_eq_none_iff he,
    fun id e he => hs.height_eq_zero_iff he, hi.nodup_children, fun p id => hi.mem_children_iff,
    Text.sort_pairwise _, ?_, ?_⟩
  · have hkeys : ∀ id, t.states.has id = true ↔ id ∈ t.entries.map Entry.id := by
      intro id
      rw [← has_iff_mem, ← hs.stored id]
      rfl
    rw [t.states.size_eq_of_keys hi.nodup hkeys, List.length_map]
    rfl
  · obtain ⟨e, _, he, _⟩ := hs.first
    exact has_iff.2 ⟨e, he⟩
  · exact (Text.sort_perm t.tips).nodup_iff.2 hi.tips_nodup
  · intro id
    exact (Text.sort_perm t.tips).mem_iff.trans hi.mem_tips_iff

structure Gains (t u : Tree S T E) (id : String) (b : Block T) : Prop where
  id_eq : b.header.id = .ok id
  parent : t.has b.header.parent = true
  entry : u.entry? id = some ⟨id, b, some b.header.parent, b.header.height⟩
  entries : ∀ x, x ≠ id → u.entry? x = t.entry? x
  headers : ∀ x, x ≠ id → u.header? x = t.header? x
  heights : ∀ x, x ≠ id → u.height? x = t.height? x
  states : ∀ x, x ≠ id → u.state? x = t.state? x
  ancestors : ∀ x, x ≠ id → u.ancestors x = t.ancestors x
  weights : ∀ rule x, x ≠ id →
    ((Tally.start rule).weightIn u x).1 = ((Tally.start rule).weightIn t x).1
  children : ∀ p, u.children p =
    if p = b.header.parent then t.children p ++ [id] else t.children p
  leaves : u.leaves = Text.sort (t.leaves.erase b.header.parent ++ [id])

theorem Admits.has_parent {id : String} {b : Block T} {post : S} (h : t.Admits id b post) :
    t.has b.header.parent = true := by
  obtain ⟨_, hparent, _⟩ := h.accepted
  obtain ⟨e, _, he, _⟩ := exists_of_parentContext? hparent
  exact has_iff.2 ⟨e, he⟩

theorem leaves_graft (t : Tree S T E) (id : String) (b : Block T) (post : S) :
    (t.graft id b post).leaves = Text.sort (t.leaves.erase b.header.parent ++ [id]) := by
  apply Text.sort_eq_of_perm
  have htips : (t.tips.erase b.header.parent).Perm (t.leaves.erase b.header.parent) :=
    (Text.sort_perm t.tips).symm.erase _
  exact htips.append_right [id]

theorem gains_graft (hgrown : Grown settings t) {id : String} {b : Block T} {post : S}
    (h : t.Admits id b post) (tally : Tally) (head : String) :
    t.Gains { t.graft id b post with tally, head } id b := by
  have hgrown' : Grown settings { t.graft id b post with tally, head } :=
    .step hgrown (.grown h tally head)
  have hentry : ∀ x, x ≠ id → entry? (t.graft id b post) x = t.entry? x := by
    intro x hx
    rw [entry?_graft, if_neg hx.symm]
  refine ⟨h.id_eq, h.has_parent, ?_, hentry, ?_, ?_, ?_, ?_, ?_, ?_, leaves_graft t id b post⟩
  · exact (entry?_graft t id id b post).trans (if_pos rfl)
  · intro x hx
    exact congrArg (Option.map fun e => e.block.header) (hentry x hx)
  · intro x hx
    exact congrArg (Option.map Entry.height) (hentry x hx)
  · intro x hx
    exact (state?_graft t id x b post).trans (if_neg hx.symm)
  · intro x hx
    exact congrArg (List.map fun e => e.block.header) (path_graft b post hx.symm)
  · intro rule x hx
    rw [(Tally.weightIn_spec hgrown' (Tally.exact_start _ rule) x).1,
      (Tally.weightIn_spec hgrown (Tally.exact_start t rule) x).1]
    exact weight?_graft b post hx.symm rule
  · intro p
    refine (graft_children t id p b post).trans ?_
    by_cases hp : b.header.parent = p
    · rw [if_pos hp, if_pos hp.symm]
    · rw [if_neg hp, if_neg (Ne.symm hp)]

theorem Evolves.gains (hgrown : Grown settings t) (h : t.Evolves u) {id : String}
    (hno : t.has id = false) (hyes : u.has id = true) : ∃ b, t.Gains u id b := by
  cases h with
  | same tally head =>
      change t.has id = true at hyes
      rw [hno] at hyes
      simp at hyes
  | @grown x b post h tally head =>
      change (t.graft x b post).has id = true at hyes
      by_cases hid : x = id
      · subst hid
        exact ⟨b, gains_graft hgrown h tally head⟩
      · rw [has_graft_of_ne b post hid, hno] at hyes
        simp at hyes

theorem Evolves.children_eq (h : t.Evolves u) (p : String) :
    u.children p = t.children p ∨
      ∃ id, t.has id = false ∧ u.children p = t.children p ++ [id] := by
  cases h with
  | same tally head => exact .inl rfl
  | @grown id b post h tally head =>
      have hchildren := graft_children t id p b post
      by_cases hp : b.header.parent = p
      · rw [if_pos hp] at hchildren
        exact .inr ⟨id, h.fresh, hchildren⟩
      · rw [if_neg hp] at hchildren
        exact .inl hchildren

end Tree

namespace Session

variable {settings : Settings S T E} {s s' : Session S T E}

def AdmitsFirst (s : Session S T E) (calls : List (Call S T)) (x y : String) : Prop :=
  ∃ earlier later, calls = earlier ++ later ∧ (s.run earlier).tree.has x = true ∧
    (s.run earlier).tree.has y = false

theorem run_append (s : Session S T E) (xs ys : List (Call S T)) :
    s.run (xs ++ ys) = (s.run xs).run ys :=
  List.foldl_append

theorem children_pairwise (hgrown : Tree.Grown settings s.tree) (p : String)
    (done : List (Call S T)) {calls : List (Call S T)}
    (h : ((s.run done).tree.children p).Pairwise (s.AdmitsFirst (done ++ calls))) :
    ((s.run (done ++ calls)).tree.children p).Pairwise (s.AdmitsFirst (done ++ calls)) := by
  induction calls generalizing done with
  | nil => rwa [List.append_nil] at h ⊢
  | cons c calls ih =>
      rw [List.append_cons] at h ⊢
      apply ih (done ++ [c])
      rw [run_append, run_cons, run_nil]
      -- the children so far were there at this time, and a new one was not
      rcases ((s.run done).stepped_step c).evolves.children_eq p with heq | ⟨id, hno, heq⟩
      · rwa [heq]
      · rw [heq, List.pairwise_append]
        refine ⟨h, List.pairwise_singleton .., ?_⟩
        intro x hx y hy
        obtain rfl := List.mem_singleton.1 hy
        have hindexed := (run_grown hgrown done).indexed
        obtain ⟨e, he, _⟩ := hindexed.mem_children_iff.1 hx
        exact ⟨done, c :: calls, by simp, Tree.has_iff.2 ⟨e, he⟩, hno⟩

theorem weight?_of_rule?_eq_none {r : Asked} (hr : s.rule? r = none) (id : String) :
    s.weight? r id = none := by
  rw [rule?, Option.map_eq_none_iff] at hr
  unfold weight? ask
  rw [hr]
  rfl

theorem Stepped.rule?_eq_none (h : s.Stepped s') {id : String} (hno : s.tree.has id = false)
    (hyes : s'.tree.has id = true) {r : Asked} (hr : s.rule? r = none) : s'.rule? r = none := by
  cases h with
  | worked h =>
      cases r with
      | own => simp [Session.rule?, tally?] at hr
      | handedIn i => exact hr
  | handedIn rule =>
      rw [hno] at hyes
      simp at hyes
  | @asked q t t' ht h =>
      have hsame : s.tree.has id = true := by
        cases q with
        | own => exact hyes
        | handedIn i => exact hyes
      rw [hno] at hsame
      simp at hsame

theorem Stepped.weight?_eq (hgrown : Tree.Grown settings s.tree) (hs : s.Exact)
    (h : s.Stepped s') {id x : String} {b : Block T} (hgains : s.tree.Gains s'.tree id b)
    (hno : s.tree.has id = false) (hx : x ≠ id) (r : Asked) : s'.weight? r x = s.weight? r x := by
  have hyes : s'.tree.has id = true := Tree.has_iff.2 ⟨_, hgains.entry⟩
  cases hr : s.rule? r with
  | none =>
      rw [weight?_of_rule?_eq_none hr, weight?_of_rule?_eq_none (h.rule?_eq_none hno hyes hr)]
  | some rule =>
      have hgrown' : Tree.Grown settings s'.tree := .step hgrown h.evolves
      have hweight := hgains.weights rule x hx
      rw [(Tally.weightIn_spec hgrown (Tally.exact_start _ rule) x).1,
        (Tally.weightIn_spec hgrown' (Tally.exact_start _ rule) x).1] at hweight
      rw [Session.weight?_eq hgrown hs hr,
        Session.weight?_eq hgrown' (h.exact hgrown hs) (h.rule? hgrown hs hr)]
      exact hweight

end Session

theorem indexes_consistent_and_history_append_only (settings : Settings S T E) {t₀ : Tree S T E}
    (hfound : Tree.found settings = .ok t₀) (calls : List (Call S T)) {s : Session S T E}
    (hs : s = (Session.start t₀).run calls) :
    s.tree.Consistent ∧
    (∀ p, (s.tree.children p).Pairwise ((Session.start t₀).AdmitsFirst calls)) ∧
    ∀ c id, s.tree.has id = false → (s.step c).tree.has id = true →
      ∃ b, s.tree.Gains (s.step c).tree id b ∧
        ∀ r x, x ≠ id → (s.step c).weight? r x = s.weight? r x := by
  subst hs
  have hgrown := Session.grown_run hfound calls
  have hexact := Session.run_exact (.found hfound) (Session.exact_start hfound) calls
  refine ⟨hgrown.consistent, ?_, ?_⟩
  · intro p
    apply Session.children_pairwise (s := Session.start t₀) (.found hfound) p []
    obtain ⟨b, id, _, _, rfl⟩ := Tree.found_eq_ok_iff.1 hfound
    exact .nil
  · intro c id hno hyes
    have hstep := ((Session.start t₀).run calls).stepped_step c
    obtain ⟨b, hgains⟩ := hstep.evolves.gains hgrown hno hyes
    refine ⟨b, hgains, ?_⟩
    intro r x hx
    exact hstep.weight?_eq hgrown hexact hgains hno hx r

theorem Sums.run_second_opening (b : Block Int) :
    (Session.start (Tree.first Sums.settings Sums.genesisId b)).run
        [.insert Sums.second, .insert Sums.opening] =
      .start ((Tree.first Sums.settings Sums.genesisId b).commit Sums.openingId Sums.opening
        ⟨3, 3⟩).tree := by
  obtain ⟨_, horphaned⟩ := Sums.second_orphaned Sums.settings b
  rw [Session.run_cons, Session.start_step_insert horphaned, Session.run_cons,
    Session.start_step_insert (Tree.insert_of_admits (Sums.opening_admits b)), Session.run_nil]

theorem sums_indexes_consistent_and_append_only :
    ∃ t₀ s b, Tree.found Sums.settings = .ok t₀ ∧
      s = (Session.start t₀).run [.insert Sums.second, .insert Sums.opening] ∧
      s.tree.has Sums.secondId = false ∧
      (s.step (.insert Sums.second)).tree.has Sums.secondId = true ∧ s.tree.Consistent ∧
      s.tree.Gains (s.step (.insert Sums.second)).tree Sums.secondId b ∧
      ∀ r x, x ≠ Sums.secondId → (s.step (.insert Sums.second)).weight? r x = s.weight? r x := by
  obtain ⟨b, hfound⟩ := Sums.found_first
  have hrun := Sums.run_second_opening b
  have hsecond := Tree.insert_of_admits (Sums.second_admits b)
  have hno := (Sums.second_admits b).fresh
  generalize Tree.first Sums.settings Sums.genesisId b = t at *
  have hyes : ((Session.start (t.commit Sums.openingId Sums.opening ⟨3, 3⟩).tree).step
      (.insert Sums.second)).tree.has Sums.secondId = true := by
    rw [Session.start_step_insert hsecond]
    exact Tree.has_iff.2 ⟨_, (Tree.entry?_commit ..).trans (if_pos rfl)⟩
  obtain ⟨hconsistent, _, hgains⟩ :=
    indexes_consistent_and_history_append_only Sums.settings hfound
      [.insert Sums.second, .insert Sums.opening] rfl
  rw [hrun] at hconsistent hgains
  obtain ⟨block, hblock, hweights⟩ := hgains (.insert Sums.second) Sums.secondId hno hyes
  exact ⟨t, _, block, hfound, hrun.symm, hno, hyes, hconsistent, hblock, hweights⟩

end BlockTree
