import BlockTree.Proofs.HeadChoice
import BlockTree.Proofs.SubChain

namespace BlockTree

variable {S T E : Type}

namespace Tree

variable {settings : Settings S T E} {t u : Tree S T E}

def descend (t : Tree S T E) : Nat → Option (Entry T) → Option (Entry T)
  | 0, here => here
  | n + 1, here => t.descend n (here.bind fun e => e.parent.bind t.entry?)

theorem descend_none (t : Tree S T E) (n : Nat) : t.descend n none = none := by
  induction n with
  | zero => rfl
  | succ n ih => exact ih

theorem Lineage.descend_eq {id : String} {es : List (Entry T)} (h : t.Lineage id es) (n : Nat) :
    t.descend n (t.entry? id) = es[n]? := by
  induction h generalizing n with
  | first he hp =>
      cases n with
      | zero => exact he
      | succ n =>
          rw [descend, he, Option.bind_some, hp, Option.bind_none, descend_none]
          rfl
  | next he hp _ ih =>
      cases n with
      | zero => exact he
      | succ n =>
          rw [descend, he, Option.bind_some, hp, Option.bind_some, ih n]
          rfl

theorem Grown.descend_eq (h : Grown settings t) (id : String) (n : Nat) :
    (t.descend n (t.entry? id)).map (fun e => e.block.header) = (t.ancestors id)[n]? := by
  rw [ancestors, List.getElem?_map]
  cases hid : t.has id with
  | false =>
      have hnone := has_eq_false_iff.1 hid
      rw [hnone, descend_none, Entry.path_of_find?_eq_none hnone]
      rfl
  | true => rw [(h.lineage_path hid).descend_eq n]

theorem Sound.exists_parent (hs : Sound settings t) {id parent : String} {e : Entry T}
    (he : t.entry? id = some e) (hp : e.parent = some parent) :
    ∃ p, t.entry? parent = some p ∧ e.height = p.height + 1 ∧
      p.block.header.id = .ok e.block.header.parent := by
  obtain ⟨_, hstate⟩ := hs.exists_state he
  rcases hs.rests he hstate with ⟨_, hfirst⟩ | hrests
  · rw [hfirst.parent_eq] at hp
    cases hp
  · obtain ⟨_, hctx, haccepts⟩ := hrests.accepted
    obtain ⟨p, pre, hparent, hpre, rfl⟩ := exists_of_parentContext? hctx
    rw [hrests.parent_eq, Option.some.injEq] at hp
    subst hp
    exact ⟨p, hparent, hrests.height_eq.trans haccepts.height, (hs.commits hparent hpre).id_eq⟩

structure IsDescent (t : Tree S T E) (id : String) (height : Int) (hs : List Header) : Prop where
  length : (hs.length : Int) = height + 1
  first : hs.head? = t.header? id
  last : hs.getLast? = t.header? t.genesisId
  heights : ∀ (i : Nat) (h : Header), hs[i]? = some h → h.height = height - i
  parents : ∀ (i : Nat) (h next : Header), hs[i]? = some h → hs[i + 1]? = some next →
    next.id = .ok h.parent

structure IsAscent (t : Tree S T E) (id : String) (height : Int) (hs : List Header) : Prop where
  length : (hs.length : Int) = height + 1
  first : hs.head? = t.header? t.genesisId
  last : hs.getLast? = t.header? id
  heights : ∀ (i : Nat) (h : Header), hs[i]? = some h → h.height = i

theorem IsDescent.reverse {id : String} {height : Int} {hs : List Header}
    (h : t.IsDescent id height hs) : t.IsAscent id height hs.reverse := by
  have hlength := h.length
  refine ⟨?_, ?_, ?_, ?_⟩
  · rwa [List.length_reverse]
  · rw [List.head?_reverse, h.last]
  · rw [List.getLast?_reverse, h.first]
  · intro i header hi
    obtain ⟨hlt, _⟩ := List.getElem?_eq_some_iff.1 hi
    rw [List.length_reverse] at hlt
    rw [List.getElem?_reverse hlt] at hi
    have hheight := h.heights _ _ hi
    omega

theorem header?_of_entry {id : String} {e : Entry T} (he : t.entry? id = some e) :
    t.header? id = some e.block.header := by
  rw [header?, he, Option.map_some]

theorem Sound.isDescent_first (hs : Sound settings t) {id : String} {e : Entry T}
    (he : t.entry? id = some e) (hp : e.parent = none) :
    t.IsDescent id e.height [e.block.header] := by
  have hid := (hs.parent_eq_none_iff he).1 hp
  have hzero := (hs.height_eq_zero_iff he).2 hid
  have hheight := hs.height_eq he
  refine ⟨?_, ?_, ?_, ?_, ?_⟩
  · rw [hzero]
    rfl
  · exact (header?_of_entry he).symm
  · rw [← hid, header?_of_entry he]
    rfl
  · intro i h hi
    rw [List.getElem?_singleton] at hi
    split at hi
    · obtain rfl := Option.some.inj hi
      omega
    · cases hi
  · intro i h next _ hnext
    simp at hnext

theorem Sound.isDescent_next (hs : Sound settings t) {id parent : String} {e : Entry T}
    (he : t.entry? id = some e) (hp : e.parent = some parent) {below : List Header} {p : Entry T}
    (hparent : t.entry? parent = some p) (h : t.IsDescent parent p.height below) :
    t.IsDescent id e.height (e.block.header :: below) := by
  obtain ⟨q, hq, hsucc, hid⟩ := hs.exists_parent he hp
  obtain rfl := Option.some.inj (hparent.symm.trans hq)
  have hheight := hs.height_eq he
  have htop : below.head? = some p.block.header := h.first.trans (header?_of_entry hparent)
  refine ⟨?_, ?_, ?_, ?_, ?_⟩
  · rw [List.length_cons, Int.natCast_succ, h.length, hsucc]
  · exact (header?_of_entry he).symm
  · rw [← h.last]
    cases below with
    | nil => simp at htop
    | cons top rest => exact List.getLast?_cons_cons
  · intro i header hi
    cases i with
    | zero =>
        obtain rfl := Option.some.inj hi
        omega
    | succ i =>
        have hbelow := h.heights i header hi
        omega
  · intro i header next hi hnext
    cases i with
    | zero =>
        obtain rfl := Option.some.inj hi
        rw [List.head?_eq_getElem?] at htop
        obtain rfl := Option.some.inj (htop.symm.trans hnext)
        exact hid
    | succ i => exact h.parents i header next hi hnext

theorem Lineage.isDescent (hs : Sound settings t) {id : String} {es : List (Entry T)}
    (h : t.Lineage id es) {e : Entry T} (he : t.entry? id = some e) :
    t.IsDescent id e.height (es.map fun e => e.block.header) := by
  -- the parent of each block is admitted one level lower, which is what ends the walk
  induction h generalizing e with
  | first hf hp =>
      obtain rfl := Option.some.inj (he.symm.trans hf)
      exact hs.isDescent_first he hp
  | next hf hp _ ih =>
      obtain rfl := Option.some.inj (he.symm.trans hf)
      obtain ⟨_, hparent, _⟩ := hs.exists_parent he hp
      exact hs.isDescent_next he hp hparent (ih hparent)

theorem Grown.isDescent (h : Grown settings t) {id : String} {height : Int}
    (hid : t.height? id = some height) : t.IsDescent id height (t.ancestors id) := by
  obtain ⟨e, he, rfl⟩ := Option.map_eq_some_iff.1 hid
  exact (h.lineage_path (has_iff.2 ⟨e, he⟩)).isDescent h.sound he

theorem Grown.exists_height_bestHead (h : Grown settings t) (rule : ForkChoice) :
    ∃ height, t.height? (t.bestHead rule) = some height := by
  obtain ⟨_, hbest⟩ := h.best_bestHead rule
  obtain ⟨e, he⟩ := has_iff.1 (has_of_weight? (mem_weighedLeaves.1 hbest.mem).2)
  exact ⟨e.height, Option.map_eq_some_iff.2 ⟨e, he, rfl⟩⟩

theorem leaves_commit (t : Tree S T E) (id : String) (b : Block T) (post : S) :
    (t.commit id b post).tree.leaves = Text.sort (t.leaves.erase b.header.parent ++ [id]) :=
  leaves_graft t id b post

theorem ancestors_of_missing {id : String} (h : t.has id = false) : t.ancestors id = [] := by
  rw [ancestors, Entry.path_of_find?_eq_none (has_eq_false_iff.1 h)]
  rfl

theorem Evolves.ancestors (hgrown : Grown settings t) (h : t.Evolves u) {id : String}
    (hid : t.has id = true) : u.ancestors id = t.ancestors id := by
  have hline := hgrown.lineage_path hid
  have hline' := (Grown.step hgrown h).lineage_path (h.has hid)
  rw [Tree.ancestors, Tree.ancestors, hline'.unique (hline.mono fun _ _ => h.entry_eq)]

end Tree

theorem Session.run_concat (s : Session S T E) (calls : List (Call S T)) (c : Call S T) :
    s.run (calls ++ [c]) = (s.run calls).step c := by
  rw [run_append, run_cons, run_nil]

theorem Session.run_ancestors {settings : Settings S T E} {s : Session S T E}
    (hgrown : Tree.Grown settings s.tree) {id : String} (hid : s.tree.has id = true)
    (calls : List (Call S T)) : (s.run calls).tree.ancestors id = s.tree.ancestors id := by
  have hrun := run_induction
    (P := fun s' => Tree.Grown settings s'.tree ∧ s'.tree.has id = true ∧
      s'.tree.ancestors id = s.tree.ancestors id)
    (fun hst h => ⟨.step h.1 hst.evolves, hst.evolves.has h.2.1,
      (hst.evolves.ancestors h.1 h.2.1).trans h.2.2⟩) ⟨hgrown, hid, rfl⟩ calls
  exact hrun.2.2

theorem ancestors_are_finite_descents (settings : Settings S T E) {t₀ : Tree S T E}
    (hfound : Tree.found settings = .ok t₀) (calls : List (Call S T)) {s : Session S T E}
    (hs : s = (Session.start t₀).run calls) :
    (∀ id n, (s.tree.descend n (s.tree.entry? id)).map (fun e => e.block.header) =
      (s.tree.ancestors id)[n]?) ∧
    (∀ id, s.tree.has id = false → s.tree.ancestors id = []) ∧
    (∀ id height, s.tree.height? id = some height →
      s.tree.IsDescent id height (s.tree.ancestors id) ∧
      ∀ more, (s.run more).tree.ancestors id = s.tree.ancestors id) ∧
    ∀ r rule, s.rule? r = some rule → ∃ head height, s.head? r = some head ∧
      s.tree.height? head = some height ∧ s.chain? r = some (s.tree.ancestors head).reverse ∧
      s.tree.IsAscent head height (s.tree.ancestors head).reverse := by
  subst hs
  have hgrown := Session.grown_run hfound calls
  have hexact := Session.run_exact (.found hfound) (Session.exact_start hfound) calls
  refine ⟨?_, ?_, ?_, ?_⟩
  · intro id n
    exact hgrown.descend_eq id n
  · intro id hno
    exact Tree.ancestors_of_missing hno
  · intro id height hid
    obtain ⟨e, he, _⟩ := Option.map_eq_some_iff.1 hid
    exact ⟨hgrown.isDescent hid, Session.run_ancestors hgrown (Tree.has_iff.2 ⟨e, he⟩)⟩
  · intro r rule hr
    obtain ⟨height, hheight⟩ := hgrown.exists_height_bestHead rule
    exact ⟨_, height, Session.head?_eq hgrown hexact hr, hheight,
      Session.chain?_eq hgrown hexact hr, (hgrown.isDescent hheight).reverse⟩

namespace Sums

theorem run_until_second (b : Block Int) :
    (Session.start (Tree.first settings genesisId b)).run
        ([.insert second, .insert opening] ++ [.insert second]) =
      .start (((Tree.first settings genesisId b).commit openingId opening ⟨3, 3⟩).tree.commit
        secondId second ⟨8, 15⟩).tree := by
  rw [Session.run_concat, run_second_opening,
    Session.start_step_insert (Tree.insert_of_admits (second_admits b))]

theorem leaves_second (b : Block Int) :
    (((Tree.first settings genesisId b).commit openingId opening ⟨3, 3⟩).tree.commit
      secondId second ⟨8, 15⟩).tree.leaves = [secondId] := by
  rw [Tree.leaves_commit, leaves_opening]
  decide

theorem missing_second (b : Block Int) :
    (((Tree.first settings genesisId b).commit openingId opening ⟨3, 3⟩).tree.commit
      secondId second ⟨8, 15⟩).tree.has "0x" = false := by
  have hsecond : secondId ≠ "0x" := by decide
  have hopening : openingId ≠ "0x" := by decide
  have hgenesis : genesisId ≠ "0x" := by decide
  rw [Tree.has_commit_of_ne _ _ hsecond, Tree.has_commit_of_ne _ _ hopening, Tree.has_first,
    decide_eq_false hgenesis]

end Sums

theorem sums_ancestors_are_finite_descents :
    ∃ t₀ s, Tree.found Sums.settings = .ok t₀ ∧
      s = (Session.start t₀).run
        ([.insert Sums.second, .insert Sums.opening] ++ [.insert Sums.second]) ∧
      s.tree.has "0x" = false ∧ s.tree.ancestors "0x" = [] ∧
      s.tree.height? Sums.secondId = some 2 ∧
      s.tree.IsDescent Sums.secondId 2 (s.tree.ancestors Sums.secondId) ∧
      s.tree.descend 3 (s.tree.entry? Sums.secondId) = none ∧
      s.rule? .own = some Preference.heaviestChain.rule ∧
      s.chain? .own = some (s.tree.ancestors Sums.secondId).reverse ∧
      s.tree.IsAscent Sums.secondId 2 (s.tree.ancestors Sums.secondId).reverse := by
  obtain ⟨b, hfound⟩ := Sums.found_first
  have hrun := Sums.run_until_second b
  have hleaves := Sums.leaves_second b
  have hmissing := Sums.missing_second b
  have hgrown := Session.grown_run hfound
    ([.insert Sums.second, .insert Sums.opening] ++ [.insert Sums.second])
  have hexact := Session.run_exact (.found hfound) (Session.exact_start hfound)
    ([.insert Sums.second, .insert Sums.opening] ++ [.insert Sums.second])
  have hr := Session.own_rule? hfound
    ([.insert Sums.second, .insert Sums.opening] ++ [.insert Sums.second])
  obtain ⟨hwalk, hnothing, hdescent, hchain⟩ := ancestors_are_finite_descents Sums.settings hfound
    ([.insert Sums.second, .insert Sums.opening] ++ [.insert Sums.second]) rfl
  rw [hrun] at hgrown hexact hr hwalk hnothing hdescent hchain
  have hentry : (((Tree.first Sums.settings Sums.genesisId b).commit Sums.openingId Sums.opening
      ⟨3, 3⟩).tree.commit Sums.secondId Sums.second ⟨8, 15⟩).tree.entry? Sums.secondId =
      some ⟨Sums.secondId, Sums.second, some Sums.openingId, 2⟩ :=
    (Tree.entry?_commit ..).trans (if_pos rfl)
  generalize (((Tree.first Sums.settings Sums.genesisId b).commit Sums.openingId Sums.opening
      ⟨3, 3⟩).tree.commit Sums.secondId Sums.second ⟨8, 15⟩).tree = t at *
  have hheight : t.height? Sums.secondId = some 2 := by
    rw [Tree.height?, hentry, Option.map_some]
  obtain ⟨hdescent, _⟩ := hdescent _ _ hheight
  have htop := Session.head?_eq hgrown hexact hr
  rw [hgrown.bestHead_of_single _ hleaves] at htop
  obtain ⟨_, _, hhead, hhigh, hchain, hascent⟩ := hchain _ _ hr
  obtain rfl := Option.some.inj (htop.symm.trans hhead)
  obtain rfl := Option.some.inj (hheight.symm.trans hhigh)
  have hend : t.descend 3 (t.entry? Sums.secondId) = none := by
    have hlength := hdescent.length
    refine Option.map_eq_none_iff.1 ((hwalk Sums.secondId 3).trans ?_)
    exact List.getElem?_eq_none (by omega)
  exact ⟨_, _, hfound, hrun.symm, hmissing, hnothing _ hmissing, hheight, hdescent, hend, hr,
    hchain, hascent⟩

end BlockTree
