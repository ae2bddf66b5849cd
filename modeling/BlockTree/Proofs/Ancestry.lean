import BlockTree.Proofs.Growth

namespace BlockTree

namespace Entry

variable {T : Type}

theorem find?_cons (id : String) (e : Entry T) (es : List (Entry T)) :
    find? id (e :: es) = if e.id = id then some e else find? id es := by
  unfold find?
  rw [List.find?_cons]
  by_cases h : e.id = id <;> simp [h]

theorem id_of_find? {id : String} {es : List (Entry T)} {e : Entry T}
    (h : find? id es = some e) : e.id = id := by
  simpa using List.find?_some h

theorem path_of_find?_eq_none {id : String} {es : List (Entry T)} (h : find? id es = none) :
    path id es = [] := by
  induction es with
  | nil => rfl
  | cons e es ih =>
      rw [find?_cons] at h
      split at h
      · simp at h
      · rename_i hid
        rw [path, if_neg hid, ih h]

end Entry

namespace Tree

variable {S T E : Type} {settings : Settings S T E} {t u : Tree S T E}

theorem entry?_graft (t : Tree S T E) (id x : String) (b : Block T) (post : S) :
    entry? (t.graft id b post) x =
      if id = x then some ⟨id, b, some b.header.parent, b.header.height⟩ else t.entry? x :=
  Entry.find?_cons ..

theorem state?_graft (t : Tree S T E) (id x : String) (b : Block T) (post : S) :
    (t.graft id b post).state? x = if id = x then some post else t.state? x :=
  Table.get?_set ..

theorem present?_graft (t : Tree S T E) (id x : String) (b : Block T) (post : S) :
    (t.graft id b post).present? x =
      if id = x then (some post).filter t.validity.machine.isPresent else t.present? x := by
  rw [present?, state?_graft]
  split <;> rfl

theorem has_iff {x : String} : t.has x = true ↔ ∃ e, t.entry? x = some e := by
  rw [has, Option.isSome_iff_exists]

theorem has_eq_false_iff {x : String} : t.has x = false ↔ t.entry? x = none := by
  simp [has]

theorem entry?_commit (t : Tree S T E) (id x : String) (b : Block T) (post : S) :
    (t.commit id b post).tree.entry? x =
      if id = x then some ⟨id, b, some b.header.parent, b.header.height⟩ else t.entry? x :=
  entry?_graft t id x b post

theorem state?_commit (t : Tree S T E) (id x : String) (b : Block T) (post : S) :
    (t.commit id b post).tree.state? x = if id = x then some post else t.state? x :=
  state?_graft t id x b post

theorem size_commit (t : Tree S T E) (id : String) (b : Block T) (post : S) :
    (t.commit id b post).tree.size = t.size + 1 :=
  rfl

theorem parentContext?_commit_self {post : S} (h : t.validity.machine.isPresent post = true)
    (id : String) (b : Block T) :
    (t.commit id b post).tree.parentContext? id = some ⟨id, b.header.height, post⟩ :=
  parentContext?_eq_some_iff.2 ⟨_, post, (entry?_commit ..).trans (if_pos rfl),
    present?_eq_some_iff.2 ⟨(state?_commit ..).trans (if_pos rfl), h⟩, rfl⟩

theorem has_graft_of_ne {id x : String} (b : Block T) (post : S) (hne : id ≠ x) :
    (t.graft id b post).has x = t.has x := by
  rw [has, entry?_graft, if_neg hne]
  rfl

theorem has_commit_of_ne {id x : String} (b : Block T) (post : S) (hne : id ≠ x) :
    (t.commit id b post).tree.has x = t.has x :=
  has_graft_of_ne b post hne

theorem ne_of_fresh {id x : String} {e : Entry T} (fresh : t.has id = false)
    (h : t.entry? x = some e) : id ≠ x := by
  rintro rfl
  rw [has_eq_false_iff.1 fresh] at h
  simp at h

theorem entry?_graft_of_some {id x : String} {b : Block T} (post : S) {e : Entry T}
    (fresh : t.has id = false) (h : t.entry? x = some e) :
    entry? (t.graft id b post) x = some e := by
  rw [entry?_graft, if_neg (ne_of_fresh fresh h), h]

theorem Evolves.entry_eq (h : t.Evolves u) {x : String} {e : Entry T}
    (he : t.entry? x = some e) : u.entry? x = some e := by
  cases h with
  | same tally head => exact he
  | @grown id b post hb tally head => exact entry?_graft_of_some post hb.fresh he

theorem Evolves.has (h : t.Evolves u) {x : String} (hx : t.has x = true) : u.has x = true := by
  obtain ⟨e, he⟩ := has_iff.1 hx
  exact has_iff.2 ⟨e, h.entry_eq he⟩

def first (settings : Settings S T E) (id : String) (b : Block T) : Tree S T E where
  validity := settings.toValidity
  genesisId := id
  entries := [⟨id, b, none, 0⟩]
  states := Table.empty.set id settings.genesisState
  childIndex := .empty
  tips := [id]
  tally := .start settings.forkChoice
  head := id

theorem entry?_first (settings : Settings S T E) (id x : String) (b : Block T) :
    entry? (first settings id b) x = if id = x then some ⟨id, b, none, 0⟩ else none :=
  Entry.find?_cons ..

theorem state?_first (settings : Settings S T E) (id x : String) (b : Block T) :
    (first settings id b).state? x = if id = x then some settings.genesisState else none :=
  Table.get?_set ..

theorem has_first (settings : Settings S T E) (id x : String) (b : Block T) :
    (first settings id b).has x = decide (id = x) := by
  rw [has, entry?_first]
  by_cases h : id = x <;> simp [h]

theorem parentContext?_first {settings : Settings S T E}
    (h : settings.machine.isPresent settings.genesisState = true) (id : String) (b : Block T) :
    (first settings id b).parentContext? id = some ⟨id, 0, settings.genesisState⟩ :=
  parentContext?_eq_some_iff.2 ⟨_, _, (entry?_first ..).trans (if_pos rfl),
    present?_eq_some_iff.2 ⟨(state?_first ..).trans (if_pos rfl), h⟩, rfl⟩

theorem found_eq_ok_iff {settings : Settings S T E} {t : Tree S T E} :
    found settings = .ok t ↔
      ∃ b id, settings.machine.genesisBlock settings.genesisState = .ok b ∧
        b.header.id = .ok id ∧ first settings id b = t := by
  rw [found, bind_eq_ok_iff]
  apply exists_congr
  intro b
  rw [bind_pure_eq_ok_iff, exists_and_left]
  rfl

inductive Grown (settings : Settings S T E) : Tree S T E → Prop where
  | found {t : Tree S T E} (h : found settings = .ok t) : Grown settings t
  | step {t u : Tree S T E} (h : Grown settings t) (hu : t.Evolves u) : Grown settings u

structure Rests (t : Tree S T E) (id : String) (e : Entry T) (post : S) : Prop where
  id_eq : e.block.header.id = .ok id
  parent_eq : e.parent = some e.block.header.parent
  height_eq : e.height = e.block.header.height
  accepted : ∃ parent, t.parentContext? e.block.header.parent = some parent ∧
    t.validity.Accepts parent e.block post

structure IsFirst (settings : Settings S T E) (id : String) (e : Entry T) (s : S) : Prop where
  genesis : settings.machine.genesisBlock settings.genesisState = .ok e.block
  id_eq : e.block.header.id = .ok id
  parent_eq : e.parent = none
  height_eq : e.height = 0
  state_eq : s = settings.genesisState

structure Sound (settings : Settings S T E) (t : Tree S T E) : Prop where
  validity : t.validity = settings.toValidity
  first : ∃ e s, t.entry? t.genesisId = some e ∧ t.state? t.genesisId = some s ∧
    IsFirst settings t.genesisId e s
  stored : ∀ id, (t.state? id).isSome = t.has id
  rests : ∀ {id e s}, t.entry? id = some e → t.state? id = some s →
    (id = t.genesisId ∧ IsFirst settings id e s) ∨ t.Rests id e s

theorem Sound.machine_eq (hs : Sound settings t) : t.validity.machine = settings.machine :=
  congrArg Validity.machine hs.validity

theorem parentContext?_graft {id x : String} {b : Block T} {post : S} {p : ParentContext S}
    (fresh : t.has id = false) (h : t.parentContext? x = some p) :
    (t.graft id b post).parentContext? x = some p := by
  obtain ⟨e, s, he, hs, rfl⟩ := parentContext?_eq_some_iff.1 h
  refine parentContext?_eq_some_iff.2 ⟨e, s, entry?_graft_of_some post fresh he, ?_, rfl⟩
  rw [present?_graft, if_neg (ne_of_fresh fresh he), hs]

theorem parentContext?_commit {id x : String} (b : Block T) (post : S) {p : ParentContext S}
    (fresh : t.has id = false) (h : t.parentContext? x = some p) :
    (t.commit id b post).tree.parentContext? x = some p :=
  parentContext?_graft fresh h

theorem Rests.graft {id x : String} {b : Block T} {post s : S} {e : Entry T}
    (fresh : t.has id = false) (h : t.Rests x e s) : (t.graft id b post).Rests x e s := by
  obtain ⟨parent, hparent, haccepts⟩ := h.accepted
  exact ⟨h.id_eq, h.parent_eq, h.height_eq, parent, parentContext?_graft fresh hparent, haccepts⟩

theorem sound_of_found (h : found settings = .ok t) : Sound settings t := by
  obtain ⟨b, id, hb, hid, rfl⟩ := found_eq_ok_iff.1 h
  refine ⟨rfl, ⟨⟨id, b, none, 0⟩, settings.genesisState, ?_, ?_, hb, hid, rfl, rfl, rfl⟩, ?_, ?_⟩
  · exact (entry?_first ..).trans (if_pos rfl)
  · exact (state?_first ..).trans (if_pos rfl)
  · intro x
    simp only [has, entry?_first, state?_first]
    split <;> rfl
  · intro x e s he hs
    rw [entry?_first] at he
    rw [state?_first] at hs
    split at he
    · rename_i hx
      subst hx
      simp only [if_true, Option.some.injEq] at hs he
      subst he hs
      exact .inl ⟨rfl, hb, hid, rfl, rfl, rfl⟩
    · simp at he

theorem Sound.graft {id : String} {b : Block T} {post : S} (hs : Sound settings t)
    (h : t.Admits id b post) : Sound settings (t.graft id b post) := by
  obtain ⟨e, s, he, hst, hfirst⟩ := hs.first
  have hst' : (t.graft id b post).state? t.genesisId = some s := by
    rw [state?_graft, if_neg (ne_of_fresh h.fresh he), hst]
  refine ⟨hs.validity, ⟨e, s, entry?_graft_of_some post h.fresh he, hst', hfirst⟩, ?_, ?_⟩
  · intro x
    have := hs.stored x
    simp only [has, state?_graft, entry?_graft] at this ⊢
    split
    · rfl
    · exact this
  · intro x e s he hst
    rw [entry?_graft] at he
    rw [state?_graft] at hst
    split at he
    · rename_i hx
      subst hx
      simp only [if_true, Option.some.injEq] at he hst
      subst he hst
      obtain ⟨parent, hparent, haccepts⟩ := h.accepted
      exact .inr ⟨h.id_eq, rfl, rfl, parent, parentContext?_graft h.fresh hparent, haccepts⟩
    · rename_i hx
      rw [if_neg hx] at hst
      exact (hs.rests he hst).imp_right (Rests.graft h.fresh)

theorem Sound.retally (hs : Sound settings t) (tally : Tally) (head : String) :
    Sound settings { t with tally, head } := by
  refine ⟨hs.validity, hs.first, hs.stored, fun he hst => ?_⟩
  rcases hs.rests he hst with hf | hr
  · exact .inl hf
  · exact .inr ⟨hr.id_eq, hr.parent_eq, hr.height_eq, hr.accepted⟩

theorem Grown.sound (h : Grown settings t) : Sound settings t := by
  induction h with
  | found h => exact sound_of_found h
  | step _ hu ih =>
      cases hu with
      | same tally head => exact ih.retally tally head
      | grown h tally head => exact (ih.graft h).retally tally head

theorem Sound.exists_state (hs : Sound settings t) {id : String} {e : Entry T}
    (he : t.entry? id = some e) : ∃ s, t.state? id = some s := by
  have hstored := hs.stored id
  rw [has, he] at hstored
  exact Option.isSome_iff_exists.1 hstored

theorem Sound.parent_eq_none_iff (hs : Sound settings t) {id : String} {e : Entry T}
    (he : t.entry? id = some e) : e.parent = none ↔ id = t.genesisId := by
  obtain ⟨g, _, hg, _, hfirst⟩ := hs.first
  obtain ⟨s, hst⟩ := hs.exists_state he
  constructor
  · intro hp
    rcases hs.rests he hst with ⟨hid, _⟩ | hr
    · exact hid
    · simp [hr.parent_eq] at hp
  · intro hid
    rw [hid, hg] at he
    rw [← Option.some.inj he]
    exact hfirst.parent_eq

inductive Lineage (t : Tree S T E) : String → List (Entry T) → Prop where
  | first {id : String} {e : Entry T} (he : t.entry? id = some e) (hp : e.parent = none) :
      Lineage t id [e]
  | next {id parent : String} {e : Entry T} {es : List (Entry T)} (he : t.entry? id = some e)
      (hp : e.parent = some parent) (h : Lineage t parent es) : Lineage t id (e :: es)

theorem Lineage.has {id : String} {es : List (Entry T)} (h : t.Lineage id es) :
    t.has id = true := by
  cases h with
  | first he _ => exact has_iff.2 ⟨_, he⟩
  | next he _ _ => exact has_iff.2 ⟨_, he⟩

theorem Lineage.unique {id : String} {es fs : List (Entry T)} (he : t.Lineage id es)
    (hf : t.Lineage id fs) : es = fs := by
  induction he generalizing fs with
  | first he hp =>
      cases hf with
      | first he' _ => rw [Option.some.inj (he.symm.trans he')]
      | next he' hp' _ =>
          rw [← Option.some.inj (he.symm.trans he'), hp] at hp'
          simp at hp'
  | next he hp _ ih =>
      cases hf with
      | first he' hp' =>
          rw [← Option.some.inj (he.symm.trans he'), hp] at hp'
          simp at hp'
      | next he' hp' h' =>
          have heq := Option.some.inj (he.symm.trans he')
          rw [← heq, hp, Option.some.injEq] at hp'
          subst hp'
          rw [heq, ih h']

theorem Lineage.mono (h : ∀ x e, t.entry? x = some e → u.entry? x = some e) {id : String}
    {es : List (Entry T)} (hes : t.Lineage id es) : u.Lineage id es := by
  induction hes with
  | first he hp => exact .first (h _ _ he) hp
  | next he hp _ ih => exact .next (h _ _ he) hp ih

theorem path_graft {id x : String} (b : Block T) (post : S) (hne : id ≠ x) :
    Entry.path x (t.graft id b post).entries = Entry.path x t.entries := by
  change Entry.path x (_ :: t.entries) = _
  rw [Entry.path, if_neg hne]

theorem path_graft_self (t : Tree S T E) (id : String) (b : Block T) (post : S) :
    Entry.path id (t.graft id b post).entries =
      ⟨id, b, some b.header.parent, b.header.height⟩ :: Entry.path b.header.parent t.entries := by
  change Entry.path id (_ :: t.entries) = _
  rw [Entry.path, if_pos rfl]

theorem Grown.lineage_path (h : Grown settings t) {x : String} (hx : t.has x = true) :
    t.Lineage x (Entry.path x t.entries) := by
  -- newer entries stand first, so the rest of a path is read off the tree as it was before
  induction h generalizing x with
  | found h =>
      obtain ⟨b, id, _, _, rfl⟩ := found_eq_ok_iff.1 h
      obtain ⟨e, he⟩ := has_iff.1 hx
      rw [entry?_first] at he
      split at he
      · rename_i hid
        subst hid
        have hpath : Entry.path id (first settings id b).entries = [⟨id, b, none, 0⟩] := by
          simp [first, Entry.path]
        rw [hpath]
        exact .first ((entry?_first ..).trans (if_pos rfl)) rfl
      · simp at he
  | @step t u h hu ih =>
      have hkeep : ∀ {x : String}, t.has x = true → u.Lineage x (Entry.path x t.entries) :=
        fun hx => (ih hx).mono fun _ _ => hu.entry_eq
      cases hu with
      | same tally head => exact hkeep hx
      | @grown id b post hb tally head =>
          change Lineage _ x (Entry.path x (t.graft id b post).entries)
          by_cases hid : id = x
          · subst hid
            rw [path_graft_self]
            obtain ⟨parent, hparent, _⟩ := hb.accepted
            obtain ⟨e, s, he, _, _⟩ := parentContext?_eq_some_iff.1 hparent
            exact .next ((entry?_graft t id id b post).trans (if_pos rfl)) rfl
              (hkeep (has_iff.2 ⟨e, he⟩))
          · rw [path_graft b post hid]
            have hx' : t.has x = true := by
              obtain ⟨e, he⟩ := has_iff.1 hx
              change entry? (t.graft id b post) x = some e at he
              rw [entry?_graft, if_neg hid] at he
              exact has_iff.2 ⟨e, he⟩
            exact hkeep hx'

end Tree

namespace Session

variable {S T E : Type} {settings : Settings S T E}

theorem run_grown {s : Session S T E} (h : Tree.Grown settings s.tree) (calls : List (Call S T)) :
    Tree.Grown settings (s.run calls).tree :=
  run_induction (P := fun s => Tree.Grown settings s.tree) (fun hst h => .step h hst.evolves) h calls

theorem grown_run {t : Tree S T E} (h : Tree.found settings = .ok t) (calls : List (Call S T)) :
    Tree.Grown settings ((start t).run calls).tree :=
  run_grown (s := start t) (.found h) calls

end Session

end BlockTree
