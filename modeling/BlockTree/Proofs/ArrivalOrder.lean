import BlockTree.Proofs.Indexes
import BlockTree.Proofs.Weights

namespace BlockTree

variable {S T E : Type}

def Block.IsParentOf (a b : Block T) : Prop :=
  a.header.malformedField? = none ∧ a.header.id = .ok b.header.parent

def Block.Distinct (F : List (Block T)) : Prop :=
  ∀ a ∈ F, ∀ b ∈ F, a.header.malformedField? = none → b.header.malformedField? = none →
    a.header.id = b.header.id → a = b

def Block.Arrive (F xs : List (Block T)) : Prop :=
  (∀ b ∈ xs, b ∈ F) ∧
    ∃ order : List (Block T), order.Sublist xs ∧ (∀ b ∈ F, b ∈ order) ∧
      order.Pairwise fun earlier later => ¬later.IsParentOf earlier

namespace Tree

variable {settings : Settings S T E} {t u : Tree S T E}

structure Agree (t u : Tree S T E) : Prop where
  has : ∀ id, t.has id = u.has id
  entry : ∀ id, t.entry? id = u.entry? id
  height : ∀ id, t.height? id = u.height? id
  state : ∀ id, t.state? id = u.state? id
  size : t.size = u.size
  leaves : t.leaves = u.leaves
  ancestors : ∀ id, t.ancestors id = u.ancestors id
  ownWeight : ∀ id, (t.tally.weightIn t id).1 = (u.tally.weightIn u id).1
  ownHead : (t.tally.headIn t).1 = (u.tally.headIn u).1
  ownChain : (t.tally.chainIn t).1 = (u.tally.chainIn u).1
  weight : ∀ rule id, ((Tally.start rule).weightIn t id).1 = ((Tally.start rule).weightIn u id).1
  head : ∀ rule, ((Tally.start rule).headIn t).1 = ((Tally.start rule).headIn u).1
  chain : ∀ rule, ((Tally.start rule).chainIn t).1 = ((Tally.start rule).chainIn u).1
  children : ∀ id, (t.children id).Perm (u.children id)

def Holds (t : Tree S T E) (e : Entry T) (s : S) : Prop :=
  t.entry? e.id = some e ∧ t.state? e.id = some s

theorem Evolves.holds (h : t.Evolves u) {e : Entry T} {s : S} (ht : t.Holds e s) : u.Holds e s := by
  refine ⟨h.entry_eq ht.1, ?_⟩
  cases h with
  | same tally head => exact ht.2
  | @grown id b post hb tally head =>
      change (t.graft id b post).state? e.id = some s
      rw [state?_graft, if_neg (ne_of_fresh hb.fresh ht.1), ht.2]

theorem Evolves.genesisId_eq (h : t.Evolves u) : u.genesisId = t.genesisId := by
  cases h <;> rfl

inductive HeldAfter (v : Validity S T E) (t : Tree S T E) (b : Block T) : Entry T → S → Prop where
  | old {e : Entry T} {s : S} (h : t.Holds e s) : HeldAfter v t b e s
  | new {id : String} {p : Entry T} {pre post : S} (hid : b.header.id = .ok id)
      (fresh : t.has id = false) (hp : t.Holds p pre) (hpresent : v.machine.isPresent pre = true)
      (h : v.Accepts ⟨p.id, p.height, pre⟩ b post) :
      HeldAfter v t b ⟨id, b, some b.header.parent, b.header.height⟩ post

theorem heldAfter_insert (hs : Sound settings t) {b : Block T} {r : Receipt S T E}
    (hr : t.insert b = .ok r) {e : Entry T} {s : S} (h : r.tree.Holds e s) :
    HeldAfter settings.toValidity t b e s := by
  cases insert_cases hr with
  | malformed _ => exact .old h
  | known _ _ _ => exact .old h
  | rejected _ _ _ _ _ => exact .old h
  | @admitted id post hadm =>
      obtain ⟨he, hst⟩ := h
      change entry? (t.graft id b post) e.id = some e at he
      change (t.graft id b post).state? e.id = some s at hst
      rw [entry?_graft] at he
      rw [state?_graft] at hst
      by_cases hid : id = e.id
      · rw [if_pos hid] at he hst
        obtain rfl := Option.some.inj he
        obtain rfl := Option.some.inj hst
        obtain ⟨ctx, hctx, hacc⟩ := hadm.accepted
        obtain ⟨p, pre, hp, hpre, rfl⟩ := parentContext?_eq_some_iff.1 hctx
        obtain ⟨hpre, hpresent⟩ := present?_eq_some_iff.1 hpre
        have hpid : p.id = b.header.parent := Entry.id_of_find? hp
        rw [← hpid] at hp hpre
        rw [hs.validity] at hpresent
        rw [hs.validity, ← hpid] at hacc
        exact .new hadm.id_eq hadm.fresh ⟨hp, hpre⟩ hpresent hacc
      · rw [if_neg hid] at he hst
        exact .old ⟨he, hst⟩

theorem heldAfter_step {s : Session S T E} (hs : Sound settings s.tree) {b : Block T}
    {e : Entry T} {st : S} (h : (s.step (.insert b)).tree.Holds e st) :
    HeldAfter settings.toValidity s.tree b e st := by
  rw [Session.step, Session.work, Work.leaves_insert] at h
  cases hr : s.tree.insert b with
  | ok r =>
      rw [hr] at h
      exact heldAfter_insert hs hr h
  | error fault =>
      rw [hr] at h
      exact .old h

inductive Placed (v : Validity S T E) (first : Entry T) (s₀ : S) (F : List (Block T)) :
    Entry T → S → Prop where
  | first : Placed v first s₀ F first s₀
  | next {b : Block T} {id : String} {p : Entry T} {s post : S} (hb : b ∈ F)
      (hid : b.header.id = .ok id) (hne : id ≠ first.id) (hp : Placed v first s₀ F p s)
      (hpresent : v.machine.isPresent s = true) (h : v.Accepts ⟨p.id, p.height, s⟩ b post) :
      Placed v first s₀ F ⟨id, b, some b.header.parent, b.header.height⟩ post

section Family

variable {v : Validity S T E} {first : Entry T} {s₀ : S} {F : List (Block T)}

theorem Placed.unique (hF : Block.Distinct F) {e e' : Entry T} {s s' : S}
    (h : Placed v first s₀ F e s) (h' : Placed v first s₀ F e' s') (hid : e.id = e'.id) :
    e = e' ∧ s = s' := by
  induction h generalizing e' s' with
  | first =>
      cases h' with
      | first => exact ⟨rfl, rfl⟩
      | next _ _ hne _ _ _ => exact absurd hid.symm hne
  | @next b id p s post hb hbid hne hp _ hacc ih =>
      cases h' with
      | first => exact absurd hid hne
      | @next b' id' p' s' post' hb' hbid' _ hp' _ hacc' =>
          obtain rfl : id = id' := hid
          obtain rfl : b = b' := hF b hb b' hb' hacc.wellFormed hacc'.wellFormed
            (hbid.trans hbid'.symm)
          obtain ⟨rfl, rfl⟩ := ih hp' (hacc.linked.symm.trans hacc'.linked)
          exact ⟨rfl, hacc.post_eq hacc'⟩

structure Fed (settings : Settings S T E) (first : Entry T) (s₀ : S) (F : List (Block T))
    (t : Tree S T E) : Prop where
  grown : Grown settings t
  root : t.Holds first s₀
  placed : ∀ {e s}, t.Holds e s → Placed settings.toValidity first s₀ F e s

theorem Fed.step {s : Session S T E} (h : Fed settings first s₀ F s.tree) {b : Block T}
    (hb : b ∈ F) : Fed settings first s₀ F (s.step (.insert b)).tree := by
  have hevolves := (s.stepped_step (.insert b)).evolves
  refine ⟨.step h.grown hevolves, hevolves.holds h.root, ?_⟩
  intro e st hholds
  cases heldAfter_step h.grown.sound hholds with
  | old hold => exact h.placed hold
  | new hid fresh hp hpresent hacc =>
      exact .next hb hid (ne_of_fresh fresh h.root.1) (h.placed hp) hpresent hacc

theorem Fed.holds_insert (hF : Block.Distinct F) {s : Session S T E}
    (h : Fed settings first s₀ F s.tree) {b : Block T} {id : String} {p : Entry T} {pre post : S}
    (hb : b ∈ F) (hid : b.header.id = .ok id) (hne : id ≠ first.id)
    (hheld : s.tree.Holds p pre) (hpresent : settings.machine.isPresent pre = true)
    (hacc : settings.toValidity.Accepts ⟨p.id, p.height, pre⟩ b post) :
    (s.step (.insert b)).tree.Holds ⟨id, b, some b.header.parent, b.header.height⟩ post := by
  have hplaced : Placed settings.toValidity first s₀ F
      ⟨id, b, some b.header.parent, b.header.height⟩ post :=
    .next hb hid hne (h.placed hheld) hpresent hacc
  cases hhas : s.tree.has id with
  | true =>
      obtain ⟨e, he⟩ := has_iff.1 hhas
      obtain ⟨st, hst⟩ := h.grown.sound.exists_state he
      have heid : e.id = id := Entry.id_of_find? he
      have hheld' : s.tree.Holds e st := ⟨heid.symm ▸ he, heid.symm ▸ hst⟩
      obtain ⟨rfl, rfl⟩ := (h.placed hheld').unique hF hplaced heid
      exact (s.stepped_step _).evolves.holds hheld'
  | false =>
      have hadm : s.tree.Admits id b post := by
        rw [← h.grown.sound.machine_eq] at hpresent
        refine ⟨hid, hhas, _, parentContext?_eq_some_iff.2
          ⟨p, pre, ?_, present?_eq_some_iff.2 ⟨?_, hpresent⟩, rfl⟩, ?_⟩
        · exact hacc.linked ▸ hheld.1
        · exact hacc.linked ▸ hheld.2
        · rw [h.grown.sound.validity, hacc.linked]
          exact hacc
      rw [Session.step_insert (insert_of_admits hadm)]
      exact ⟨(entry?_graft s.tree id id b post).trans (if_pos rfl),
        (state?_graft s.tree id id b post).trans (if_pos rfl)⟩

theorem Fed.complete (hF : Block.Distinct F) {s : Session S T E}
    (h : Fed settings first s₀ F s.tree) {order xs : List (Block T)} (done : List (Block T))
    (hsub : order.Sublist xs) (hxs : ∀ b ∈ xs, b ∈ F) (hall : ∀ b ∈ F, b ∈ done ∨ b ∈ order)
    (hparents : order.Pairwise fun earlier later => ¬later.IsParentOf earlier)
    (hdone : ∀ {e st}, Placed settings.toValidity first s₀ F e st →
      e = first ∨ e.block ∈ done → s.tree.Holds e st) {e : Entry T} {st : S}
    (he : Placed settings.toValidity first s₀ F e st) :
    (s.run (xs.map .insert)).tree.Holds e st := by
  -- `done` are the blocks of the ordering that came already; whatever rests on these alone is held
  induction hsub generalizing s done with
  | slnil =>
      refine hdone he ?_
      cases he with
      | first => exact .inl rfl
      | next hb _ _ _ _ _ => exact .inr ((hall _ hb).resolve_right (by simp))
  | @cons order xs a hsub ih =>
      have ha : a ∈ F := hxs a (by simp)
      refine ih (h.step ha) done (fun b hb => hxs b (List.mem_cons_of_mem _ hb)) hall hparents
        fun hp hd => ?_
      exact (s.stepped_step _).evolves.holds (hdone hp hd)
  | @cons_cons order xs a hsub ih =>
      have ha : a ∈ F := hxs a (by simp)
      obtain ⟨hlater, hparents⟩ := List.pairwise_cons.1 hparents
      refine ih (h.step ha) (a :: done)
        (fun b hb => hxs b (List.mem_cons_of_mem _ hb)) ?_ hparents ?_
      · intro b hb
        rcases hall b hb with hd | ho
        · exact .inl (List.mem_cons_of_mem _ hd)
        · rcases List.mem_cons.1 ho with rfl | ho
          · exact .inl (by simp)
          · exact .inr ho
      · intro x sx hx hd
        have hevolves := (s.stepped_step (.insert a)).evolves
        rcases hd with rfl | hd
        · exact hevolves.holds (hdone hx (.inl rfl))
        rcases List.mem_cons.1 hd with hxa | hd
        · -- the block that arrives now: its parent is the first block or came before
          cases hx with
          | first => exact hevolves.holds (hdone .first (.inl rfl))
          | @next b id p pre post hb hid hne hp hpresent hacc =>
              obtain rfl : b = a := hxa
              refine h.holds_insert hF hb hid hne (hdone hp ?_) hpresent hacc
              cases hp with
              | first => exact .inl rfl
              | @next c cid q _ _ hc hcid hcne hq _ hcacc =>
                  refine .inr ((hall c hc).resolve_right fun ho => ?_)
                  rcases List.mem_cons.1 ho with rfl | ho
                  · have hself : c.header.height = c.header.height + 1 := hacc.height
                    omega
                  · refine absurd ⟨hcacc.wellFormed, ?_⟩ (hlater c ho)
                    rw [hcid, hacc.linked]
        · exact hevolves.holds (hdone hx (.inr hd))

theorem fed_first {id : String} {b : Block T}
    (h : found settings = .ok (Tree.first settings id b)) (F : List (Block T)) :
    Fed settings ⟨id, b, none, 0⟩ settings.genesisState F (Tree.first settings id b) := by
  refine ⟨.found h,
    ⟨(entry?_first ..).trans (if_pos rfl), (state?_first ..).trans (if_pos rfl)⟩, ?_⟩
  rintro e s ⟨he, hs⟩
  rw [entry?_first] at he
  rw [state?_first] at hs
  split at he
  · rename_i hid
    rw [if_pos hid] at hs
    obtain rfl := Option.some.inj he
    obtain rfl := Option.some.inj hs
    exact .first
  · simp at he

theorem exists_fed_of_found (h : found settings = .ok t) (F : List (Block T)) :
    ∃ first s₀, Fed settings first s₀ F t := by
  obtain ⟨b, id, _, _, rfl⟩ := found_eq_ok_iff.1 h
  exact ⟨_, _, fed_first h F⟩

theorem Fed.run {s : Session S T E} (h : Fed settings first s₀ F s.tree) {xs : List (Block T)}
    (hxs : ∀ b ∈ xs, b ∈ F) : Fed settings first s₀ F (s.run (xs.map .insert)).tree := by
  induction xs generalizing s with
  | nil => exact h
  | cons b xs ih => exact ih (h.step (hxs b (by simp))) fun c hc => hxs c (List.mem_cons_of_mem _ hc)

theorem Fed.holds_iff_placed (hF : Block.Distinct F) {s : Session S T E}
    (h : Fed settings first s₀ F s.tree) {xs : List (Block T)} (hxs : Block.Arrive F xs)
    (e : Entry T) (st : S) :
    (s.run (xs.map .insert)).tree.Holds e st ↔ Placed settings.toValidity first s₀ F e st := by
  obtain ⟨hmem, order, hsub, hall, hparents⟩ := hxs
  refine ⟨(h.run hmem).placed, fun he => ?_⟩
  refine h.complete hF [] hsub hmem (fun b hb => .inr (hall b hb)) hparents ?_ he
  rintro x sx hx (rfl | hno)
  · obtain ⟨_, rfl⟩ := hx.unique hF .first rfl
    exact h.root
  · simp at hno

end Family

theorem Sound.holds_of_entry? (hs : Sound settings t) {id : String} {e : Entry T}
    (he : t.entry? id = some e) : ∃ s, t.Holds e s := by
  have hid : e.id = id := Entry.id_of_find? he
  obtain ⟨s, hst⟩ := hs.exists_state he
  exact ⟨s, hid.symm ▸ he, hid.symm ▸ hst⟩

section Same

variable (ht : Grown settings t) (hu : Grown settings u)
  (hsame : ∀ e s, t.Holds e s ↔ u.Holds e s)

include ht hu hsame

theorem entry?_eq_of_same (id : String) : t.entry? id = u.entry? id := by
  apply Option.ext
  intro e
  constructor
  · intro he
    obtain ⟨s, hs⟩ := ht.sound.holds_of_entry? he
    exact (Entry.id_of_find? he : e.id = id) ▸ ((hsame e s).1 hs).1
  · intro he
    obtain ⟨s, hs⟩ := hu.sound.holds_of_entry? he
    exact (Entry.id_of_find? he : e.id = id) ▸ ((hsame e s).2 hs).1

theorem has_eq_of_same (id : String) : t.has id = u.has id := by
  rw [has, has, entry?_eq_of_same ht hu hsame]

theorem state?_eq_of_same (id : String) : t.state? id = u.state? id := by
  cases hid : t.entry? id with
  | none =>
      have hno : u.entry? id = none := (entry?_eq_of_same ht hu hsame id).symm.trans hid
      have h₁ := ht.sound.stored id
      have h₂ := hu.sound.stored id
      rw [has, hid] at h₁
      rw [has, hno] at h₂
      rw [Option.isSome_eq_false_iff.1 h₁ |> Option.isNone_iff_eq_none.1,
        Option.isSome_eq_false_iff.1 h₂ |> Option.isNone_iff_eq_none.1]
  | some e =>
      obtain ⟨s, hs⟩ := ht.sound.holds_of_entry? hid
      have heid : e.id = id := Entry.id_of_find? hid
      rw [← heid, hs.2, ((hsame e s).1 hs).2]

theorem entries_perm_of_same : t.entries.Perm u.entries := by
  refine (List.perm_ext_iff_of_nodup ht.indexed.entries_nodup hu.indexed.entries_nodup).2
    fun e => ?_
  rw [← entry?_eq_some_iff ht.indexed, ← entry?_eq_some_iff hu.indexed,
    entry?_eq_of_same ht hu hsame]

theorem leaves_eq_of_same : t.leaves = u.leaves := by
  have hperm := entries_perm_of_same ht hu hsame
  refine Text.sort_eq_of_perm
    ((List.perm_ext_iff_of_nodup ht.indexed.tips_nodup hu.indexed.tips_nodup).2 fun id => ?_)
  rw [ht.indexed.tips, hu.indexed.tips, (hperm.map Entry.id).mem_iff]
  simp only [hperm.mem_iff]

theorem children_perm_of_same (id : String) : (t.children id).Perm (u.children id) := by
  rw [ht.indexed.children, hu.indexed.children]
  have hperm := entries_perm_of_same ht hu hsame
  exact (((t.entries.reverse_perm.trans hperm).trans u.entries.reverse_perm.symm).filter _).map _

theorem path_eq_of_same (id : String) : Entry.path id t.entries = Entry.path id u.entries := by
  have hentry := entry?_eq_of_same ht hu hsame
  cases hid : t.has id with
  | true =>
      have hid' : u.has id = true := (has_eq_of_same ht hu hsame id).symm.trans hid
      have hline := (ht.lineage_path hid).mono fun x e he => (hentry x).symm.trans he
      exact hline.unique (hu.lineage_path hid')
  | false =>
      have hno : t.entry? id = none := has_eq_false_iff.1 hid
      have hno' : u.entry? id = none := (hentry id).symm.trans hno
      rw [Entry.path_of_find?_eq_none hno, Entry.path_of_find?_eq_none hno']

theorem weight?_eq_of_same (rule : ForkChoice) (id : String) :
    t.weight? rule id = u.weight? rule id := by
  have hdifficulty : t.difficulty = u.difficulty := by
    rw [difficulty, difficulty, ht.sound.validity, hu.sound.validity]
  rw [weight?, weight?, has_eq_of_same ht hu hsame, path_eq_of_same ht hu hsame, hdifficulty]

theorem bestHead_eq_of_same (hgenesis : t.genesisId = u.genesisId) (rule : ForkChoice) :
    t.bestHead rule = u.bestHead rule := by
  simp only [bestHead, leaves_eq_of_same ht hu hsame, weight?_eq_of_same ht hu hsame, hgenesis]

theorem canonicalChain_eq_of_same (hgenesis : t.genesisId = u.genesisId) (rule : ForkChoice) :
    t.canonicalChain rule = u.canonicalChain rule := by
  simp only [canonicalChain, ancestors, bestHead_eq_of_same ht hu hsame hgenesis,
    path_eq_of_same ht hu hsame]

theorem agree_of_same (hgenesis : t.genesisId = u.genesisId) (htt : t.tally.Exact t)
    (huu : u.tally.Exact u) (hrule : t.tally.rule = u.tally.rule) : Agree t u where
  has := has_eq_of_same ht hu hsame
  entry := entry?_eq_of_same ht hu hsame
  height id := by rw [height?, height?, entry?_eq_of_same ht hu hsame]
  state := state?_eq_of_same ht hu hsame
  size := (entries_perm_of_same ht hu hsame).length_eq
  leaves := leaves_eq_of_same ht hu hsame
  ancestors id := by rw [ancestors, ancestors, path_eq_of_same ht hu hsame]
  ownWeight id := by
    rw [(Tally.weightIn_spec ht htt id).1, (Tally.weightIn_spec hu huu id).1, hrule,
      weight?_eq_of_same ht hu hsame]
  ownHead := by
    rw [(Tally.headIn_spec ht htt).1, (Tally.headIn_spec hu huu).1, hrule,
      bestHead_eq_of_same ht hu hsame hgenesis]
  ownChain := by
    rw [Tally.chainIn_spec ht htt, Tally.chainIn_spec hu huu, hrule,
      canonicalChain_eq_of_same ht hu hsame hgenesis]
  weight rule id := by
    rw [(Tally.weightIn_spec ht (Tally.exact_start t rule) id).1,
      (Tally.weightIn_spec hu (Tally.exact_start u rule) id).1]
    exact weight?_eq_of_same ht hu hsame rule id
  head rule := by
    rw [(Tally.headIn_spec ht (Tally.exact_start t rule)).1,
      (Tally.headIn_spec hu (Tally.exact_start u rule)).1]
    exact bestHead_eq_of_same ht hu hsame hgenesis rule
  chain rule := by
    rw [Tally.chainIn_spec ht (Tally.exact_start t rule),
      Tally.chainIn_spec hu (Tally.exact_start u rule)]
    exact canonicalChain_eq_of_same ht hu hsame hgenesis rule
  children := children_perm_of_same ht hu hsame

end Same

end Tree

theorem Session.run_genesisId (s : Session S T E) (calls : List (Call S T)) :
    (s.run calls).tree.genesisId = s.tree.genesisId :=
  run_induction (P := fun s' => s'.tree.genesisId = s.tree.genesisId)
    (fun hst h => hst.evolves.genesisId_eq.trans h) rfl calls

theorem arrival_order_irrelevant {S T E : Type} (settings : Settings S T E) {t₀ t u : Tree S T E}
    (hfound : Tree.found settings = .ok t₀) {F xs ys : List (Block T)} (hF : Block.Distinct F)
    (hxs : Block.Arrive F xs) (hys : Block.Arrive F ys)
    (ht : t = ((Session.start t₀).run (xs.map .insert)).tree)
    (hu : u = ((Session.start t₀).run (ys.map .insert)).tree) : Tree.Agree t u := by
  subst ht hu
  obtain ⟨first, s₀, hfed⟩ := Tree.exists_fed_of_found hfound F
  have hexact := Session.run_exact (s := Session.start t₀) (.found hfound)
    (Session.exact_start hfound)
  have hrule : ∀ calls : List (Call S T),
      ((Session.start t₀).run calls).tree.tally.rule = t₀.tally.rule := fun calls =>
    Option.some.inj (Session.run_rule? (r := .own) (.found hfound) (Session.exact_start hfound) rfl
      calls)
  refine Tree.agree_of_same (Session.grown_run hfound _) (Session.grown_run hfound _)
    (fun e st => ?_) ?_ (hexact _ .own _ rfl) (hexact _ .own _ rfl)
    ((hrule _).trans (hrule _).symm)
  · rw [hfed.holds_iff_placed (s := Session.start t₀) hF hxs,
      hfed.holds_iff_placed (s := Session.start t₀) hF hys]
  · rw [Session.run_genesisId, Session.run_genesisId]

namespace Sums

theorem distinct : Block.Distinct [opening, second] := by
  have hne : openingId ≠ secondId := by decide
  intro a ha b hb _ _ h
  simp only [List.mem_cons, List.not_mem_nil, or_false] at ha hb
  rcases ha with rfl | rfl <;> rcases hb with rfl | rfl
  · rfl
  · rw [ids.1, ids.2] at h
    exact absurd (Except.ok.inj h) hne
  · rw [ids.1, ids.2] at h
    exact absurd (Except.ok.inj h).symm hne
  · rfl

theorem parents_first :
    [opening, second].Pairwise fun earlier later => ¬later.IsParentOf earlier := by
  refine .cons ?_ (.cons (by simp) .nil)
  rintro later hlater ⟨_, h⟩
  obtain rfl : later = second := by simpa using hlater
  rw [ids.2] at h
  exact absurd (Except.ok.inj h) (by decide)

end Sums

theorem sums_arrival_order_irrelevant :
    ∃ t₀ t u, Tree.found Sums.settings = .ok t₀ ∧
      Block.Arrive [Sums.opening, Sums.second] [Sums.second, Sums.opening, Sums.second] ∧
      Block.Arrive [Sums.opening, Sums.second] [Sums.opening, Sums.opening, Sums.second] ∧
      t = ((Session.start t₀).run ([Sums.second, Sums.opening, Sums.second].map .insert)).tree ∧
      u = ((Session.start t₀).run ([Sums.opening, Sums.opening, Sums.second].map .insert)).tree ∧
      Tree.Agree t u := by
  obtain ⟨t₀, hfound, _⟩ := Sums.run_calls
  have hxs : Block.Arrive [Sums.opening, Sums.second] [Sums.second, Sums.opening, Sums.second] :=
    ⟨by simp, [Sums.opening, Sums.second], .cons _ (.refl _), by simp, Sums.parents_first⟩
  have hys : Block.Arrive [Sums.opening, Sums.second] [Sums.opening, Sums.opening, Sums.second] :=
    ⟨by simp, [Sums.opening, Sums.second], .cons _ (.refl _), by simp, Sums.parents_first⟩
  exact ⟨t₀, _, _, hfound, hxs, hys, rfl, rfl,
    arrival_order_irrelevant Sums.settings hfound Sums.distinct hxs hys rfl rfl⟩

end BlockTree
