import BlockTree.Proofs.History
import BlockTree.Proofs.OneLineTexts

namespace BlockTree

variable {S T E : Type}

namespace Validity

variable {v : Validity S T E} {p q : ParentContext S} {xs ys : List (Block T)} {a b : Block T}
  {post : S}

inductive Extends (v : Validity S T E) : ParentContext S → List (Block T) → ParentContext S → Prop where
  | nil (p : ParentContext S) : Extends v p [] p
  | cons {p q : ParentContext S} {b : Block T} {xs : List (Block T)} {id : String} {post : S}
      (h : v.Accepts p b post) (hid : b.header.id = .ok id)
      (hrest : Extends v ⟨id, b.header.height, post⟩ xs q) : Extends v p (b :: xs) q

theorem Extends.snoc (h : v.Extends p xs q) {id : String} {post : S} (hb : v.Accepts q b post)
    (hid : b.header.id = .ok id) : v.Extends p (xs ++ [b]) ⟨id, b.header.height, post⟩ := by
  induction h with
  | nil p => exact .cons hb hid (.nil _)
  | cons hc hcid _ ih => exact .cons hc hcid (ih hb)

structure Anchors (v : Validity S T E) (a : Block T) (p : ParentContext S) : Prop where
  id_eq : a.header.id = .ok p.id
  height_eq : p.height = a.header.height
  stateRoot : v.machine.stateRoot p.state = .ok a.header.stateRoot

theorem Accepts.anchors (h : v.Accepts p b post) {id : String} (hid : b.header.id = .ok id) :
    v.Anchors b ⟨id, b.header.height, post⟩ :=
  ⟨hid, rfl, h.stateRoot⟩

theorem Extends.anchors (h : v.Extends p xs q) (ha : v.Anchors a p) :
    v.Anchors (xs.getLastD a) q := by
  induction h generalizing a with
  | nil p => exact ha
  | cons hb hid _ ih =>
      rw [List.getLastD_cons]
      exact ih (hb.anchors hid)

theorem Anchors.verifySubChain_eq (ha : v.Anchors a p) (xs : List (Block T)) :
    v.verifySubChain a p.state xs = v.verifyFrom 0 p xs := by
  have hp : (⟨p.id, a.header.height, p.state⟩ : ParentContext S) = p := by rw [← ha.height_eq]
  simp only [verifySubChain, ha.stateRoot, ha.id_eq, bind, Except.bind, ne_eq, not_true_eq_false,
    if_false, hp]

inductive Verified (v : Validity S T E) (index : Int) (p : ParentContext S) (xs : List (Block T)) :
    Except Fault (Except (SubChainFailure E) S) → Prop where
  | passed {q : ParentContext S} (h : v.Extends p xs q) : Verified v index p xs (.ok (.ok q.state))
  | failed {ys zs : List (Block T)} {b : Block T} {q : ParentContext S} {reason : Rejection E}
      (hxs : xs = ys ++ b :: zs) (h : v.Extends p ys q)
      (hb : v.check (some q) b = .ok (.error reason)) :
      Verified v index p xs (.ok (.error ⟨index + ys.length, reason⟩))
  | faulted {ys zs : List (Block T)} {b : Block T} {q : ParentContext S} {fault : Fault}
      (hxs : xs = ys ++ b :: zs) (h : v.Extends p ys q) (hb : v.check (some q) b = .error fault) :
      Verified v index p xs (.error fault)

theorem Verified.cons {index : Int} {id : String} {post : S} (hb : v.Accepts p b post)
    (hid : b.header.id = .ok id) {result : Except Fault (Except (SubChainFailure E) S)}
    (h : v.Verified (index + 1) ⟨id, b.header.height, post⟩ xs result) :
    v.Verified index p (b :: xs) result := by
  cases h with
  | passed h => exact .passed (.cons hb hid h)
  | @failed ys zs c q reason hxs h hc =>
      have hindex : index + 1 + (ys.length : Int) = index + (b :: ys).length := by
        rw [List.length_cons]
        omega
      rw [hindex]
      exact .failed (by rw [hxs, List.cons_append]) (.cons hb hid h) hc
  | faulted hxs h hc =>
      exact .faulted (by rw [hxs, List.cons_append]) (.cons hb hid h) hc

theorem verified_verifyFrom (v : Validity S T E) (index : Int) (p : ParentContext S)
    (xs : List (Block T)) : v.Verified index p xs (v.verifyFrom index p xs) := by
  induction xs generalizing index p with
  | nil => exact .passed (.nil p)
  | cons b xs ih =>
      rw [verifyFrom]
      cases hb : v.check (some p) b with
      | error fault => exact .faulted (List.nil_append _).symm (.nil p) hb
      | ok verdict =>
          cases verdict with
          | error reason =>
              have hfailed : v.Verified index p (b :: xs)
                  (.ok (.error ⟨index + ([] : List (Block T)).length, reason⟩)) :=
                .failed rfl (.nil p) hb
              rw [List.length_nil, Int.ofNat_zero, Int.add_zero] at hfailed
              exact hfailed
          | ok post =>
              have haccepts := accepts_of_check hb
              obtain ⟨id, hid, _⟩ := haccepts.digest
              have hrest := ih (index + 1) ⟨id, b.header.height, post⟩
              simp only [bind, Except.bind, hid]
              exact .cons haccepts hid hrest

theorem Extends.verifyFrom_append (h : v.Extends p xs q) (index : Int) (ys : List (Block T)) :
    v.verifyFrom index p (xs ++ ys) = v.verifyFrom (index + xs.length) q ys := by
  induction h generalizing index with
  | nil p => simp
  | @cons p q b xs id post hb hid _ ih =>
      have hindex : index + 1 + (xs.length : Int) = index + (b :: xs).length := by
        rw [List.length_cons]
        omega
      rw [List.cons_append, verifyFrom, (check_eq_ok_iff ..).2 ⟨_, rfl, hb⟩, ← hindex, ← ih]
      simp only [bind, Except.bind, hid]

theorem Extends.verifyFrom_eq (h : v.Extends p xs q) (index : Int) :
    v.verifyFrom index p xs = .ok (.ok q.state) := by
  have happend := h.verifyFrom_append index []
  rwa [List.append_nil] at happend

end Validity

namespace Tree

variable {settings : Settings S T E} {t u : Tree S T E}

theorem Sound.height_eq (hs : Sound settings t) {id : String} {e : Entry T}
    (he : t.entry? id = some e) : e.height = e.block.header.height :=
  congrArg Entry.height (hs.entry_eq he)

-- what is stored under an identifier, whether or not the state counts as present
def Stored (t : Tree S T E) (id : String) (p : ParentContext S) : Prop :=
  ∃ e s, t.entry? id = some e ∧ t.state? id = some s ∧ p = ⟨id, e.height, s⟩

theorem Stored.unique {id : String} {p q : ParentContext S} (hp : t.Stored id p)
    (hq : t.Stored id q) : p = q := by
  obtain ⟨e, s, he, hs, rfl⟩ := hp
  obtain ⟨e', s', he', hs', rfl⟩ := hq
  rw [Option.some.inj (he.symm.trans he'), Option.some.inj (hs.symm.trans hs')]

theorem Stored.parentContext? {id : String} {p : ParentContext S} (h : t.Stored id p)
    (hpresent : t.validity.machine.isPresent p.state = true) : t.parentContext? id = some p := by
  obtain ⟨e, s, he, hs, rfl⟩ := h
  exact parentContext?_eq_some_iff.2 ⟨e, s, he, present?_eq_some_iff.2 ⟨hs, hpresent⟩, rfl⟩

theorem Sound.exists_stored (hs : Sound settings t) {id : String} {e : Entry T}
    (he : t.entry? id = some e) :
    ∃ s, t.state? id = some s ∧ t.Stored id ⟨id, e.height, s⟩ := by
  obtain ⟨s, hst⟩ := hs.exists_state he
  exact ⟨s, hst, e, s, he, hst, rfl⟩

theorem Sound.anchors (hs : Sound settings t) {id : String} {e : Entry T} {s : S}
    (he : t.entry? id = some e) (hst : t.state? id = some s) :
    settings.toValidity.Anchors e.block ⟨id, e.height, s⟩ :=
  ⟨(hs.commits he hst).id_eq, hs.height_eq he, (hs.commits he hst).stateRoot⟩

theorem Sound.verifySubChain_eq (hs : Sound settings t) {id : String} {e : Entry T} {s : S}
    (he : t.entry? id = some e) (hst : t.state? id = some s) (xs : List (Block T)) :
    settings.verifySubChain e.block s xs = settings.verifyFrom 0 ⟨id, e.height, s⟩ xs :=
  (hs.anchors he hst).verifySubChain_eq xs

theorem Lineage.extends (hs : Sound settings t) {id : String} {es newer older : List (Entry T)}
    {a : Entry T} (h : t.Lineage id es) (hes : es = newer ++ a :: older) :
    ∃ pre q, t.entry? a.id = some a ∧ t.state? a.id = some pre ∧ t.Stored id q ∧
      settings.toValidity.Extends ⟨a.id, a.height, pre⟩ (newer.reverse.map Entry.block) q := by
  have anchored : ∀ {x : String} {e : Entry T}, t.entry? x = some e →
      ∃ pre q, t.entry? e.id = some e ∧ t.state? e.id = some pre ∧ t.Stored x q ∧
        settings.toValidity.Extends ⟨e.id, e.height, pre⟩ [] q := by
    intro x e he
    obtain rfl : e.id = x := Entry.id_of_find? he
    obtain ⟨pre, hpre, hstored⟩ := hs.exists_stored he
    exact ⟨pre, _, he, hpre, hstored, .nil _⟩
  -- down the line, with the anchor at the block where nothing newer is left
  induction h generalizing newer with
  | @first id e he _ =>
      cases newer with
      | nil =>
          obtain ⟨rfl, _⟩ := List.cons.inj hes
          exact anchored he
      | cons n newer => simp at hes
  | @next id parent e es he hp _ ih =>
      cases newer with
      | nil =>
          obtain ⟨rfl, _⟩ := List.cons.inj hes
          exact anchored he
      | cons n newer =>
          obtain ⟨rfl, hrest⟩ := List.cons.inj hes
          obtain ⟨pre, q, ha, hpre, hparent, hextends⟩ := ih hrest
          obtain ⟨post, hpost, hself⟩ := hs.exists_stored he
          rcases hs.rests he hpost with ⟨_, hfirst⟩ | hrests
          · simp [hfirst.parent_eq] at hp
          · obtain ⟨ctx, hctx, haccepts⟩ := hrests.accepted
            rw [hrests.parent_eq, Option.some.injEq] at hp
            rw [hp] at hctx
            rw [← hparent.unique (exists_of_parentContext? hctx), hs.validity] at haccepts
            refine ⟨pre, _, ha, hpre, hself, ?_⟩
            rw [List.reverse_cons, List.map_append, hrests.height_eq]
            exact hextends.snoc haccepts hrests.id_eq

def Takes (t : Tree S T E) (b : Block T) : Prop :=
  ∃ id r, b.header.id = .ok id ∧ t.insert b = .ok r ∧ r.result = .ok id

structure Unseen (t : Tree S T E) (xs : List (Block T)) : Prop where
  fresh : ∀ b ∈ xs, b.header.malformedField? = none → ∀ id, b.header.id = .ok id →
    t.has id = false
  distinct : xs.Pairwise fun a b => a.header.malformedField? = none →
    b.header.malformedField? = none → a.header.id ≠ b.header.id

theorem Unseen.commit {b : Block T} {xs : List (Block T)} {id : String} {post : S}
    (h : t.Unseen (b :: xs)) (hb : t.Admits id b post) :
    (t.commit id b post).tree.Unseen xs := by
  obtain ⟨hdistinct, hrest⟩ := List.pairwise_cons.1 h.distinct
  obtain ⟨_, _, haccepts⟩ := hb.accepted
  refine ⟨fun c hc shape x hx => ?_, hrest⟩
  have hne : id ≠ x := by
    rintro rfl
    exact hdistinct c hc haccepts.wellFormed shape (hb.id_eq.trans hx.symm)
  rw [has_commit_of_ne b post hne]
  exact h.fresh c (.tail _ hc) shape x hx

-- a state is stored under the identifier, and is taken for none
def Absent (t : Tree S T E) (id : String) : Prop :=
  ∃ s, t.state? id = some s ∧ t.validity.machine.isPresent s = false

theorem Stored.absent {id : String} {p : ParentContext S} (h : t.Stored id p)
    (habsent : t.validity.machine.isPresent p.state = false) : t.Absent id := by
  obtain ⟨e, s, _, hs, rfl⟩ := h
  exact ⟨s, hs, habsent⟩

theorem Absent.parentContext? {id : String} (h : t.Absent id) : t.parentContext? id = none := by
  obtain ⟨s, hs, habsent⟩ := h
  cases hctx : t.parentContext? id with
  | none => rfl
  | some p =>
      obtain ⟨_, s', _, hs', _⟩ := parentContext?_eq_some_iff.1 hctx
      obtain ⟨hs', hpresent⟩ := present?_eq_some_iff.1 hs'
      rw [Option.some.inj (hs.symm.trans hs'), hpresent] at habsent
      cases habsent

section Checked

variable {b : Block T} {q : ParentContext S}
  (hq : t.Stored q.id q)
  (fresh : b.header.malformedField? = none → ∀ id, b.header.id = .ok id → t.has id = false)

include hq fresh

end Checked

end Tree

namespace Session

variable {settings : Settings S T E} {s : Session S T E}

section Anchored

variable {id : String} {a : Entry T} {pre : S} {xs : List (Block T)}
  (hs : Tree.Sound settings s.tree) (ha : s.tree.entry? id = some a)
  (hpre : s.tree.state? id = some pre) (hunseen : s.tree.Unseen xs)

include hs ha hpre hunseen

end Anchored

end Session

namespace Sums

end Sums

end BlockTree
