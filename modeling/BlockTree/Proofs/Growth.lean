import BlockTree.Proofs.Session
import BlockTree.Proofs.Work

namespace BlockTree

namespace Tree

variable {S T E : Type}

theorem present?_eq_some_iff {t : Tree S T E} {id : String} {s : S} :
    t.present? id = some s ↔ t.state? id = some s ∧ t.validity.machine.isPresent s = true :=
  Option.filter_eq_some_iff

theorem parentContext?_eq_some_iff {t : Tree S T E} {id : String} {p : ParentContext S} :
    t.parentContext? id = some p ↔
      ∃ e s, t.entry? id = some e ∧ t.present? id = some s ∧ p = ⟨id, e.height, s⟩ := by
  unfold parentContext?
  cases t.entry? id <;> cases t.present? id <;> simp [eq_comm]

theorem exists_of_parentContext? {t : Tree S T E} {id : String} {p : ParentContext S}
    (h : t.parentContext? id = some p) :
    ∃ e s, t.entry? id = some e ∧ t.state? id = some s ∧ p = ⟨id, e.height, s⟩ := by
  obtain ⟨e, s, he, hs, rfl⟩ := parentContext?_eq_some_iff.1 h
  exact ⟨e, s, he, (present?_eq_some_iff.1 hs).1, rfl⟩

structure Admits (t : Tree S T E) (id : String) (b : Block T) (post : S) : Prop where
  id_eq : b.header.id = .ok id
  fresh : t.has id = false
  accepted : ∃ parent, t.parentContext? b.header.parent = some parent ∧
    t.validity.Accepts parent b post

inductive Evolves (t : Tree S T E) : Tree S T E → Prop where
  | same (tally : Tally) (head : String) : Evolves t { t with tally, head }
  | grown {id : String} {b : Block T} {post : S} (h : t.Admits id b post) (tally : Tally)
      (head : String) : Evolves t { t.graft id b post with tally, head }

theorem Evolves.refl (t : Tree S T E) : t.Evolves t :=
  .same t.tally t.head

theorem Evolves.after_same {t u : Tree S T E} {tally : Tally} {head : String}
    (h : Evolves { t with tally, head } u) : t.Evolves u := by
  cases h with
  | same tally head => exact .same tally head
  | @grown id b post h tally head =>
      have h' : t.Admits id b post := ⟨h.id_eq, h.fresh, h.accepted⟩
      exact .grown h' tally head

theorem evolves_ownHead (t : Tree S T E) : t.Evolves t.ownHead.2 :=
  .same _ t.head

inductive Inserted (t : Tree S T E) (b : Block T) : Receipt S T E → Prop where
  | malformed {field : Header.Field} (h : b.header.malformedField? = some field) :
      Inserted t b ⟨t, .error (.malformedHeader field), [.malformed field]⟩
  | known {id : String} (shape : b.header.malformedField? = none) (hid : b.header.id = .ok id)
      (h : t.has id = true) : Inserted t b ⟨t, .ok id, []⟩
  | rejected {id : String} {reason : Rejection E} (shape : b.header.malformedField? = none)
      (hid : b.header.id = .ok id) (fresh : t.has id = false)
      (h : t.validity.check (t.parentContext? b.header.parent) b = .ok (.error reason))
      {text : String} (told : reason.describe t.validity.machine.causeValue = .ok text) :
      Inserted t b ⟨t, .error reason, [.rejected id b.header.height reason]⟩
  | admitted {id : String} {post : S} (h : t.Admits id b post) :
      Inserted t b (t.commit id b post)

theorem insert_cases {t : Tree S T E} {b : Block T} {r : Receipt S T E}
    (h : t.insert b = .ok r) : t.Inserted b r := by
  cases shape : b.header.malformedField? with
  | some field =>
      rw [insert_malformed shape] at h
      cases h
      exact .malformed shape
  | none =>
      obtain ⟨id, hid⟩ := Header.exists_id_eq_ok shape
      cases hhas : t.has id with
      | true =>
          rw [insert_known shape hid hhas] at h
          cases h
          exact .known shape hid hhas
      | false =>
          rw [insert_fresh shape hid hhas] at h
          obtain ⟨verdict, hcheck, h⟩ := bind_eq_ok_iff.1 h
          cases verdict with
          | error reason =>
              obtain ⟨text, htext, rfl⟩ := map_eq_ok_iff.1 h
              exact .rejected shape hid hhas hcheck htext
          | ok post =>
              cases h
              exact .admitted ⟨hid, hhas, (Validity.check_eq_ok_iff ..).1 hcheck⟩

theorem insert_of_admits {t : Tree S T E} {id : String} {b : Block T} {post : S}
    (h : t.Admits id b post) : t.insert b = .ok (t.commit id b post) := by
  obtain ⟨_, _, haccepts⟩ := h.accepted
  rw [insert_fresh haccepts.wellFormed h.id_eq h.fresh,
    (Validity.check_eq_ok_iff ..).2 h.accepted]
  rfl

theorem insert_evolves {t : Tree S T E} {b : Block T} {r : Receipt S T E}
    (h : t.insert b = .ok r) : t.Evolves r.tree := by
  cases insert_cases h with
  | malformed _ => exact .refl t
  | known _ _ _ => exact .refl t
  | rejected _ _ _ _ _ => exact .refl t
  | admitted hb => exact .grown hb _ _

inductive Looked (t : Tree S T E) : Tree S T E → Prop where
  | no : Looked t t
  | yes : Looked t t.ownHead.2

inductive Worked (t : Tree S T E) : Tree S T E → Prop where
  | looked {u : Tree S T E} (h : t.Looked u) : Worked t u
  | inserted {u : Tree S T E} {b : Block T} {r : Receipt S T E} (h : t.Looked u)
      (hr : u.insert b = .ok r) : Worked t r.tree

theorem Worked.evolves {t u : Tree S T E} (h : t.Worked u) : t.Evolves u := by
  cases h with
  | looked h =>
      cases h with
      | no => exact .refl t
      | yes => exact t.evolves_ownHead
  | inserted h hr =>
      cases h with
      | no => exact insert_evolves hr
      | yes => exact (insert_evolves hr).after_same

theorem looked_base (t : Tree S T E) (parent? : Option String) :
    t.Looked (t.base parent?).2 := by
  cases parent? with
  | none => exact .yes
  | some id => exact .no

theorem prepare_eq_ok_iff {t u : Tree S T E} {parent? : Option String} {body : List T}
    {drafted : Except (Rejection E) (Draft S T)} :
    t.prepare parent? body = .ok (u, drafted) ↔
      u = (t.base parent?).2 ∧ t.draftUnder (t.base parent?).1 body = .ok drafted := by
  rw [prepare_eq]
  cases t.draftUnder (t.base parent?).1 body with
  | error fault => simp [Except.map]
  | ok drafted => simp [Except.map, eq_comm]

theorem looked_of_prepare {t u : Tree S T E} {parent? : Option String} {body : List T}
    {drafted : Except (Rejection E) (Draft S T)} (h : t.prepare parent? body = .ok (u, drafted)) :
    t.Looked u := by
  obtain ⟨rfl, _⟩ := prepare_eq_ok_iff.1 h
  exact t.looked_base parent?

theorem insert_of_submit {t : Tree S T E} {draft : Draft S T} {nonce : Int} {r : Receipt S T E}
    (h : t.submit draft nonce = .ok r) :
    ∃ r' log, t.insert (draft.sealWith nonce) = .ok r' ∧ r = { r' with log } := by
  rw [submit_eq] at h
  obtain ⟨receipt, hinsert, rfl⟩ := map_eq_ok_iff.1 h
  exact ⟨receipt, _, hinsert, markMined_eq draft nonce receipt⟩

inductive Produced (t : Tree S T E) (parent? : Option String) (body : List T)
    (o : Mining.Options) : Receipt S T E → Prop where
  | refused {u : Tree S T E} {reason : Rejection E}
      (h : t.prepare parent? body = .ok (u, .error reason)) :
      Produced t parent? body o ⟨u, .error reason, []⟩
  | submitted {u : Tree S T E} {draft : Draft S T} {nonce : Int} {r : Receipt S T E}
      (h : t.prepare parent? body = .ok (u, .ok draft))
      (hmine : Mining.mine draft.header u.difficulty o = .ok (some nonce))
      (hr : u.submit draft nonce = .ok r) : Produced t parent? body o r

theorem produce_cases {t : Tree S T E} {parent? : Option String} {body : List T}
    {o : Mining.Options} {r : Receipt S T E} (h : t.produce parent? body o = .ok (some r)) :
    t.Produced parent? body o r := by
  rw [produce_eq] at h
  obtain ⟨drafted, hdraft, h⟩ := bind_eq_ok_iff.1 h
  have hprepare := prepare_eq_ok_iff.2 ⟨rfl, hdraft⟩
  cases drafted with
  | error reason =>
      cases h
      exact .refused hprepare
  | ok draft =>
      obtain ⟨mined, hmine, h⟩ := bind_eq_ok_iff.1 h
      cases mined with
      | none => cases h
      | some nonce =>
          obtain ⟨receipt, hsubmit, h⟩ := bind_eq_ok_iff.1 h
          cases h
          exact .submitted hprepare hmine hsubmit

theorem worked_of_produce {t : Tree S T E} {parent? : Option String} {body : List T}
    {o : Mining.Options} {r : Receipt S T E} (h : t.produce parent? body o = .ok (some r)) :
    t.Worked r.tree := by
  cases produce_cases h with
  | refused hprepare => exact .looked (looked_of_prepare hprepare)
  | submitted hprepare _ hsubmit =>
      obtain ⟨r', log, hinsert, rfl⟩ := insert_of_submit hsubmit
      exact .inserted (r := r') (looked_of_prepare hprepare) hinsert

end Tree

inductive Tally.Answered {S T E : Type} (t : Tally) (tree : Tree S T E) : Tally → Prop where
  | weight (id : String) : Answered t tree (t.weightIn tree id).2
  | head : Answered t tree (t.headIn tree).2

namespace Session

variable {S T E : Type}

inductive Stepped (s : Session S T E) : Session S T E → Prop where
  | worked {u : Tree S T E} (h : s.tree.Worked u) : Stepped s { s with tree := u }
  | handedIn (rule : ForkChoice) : Stepped s { s with tallies := s.tallies ++ [.start rule] }
  | asked {r : Asked} {t t' : Tally} (ht : s.tally? r = some t) (h : t.Answered s.tree t') :
      Stepped s (s.keep t' r)

theorem Stepped.refl (s : Session S T E) : s.Stepped s :=
  .worked (.looked .no)

theorem stepped_ask {α : Type} (s : Session S T E) (r : Asked)
    (question : Tally → Tree S T E → α × Tally)
    (h : ∀ t : Tally, t.Answered s.tree (question t s.tree).2) :
    s.Stepped (s.ask r question).2 := by
  unfold ask
  split
  · exact .refl s
  · rename_i t ht
    exact .asked ht (h t)

theorem stepped_work {α : Type} {s : Session S T E} {w : Work S T E α}
    (h : s.tree.Worked (w.leaves s.tree)) : s.Stepped (s.work w) :=
  .worked h

theorem stepped_step (s : Session S T E) (c : Call S T) : s.Stepped (s.step c) := by
  cases c with
  | insert b =>
      refine stepped_work ?_
      rw [Work.leaves_insert]
      split
      · rename_i h
        exact .inserted .no h
      · exact .looked .no
  | prepare parent? body =>
      refine stepped_work ?_
      rw [Work.leaves_prepare]
      exact .looked (s.tree.looked_base parent?)
  | submit draft nonce =>
      refine stepped_work ?_
      rw [Work.leaves_submit]
      split
      · rename_i h
        obtain ⟨r, log, hr, rfl⟩ := Tree.insert_of_submit h
        exact .inserted (r := r) .no hr
      · exact .looked .no
  | produce parent? body o =>
      refine stepped_work ?_
      rw [Work.leaves_produce]
      split
      · rename_i h
        exact Tree.worked_of_produce h
      · exact .looked (s.tree.looked_base parent?)
  | handIn rule => exact .handedIn rule
  | weight r id => exact s.stepped_ask r _ fun _ => .weight id
  | head r => exact s.stepped_ask r _ fun _ => .head
  | chain r => exact s.stepped_ask r _ fun _ => .head

theorem step_insert {s : Session S T E} {b : Block T} {r : Receipt S T E}
    (h : s.tree.insert b = .ok r) : s.step (.insert b) = { s with tree := r.tree } := by
  rw [step, work, Work.leaves_insert, h]

theorem start_step_insert {t : Tree S T E} {b : Block T} {r : Receipt S T E}
    (h : t.insert b = .ok r) : (start t).step (.insert b) = start r.tree :=
  step_insert h

theorem tree_step_weight (s : Session S T E) (place : Nat) (id : String) :
    (s.step (.weight (.handedIn place) id)).tree = s.tree := by
  simp only [step, ask]
  split <;> rfl

theorem Stepped.evolves {s s' : Session S T E} (h : s.Stepped s') : s.tree.Evolves s'.tree := by
  cases h with
  | worked h => exact h.evolves
  | handedIn rule => exact .refl _
  | @asked r t t' _ _ =>
      cases r with
      | own => exact .same t' s.tree.head
      | handedIn i => exact .refl _

theorem run_induction {P : Session S T E → Prop}
    (hstep : ∀ {s s' : Session S T E}, s.Stepped s' → P s → P s') {s : Session S T E} (h : P s)
    (calls : List (Call S T)) : P (s.run calls) := by
  induction calls generalizing s with
  | nil => exact h
  | cons c calls ih => exact ih (hstep (s.stepped_step c) h)

end Session

end BlockTree
