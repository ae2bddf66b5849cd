import BlockTree.Proofs.Rearrangement
import Mathlib.Data.Fintype.Card

namespace BlockTree

theorem Sorting.insert_filter {α : Type} {le : α → α → Bool}
    (trans : ∀ a b c, le a b = true → le b c = true → le a c = true) (p : α → Bool) (x : α)
    {ys : List α} (h : ys.Pairwise (le · · = true)) :
    (insert le x ys).filter p =
      if p x then insert le x (ys.filter p) else ys.filter p := by
  induction h with
  | nil => by_cases hpx : p x <;> simp [insert, hpx]
  | @cons y ys hy hys ih =>
      rw [insert]
      split
      case isTrue hxy =>
        have hle : ∀ z ∈ (y :: ys).filter p, le x z = true := by
          intro z hz
          rcases List.mem_cons.1 (List.mem_filter.1 hz).1 with rfl | hz
          · exact hxy
          · exact trans _ _ _ hxy (hy z hz)
        rw [insert_of_le hle, List.filter_cons]
      case isFalse hxy =>
        rw [List.filter_cons, List.filter_cons, ih]
        by_cases hpy : p y <;> by_cases hpx : p x <;> simp [hpy, hpx, insert, hxy]

theorem Sorting.sort_filter {α : Type} {le : α → α → Bool}
    (total : ∀ a b, le a b = true ∨ le b a = true)
    (trans : ∀ a b c, le a b = true → le b c = true → le a c = true) (p : α → Bool)
    (xs : List α) : sort le (xs.filter p) = (sort le xs).filter p := by
  induction xs with
  | nil => rfl
  | cons x xs ih =>
      rw [sort, insert_filter trans p x (sort_pairwise total trans xs), List.filter_cons]
      split
      · rw [sort, ih]
      · exact ih

def Value.isPlain : Value → Bool
  | .list _ | .record _ | .dict _ | .set _ | .enclosing _ => false
  | _ => true

inductive Slot (n : Nat) where
  | plain (v : Value) (h : v.isPlain = true)
  | container (a : Fin n)

inductive Container (n : Nat) where
  | list (items : List (Slot n))
  | record (fields : List (String × Slot n))
  | dict (entries : List (Slot n × Slot n))
  | set (members : List (Slot n))

abbrev Store (n : Nat) := Fin n → Container n

variable {n : Nat}

def Slot.isAbsent : Slot n → Bool
  | .plain .absent _ => true
  | _ => false

namespace Container

def slots : Container n → List (Slot n)
  | .list items => items
  | .record fields => fields.map Prod.snd
  | .dict entries => entries.flatMap fun e => [e.1, e.2]
  | .set members => members

def value (f : Slot n → Value) : Container n → Value
  | .list items => .list (items.map f)
  | .record fields => .record (fields.map fun e => (e.1, f e.2))
  | .dict entries => .dict (entries.map fun e => (f e.1, f e.2))
  | .set members => .set (members.map f)

def namedSlots (fields : List (String × Slot n)) : List (String × Slot n) :=
  (Sorting.sort (fun a b => Text.le a.1 b.1) fields).filter fun e => !e.2.isAbsent

def form {m : Type → Type} [Monad m] (f : Slot n → m Term) : Container n → m Term
  | .list items => do
      let ts ← items.mapM f
      return .list ts
  | .record fields => do
      let ts ← (namedSlots fields).mapM fun e => do
        let t ← f e.2
        return .list [.bytes (Text.utf8 e.1), t]
      return .list ts
  | .dict entries => do
      let ts ← entries.mapM fun e => do
        let k ← f e.1
        let v ← f e.2
        return .list [k, v]
      return .list (Term.sort ts)
  | .set members => do
      let ts ← members.mapM f
      return .list (Term.sort ts)

end Container

inductive Halt where
  | fault (f : Fault)
  | tooDeep

abbrev Walk (n : Nat) := ExceptT Halt (StateM (Finset (Fin n)))

namespace Walk

variable {α β : Type}

def answer (result : Except Fault α) : Walk n α :=
  ExceptT.mk (pure (result.mapError .fault))

def inside (a : Fin n) (w : Walk n α) : Walk n α := do
  if a ∈ (← get) then throw (.fault .circular)
  modify (insert a)
  try w finally modify (·.erase a)

end Walk

theorem card_compl_cons_lt {around : List (Fin n)} {a : Fin n} (h : a ∉ around) :
    (a :: around).toFinsetᶜ.card < around.toFinsetᶜ.card := by
  rw [List.toFinset_cons, Finset.compl_insert]
  exact Finset.card_erase_lt_of_mem (Finset.mem_compl.2 (List.mem_toFinset.not.2 h))

namespace Store

def canonical (store : Store n) : Nat → Slot n → Walk n Term
  | _, .plain v _ => .answer v.canonical
  | 0, .container a => .inside a (throw .tooDeep)
  | depth + 1, .container a => .inside a ((store a).form (store.canonical depth))

def encode (store : Store n) (depth : Nat) (s : Slot n) : Walk n Bytes := do
  let t ← store.canonical depth s
  return t.encode

def writtenOut (store : Store n) (around : List (Fin n)) : Slot n → Value
  | .plain v _ => v
  | .container a =>
      if _h : a ∈ around then .enclosing (around.idxOf a)
      else (store a).value fun s => store.writtenOut (a :: around) s
termination_by around.toFinsetᶜ.card
decreasing_by exact card_compl_cons_lt _h

theorem writtenOut_plain (store : Store n) (around : List (Fin n)) {v : Value}
    (h : v.isPlain = true) : store.writtenOut around (.plain v h) = v := by
  rw [writtenOut]

theorem writtenOut_of_mem (store : Store n) {around : List (Fin n)} {a : Fin n} (h : a ∈ around) :
    store.writtenOut around (.container a) = .enclosing (around.idxOf a) := by
  rw [writtenOut, dif_pos h]

theorem writtenOut_of_notMem (store : Store n) {around : List (Fin n)} {a : Fin n}
    (h : a ∉ around) : store.writtenOut around (.container a) =
      (store a).value (store.writtenOut (a :: around)) := by
  rw [writtenOut, dif_neg h]

theorem walk_induction (store : Store n) {P : List (Fin n) → Slot n → Prop}
    (plain : ∀ around v h, P around (.plain v h))
    (enclosing : ∀ around a, a ∈ around → P around (.container a))
    (enter : ∀ around a, a ∉ around → (∀ s ∈ (store a).slots, P (a :: around) s) →
      P around (.container a)) (around : List (Fin n)) (s : Slot n) : P around s := by
  induction hleft : around.toFinsetᶜ.card using Nat.strongRecOn generalizing around s with
  | ind left ih =>
      cases s with
      | plain v h => exact plain around v h
      | container a =>
          by_cases ha : a ∈ around
          · exact enclosing around a ha
          · exact enter around a ha fun s _ => ih _ (hleft ▸ card_compl_cons_lt ha) _ s rfl

end Store

namespace Walk

variable {α β : Type} {around : Finset (Fin n)}

def Yields (w : Walk n α) (around : Finset (Fin n)) (result : Except Fault α) : Prop :=
  w.run.run around = (result.mapError .fault, around)

theorem yields_answer (result : Except Fault α) : (answer result).Yields around result := rfl

theorem yields_pure (a : α) : (pure a : Walk n α).Yields around (pure a) := rfl

theorem Yields.bind {w : Walk n α} {f : α → Walk n β} {r : Except Fault α}
    {g : α → Except Fault β} (hw : w.Yields around r) (hf : ∀ a, (f a).Yields around (g a)) :
    (w >>= f).Yields around (r >>= g) := by
  unfold Yields at hw ⊢
  rw [ExceptT.run_bind, StateT.run_bind, hw]
  cases r with
  | error fault => rfl
  | ok a => exact hf a

theorem yields_mapM {f : α → Walk n β} {g : α → Except Fault β} {xs : List α}
    (h : ∀ x ∈ xs, (f x).Yields around (g x)) : (xs.mapM f).Yields around (xs.mapM g) := by
  induction xs with
  | nil => exact yields_pure []
  | cons x xs ih =>
      rw [List.mapM_cons, List.mapM_cons]
      refine (h x (.head _)).bind fun y => ?_
      exact (ih fun z hz => h z (.tail _ hz)).bind fun ys => yields_pure (y :: ys)

theorem run_finally (w : Walk n α) (f : Finset (Fin n) → Finset (Fin n)) :
    (tryFinally w (modify f) : Walk n α).run.run around =
      ((w.run.run around).1, f (w.run.run around).2) := by
  cases hw : w.run.run around with
  | mk r s =>
      have hrun : w around = (r, s) := hw
      cases r with
      | ok a =>
          simp only [tryFinally, tryFinally', ExceptT.run, StateT.run, bind, StateT.bind,
            ExceptT.mk, Functor.map, ExceptT.map, hrun]
          rfl
      | error e =>
          simp only [tryFinally, tryFinally', ExceptT.run, StateT.run, bind, StateT.bind,
            ExceptT.mk, Functor.map, ExceptT.map, hrun]
          rfl

theorem run_inside (a : Fin n) (w : Walk n α) :
    (inside a w).run.run around =
      if a ∈ around then (.error (.fault .circular), around)
      else ((w.run.run (insert a around)).1, (w.run.run (insert a around)).2.erase a) := by
  have hcheck : (inside a w).run.run around =
      (if a ∈ around then throw (.fault .circular) else do
        modify (insert a)
        tryFinally w (modify (·.erase a)) : Walk n α).run.run around := rfl
  rw [hcheck]
  split
  · rfl
  · exact run_finally w (·.erase a)

theorem yields_inside_of_mem {a : Fin n} (ha : a ∈ around) (w : Walk n α) :
    (inside a w).Yields around (.error .circular) := by
  rw [Yields, run_inside, if_pos ha]
  rfl

theorem Yields.inside {a : Fin n} (ha : a ∉ around) {w : Walk n α} {r : Except Fault α}
    (hw : w.Yields (insert a around) r) : (inside a w).Yields around r := by
  rw [Yields, run_inside, if_neg ha, hw, Finset.erase_insert ha]

theorem Yields.form {f : Slot n → Walk n Term} {g : Slot n → Except Fault Term} {c : Container n}
    (h : ∀ s ∈ c.slots, (f s).Yields around (g s)) : (c.form f).Yields around (c.form g) := by
  cases c with
  | list items => exact (yields_mapM h).bind fun ts => yields_pure (Term.list ts)
  | set members => exact (yields_mapM h).bind fun ts => yields_pure (Term.list (Term.sort ts))
  | record fields =>
      refine (yields_mapM fun e he => ?_).bind fun ts => yields_pure (Term.list ts)
      have hslot : e.2 ∈ (Container.record fields).slots :=
        List.mem_map_of_mem (Sorting.mem_sort.1 (List.mem_filter.1 he).1)
      exact (h e.2 hslot).bind fun t => yields_pure (Term.list [.bytes (Text.utf8 e.1), t])
  | dict entries =>
      refine (yields_mapM fun e he => ?_).bind fun ts => yields_pure (Term.list (Term.sort ts))
      have hslots : ∀ s ∈ [e.1, e.2], s ∈ (Container.dict entries).slots :=
        fun s hs => List.mem_flatMap.2 ⟨e, he, hs⟩
      refine (h e.1 (hslots _ (by simp))).bind fun k => ?_
      exact (h e.2 (hslots _ (by simp))).bind fun v => yields_pure (Term.list [k, v])

end Walk

theorem Value.collect_map_eq_mapM {α β : Type} (f : α → Except Fault β) (xs : List α) :
    collect (xs.map f) = xs.mapM f := by
  induction xs with
  | nil => rfl
  | cons x xs ih => rw [List.map_cons, collect, List.mapM_cons, ih]

namespace Container

variable {f : Slot n → Value}

theorem canonicalFields_map (hf : ∀ s, f s = .absent ↔ s.isAbsent = true)
    (fields : List (String × Slot n)) :
    Value.canonicalFields (fields.map fun e => (e.1, f e.2)) =
      (fields.filter fun e => !e.2.isAbsent).map fun e => (e.1, (f e.2).canonical) := by
  induction fields with
  | nil => rfl
  | cons e fields ih =>
      rw [List.map_cons, List.filter_cons]
      by_cases he : e.2.isAbsent = true
      · rw [(hf e.2).2 he, Value.canonicalFields, ih, he]
        rfl
      · rw [Value.canonicalFields, ih, Bool.eq_false_iff.2 he]
        · rfl
        · exact (hf e.2).not.2 he

theorem canonical_value (hf : ∀ s, f s = .absent ↔ s.isAbsent = true) (c : Container n) :
    (c.value f).canonical = c.form fun s => (f s).canonical := by
  cases c with
  | list items =>
      rw [value, Value.canonical, Value.canonicalItems_eq_map, List.map_map,
        Value.collect_map_eq_mapM]
      rfl
  | set members =>
      rw [value, Value.canonical, Value.canonicalItems_eq_map, List.map_map,
        Value.collect_map_eq_mapM]
      rfl
  | dict entries =>
      rw [value, Value.canonical, Value.canonicalEntries_eq_map, List.map_map,
        Value.collect_map_eq_mapM]
      rfl
  | record fields =>
      have hsorted : Sorting.sort (fun a b => Text.le a.1 b.1)
          (Value.canonicalFields (fields.map fun e => (e.1, f e.2))) =
          (namedSlots fields).map fun e => (e.1, (f e.2).canonical) := by
        rw [canonicalFields_map hf, ← Sorting.map_sort _ fun _ _ => rfl, namedSlots,
          Sorting.sort_filter]
        · exact fun a b => Text.le_total a.1 b.1
        · exact fun a b c => Text.le_trans a.1 b.1 c.1
      rw [value, Value.canonical, Value.collectFields, hsorted, List.map_map,
        Value.collect_map_eq_mapM, form]
      rfl

end Container

namespace Store

theorem writtenOut_eq_absent_iff (store : Store n) (around : List (Fin n)) (s : Slot n) :
    store.writtenOut around s = .absent ↔ s.isAbsent = true := by
  cases s with
  | plain v h =>
      rw [writtenOut_plain]
      cases v <;> simp [Slot.isAbsent]
  | container a =>
      have hne : store.writtenOut around (.container a) ≠ .absent := by
        by_cases ha : a ∈ around
        · rw [writtenOut_of_mem store ha]
          nofun
        · rw [writtenOut_of_notMem store ha]
          cases store a <;> nofun
      simp [hne, Slot.isAbsent]

theorem canonical_container (store : Store n) (depth : Nat) (a : Fin n) :
    store.canonical (depth + 1) (.container a) =
      .inside a ((store a).form (store.canonical depth)) := rfl

theorem yields_canonical (store : Store n) (around : List (Fin n)) (s : Slot n) :
    ∀ depth, n ≤ around.toFinset.card + depth →
      (store.canonical depth s).Yields around.toFinset (store.writtenOut around s).canonical := by
  induction around, s using store.walk_induction with
  | plain around v h =>
      intro depth _
      rw [writtenOut_plain, canonical]
      exact Walk.yields_answer _
  | enclosing around a ha =>
      intro depth _
      rw [writtenOut_of_mem store ha]
      cases depth <;> exact Walk.yields_inside_of_mem (List.mem_toFinset.2 ha) _
  | enter around a ha ih =>
      intro depth hdepth
      have hnew : a ∉ around.toFinset := List.mem_toFinset.not.2 ha
      -- the container itself is still to be entered, so some depth is left
      have hroom : around.toFinset.card < n := by
        have hlt := Finset.card_lt_univ_of_notMem hnew
        rwa [Fintype.card_fin] at hlt
      obtain ⟨rest, rfl⟩ : ∃ rest, depth = rest + 1 := ⟨depth - 1, by omega⟩
      rw [canonical_container, writtenOut_of_notMem store ha,
        Container.canonical_value (store.writtenOut_eq_absent_iff _)]
      refine (Walk.Yields.form fun s hs => ?_).inside hnew
      rw [← List.toFinset_cons]
      refine ih s hs rest ?_
      rw [List.toFinset_cons, Finset.card_insert_of_notMem hnew]
      omega

theorem yields_encode (store : Store n) (s : Slot n) {depth : Nat} (h : n ≤ depth) :
    (store.encode depth s).Yields ∅ (store.writtenOut [] s).encode := by
  refine (store.yields_canonical [] s depth ?_).bind fun t => Walk.yields_pure t.encode
  rwa [List.toFinset_nil, Finset.card_empty, Nat.zero_add]

end Store

end BlockTree
