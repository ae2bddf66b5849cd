
namespace BlockTree

namespace Assoc

variable {κ α : Type} [DecidableEq κ]

def get? (k : κ) : List (κ × α) → Option α
  | [] => none
  | e :: es => if e.1 = k then some e.2 else get? k es

def set (k : κ) (a : α) : List (κ × α) → List (κ × α)
  | [] => [(k, a)]
  | e :: es => if e.1 = k then (k, a) :: es else e :: set k a es

def erase (k : κ) : List (κ × α) → List (κ × α)
  | [] => []
  | e :: es => if e.1 = k then es else e :: erase k es

def ofList (es : List (κ × α)) : List (κ × α) :=
  es.foldl (fun t e => set e.1 e.2 t) []

theorem mem_keys_set {k j : κ} {a : α} {es : List (κ × α)} :
    j ∈ (set k a es).map Prod.fst ↔ j = k ∨ j ∈ es.map Prod.fst := by
  induction es with
  | nil => simp [set]
  | cons e es ih =>
      unfold set
      split
      · next h => subst h; simp
      · simp only [List.map_cons, List.mem_cons, ih]
        exact or_left_comm

theorem nodup_keys_set {k : κ} {a : α} {es : List (κ × α)}
    (h : (es.map Prod.fst).Nodup) : ((set k a es).map Prod.fst).Nodup := by
  induction es with
  | nil => simp [set]
  | cons e es ih =>
      simp only [List.map_cons, List.nodup_cons] at h
      unfold set
      split
      · next he => subst he; simpa using h
      · next he =>
          simp only [List.map_cons, List.nodup_cons]
          refine ⟨fun hm => ?_, ih h.2⟩
          rcases mem_keys_set.1 hm with hk | hm
          · exact he hk
          · exact h.1 hm

theorem erase_sublist {k : κ} {es : List (κ × α)} : (erase k es).Sublist es := by
  induction es with
  | nil => exact .slnil
  | cons e es ih =>
      unfold erase
      split
      · exact .cons _ (.refl _)
      · exact ih.cons_cons _

theorem nodup_keys_erase {k : κ} {es : List (κ × α)}
    (h : (es.map Prod.fst).Nodup) : ((erase k es).map Prod.fst).Nodup :=
  h.sublist (erase_sublist.map _)

theorem erase_eq_filter {k : κ} {es : List (κ × α)} (h : (es.map Prod.fst).Nodup) :
    erase k es = es.filter fun e => decide (e.1 ≠ k) := by
  induction es with
  | nil => rfl
  | cons e es ih =>
      obtain ⟨he, hes⟩ := List.nodup_cons.1 h
      unfold erase
      split
      · next hk =>
          have hkept : ∀ e' ∈ es, decide (e'.1 ≠ k) = true := by
            intro e' he'
            have hne : e'.1 ≠ k := fun heq => he (hk ▸ heq ▸ List.mem_map_of_mem he')
            simpa using hne
          rw [List.filter_cons_of_neg (by simpa using hk), List.filter_eq_self.2 hkept]
      · next hk => rw [List.filter_cons_of_pos (by simpa using hk), ih hes]

end Assoc

structure Table (κ α : Type) where
  entries : List (κ × α)
  nodup : (entries.map Prod.fst).Nodup

namespace Table

variable {κ α : Type} [DecidableEq κ]

def empty : Table κ α := ⟨[], by simp⟩

def get? (t : Table κ α) (k : κ) : Option α :=
  Assoc.get? k t.entries

def has (t : Table κ α) (k : κ) : Bool :=
  (t.get? k).isSome

def set (t : Table κ α) (k : κ) (a : α) : Table κ α :=
  ⟨Assoc.set k a t.entries, Assoc.nodup_keys_set t.nodup⟩

def erase (t : Table κ α) (k : κ) : Table κ α :=
  ⟨Assoc.erase k t.entries, Assoc.nodup_keys_erase t.nodup⟩

def ofList (es : List (κ × α)) : Table κ α :=
  es.foldl (fun t e => t.set e.1 e.2) empty

omit [DecidableEq κ] in
def size (t : Table κ α) : Nat := t.entries.length

omit [DecidableEq κ] in
def keys (t : Table κ α) : List κ := t.entries.map Prod.fst

omit [DecidableEq κ] in
def values (t : Table κ α) : List α := t.entries.map Prod.snd

@[simp] theorem get?_empty (k : κ) : (empty : Table κ α).get? k = none := rfl

theorem get?_set (t : Table κ α) (k j : κ) (a : α) :
    (t.set k a).get? j = if k = j then some a else t.get? j := by
  unfold set get?
  simp only
  induction t.entries with
  | nil => simp [Assoc.set, Assoc.get?]
  | cons e es ih =>
      simp only [Assoc.set]
      split
      · next h =>
          subst h
          simp only [Assoc.get?]
          split <;> rfl
      · next h =>
          simp only [Assoc.get?, ih]
          split
          · next hj => subst hj; simp [Ne.symm h]
          · rfl

@[simp] theorem get?_set_self (t : Table κ α) (k : κ) (a : α) : (t.set k a).get? k = some a := by
  simp [get?_set]

theorem mem_keys_iff (t : Table κ α) (k : κ) : k ∈ t.keys ↔ (t.get? k).isSome = true := by
  unfold keys get?
  induction t.entries with
  | nil => simp [Assoc.get?]
  | cons e es ih =>
      simp only [List.map_cons, List.mem_cons, Assoc.get?]
      split
      · next h => simp [h]
      · next h => simp [ih, Ne.symm h]

theorem get?_eq_some_iff (t : Table κ α) (k : κ) (a : α) :
    t.get? k = some a ↔ (k, a) ∈ t.entries := by
  obtain ⟨es, hes⟩ := t
  unfold get?
  simp only
  induction es with
  | nil => simp [Assoc.get?]
  | cons e es ih =>
      simp only [List.map_cons, List.nodup_cons] at hes
      rw [Assoc.get?, List.mem_cons]
      split
      · next h =>
          subst h
          have hnot : (e.1, a) ∉ es := fun hmem => hes.1 (List.mem_map.2 ⟨_, hmem, rfl⟩)
          simp [hnot, Prod.ext_iff, eq_comm]
      · next h =>
          have hne : (k, a) ≠ e := fun heq => h (congrArg Prod.fst heq).symm
          simp [hne, ih hes.2]

theorem get?_erase (t : Table κ α) (k j : κ) :
    (t.erase k).get? j = if k = j then none else t.get? j := by
  obtain ⟨es, hes⟩ := t
  unfold erase get?
  simp only
  induction es with
  | nil => simp [Assoc.erase, Assoc.get?]
  | cons e es ih =>
      simp only [List.map_cons, List.nodup_cons] at hes
      have hrest := ih hes.2
      simp only [Assoc.erase]
      split
      · next h =>
          split
          · next hj =>
              have hnot : ¬ (Assoc.get? j es).isSome = true := by
                have := (not_congr (mem_keys_iff ⟨es, hes.2⟩ j)).1 (by
                  simpa [keys, ← hj, ← h] using hes.1)
                simpa [get?] using this
              simpa using hnot
          · next hj => simp [Assoc.get?, h, hj]
      · next h =>
          simp only [Assoc.get?, hrest]
          split
          · next hj => subst hj; simp [Ne.symm h]
          · rfl

theorem entries_erase (t : Table κ α) (k : κ) :
    (t.erase k).entries = t.entries.filter fun e => decide (e.1 ≠ k) :=
  Assoc.erase_eq_filter t.nodup

end Table

end BlockTree
