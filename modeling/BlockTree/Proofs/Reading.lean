import BlockTree.Reading

namespace BlockTree.Reading

variable {α β γ κ : Type}

theorem result_eq_ok_iff {r : Reading α} {a : α} :
    r.result = .ok a ↔ r.value = some a ∧ r.issues = [] := by
  obtain ⟨value, issues⟩ := r
  cases value <;> cases issues <;> simp [result]

@[simp] theorem result_hold (a b : α) : (hold a).result = .ok b ↔ a = b := by
  simp [result_eq_ok_iff, hold]

@[simp] theorem result_refuse (p : Problem) (a : α) : (refuse p).result ≠ .ok a := by
  simp [result, refuse]

@[simp] theorem result_misfit (expected : String) (j : Json) (a : α) :
    (misfit expected j).result ≠ .ok a :=
  result_refuse _ a

@[simp] theorem result_under {key : String} {r : Reading α} {a : α} :
    (r.under key).result = .ok a ↔ r.result = .ok a := by
  simp [result_eq_ok_iff, under]

theorem result_require {holds : α → Bool} {problem : α → Problem} {r : Reading α} {a : α} :
    (r.require holds problem).result = .ok a ↔ r.result = .ok a ∧ holds a = true := by
  unfold require
  cases hr : r.value with
  | none => simp [result_eq_ok_iff, hr]
  | some b =>
      cases hb : holds b with
      | false =>
          have hne : b = a → holds a = false := fun heq => heq ▸ hb
          simp_all [result_eq_ok_iff]
      | true =>
          have heq : r.result = .ok a → holds a = true := fun h => by
            obtain rfl := Option.some.inj (hr.symm.trans (result_eq_ok_iff.1 h).1)
            exact hb
          simp only [hb, if_true]
          exact ⟨fun h => ⟨h, heq h⟩, And.left⟩

theorem result_convert {f : α → Option β} {r : Reading α} {b : β} :
    (r.convert f).result = .ok b ↔ ∃ a, r.result = .ok a ∧ f a = some b := by
  simp only [convert, result_eq_ok_iff]
  split
  · rename_i h
    simp [h, Option.bind_eq_some_iff]
  · rename_i h
    simp [h]

theorem result_combine {f : α → β → γ} {r : Reading α} {s : Reading β} {c : γ} :
    (combine f r s).result = .ok c ↔ ∃ a b, r.result = .ok a ∧ s.result = .ok b ∧ f a b = c := by
  simp only [combine, result_eq_ok_iff, List.append_eq_nil_iff]
  constructor
  · rintro ⟨hvalue, hr, hs⟩
    split at hvalue
    · rename_i a b ha hb
      exact ⟨a, b, ⟨ha, hr⟩, ⟨hb, hs⟩, Option.some.inj hvalue⟩
    · simp at hvalue
  · rintro ⟨a, b, ⟨ha, hr⟩, ⟨hb, hs⟩, rfl⟩
    rw [ha, hb]
    exact ⟨rfl, hr, hs⟩

theorem result_object {read : List (String × Json) → Reading α} {j : Json} {a : α} :
    (object read j).result = .ok a ↔ ∃ fields, j.fields? = some fields ∧
      (read fields).result = .ok a := by
  unfold object
  cases j.fields? <;> simp

theorem result_field {key : String} {read : Json → Reading α} {fields : List (String × Json)}
    {a : α} : (field key read fields).result = .ok a ↔
      ∃ j, Assoc.get? key fields = some j ∧ (read j).result = .ok a := by
  unfold field
  cases Assoc.get? key fields with
  | none => simp [result]
  | some j => simp

theorem result_optionalField {key : String} {read : Json → Reading α}
    {fields : List (String × Json)} {a : Option α} :
    (optionalField key read fields).result = .ok a ↔
      match Assoc.get? key fields with
      | none => a = none
      | some j => ∃ b, a = some b ∧ (read j).result = .ok b := by
  unfold optionalField
  cases Assoc.get? key fields with
  | none => exact (result_hold none a).trans eq_comm
  | some j =>
      simp only [result_eq_ok_iff, under, Option.map_eq_some_iff, List.map_eq_nil_iff]
      constructor
      · rintro ⟨⟨b, hb, rfl⟩, hissues⟩
        exact ⟨b, rfl, hb, hissues⟩
      · rintro ⟨b, rfl, hb, hissues⟩
        exact ⟨⟨b, hb, rfl⟩, hissues⟩

theorem mem_items {read : Json → Reading α} {index : Nat} {xs : List Json} {as : List α}
    (h : (items read index xs).result = .ok as) {a : α} (ha : a ∈ as) :
    ∃ x ∈ xs, (read x).result = .ok a := by
  induction xs generalizing index as with
  | nil =>
      obtain rfl := (result_hold [] as).1 h
      simp at ha
  | cons x xs ih =>
      obtain ⟨b, bs, hb, hbs, rfl⟩ := result_combine.1 h
      rcases List.mem_cons.1 ha with rfl | ha
      · exact ⟨x, .head _, result_under.1 hb⟩
      · obtain ⟨y, hy, hread⟩ := ih hbs ha
        exact ⟨y, .tail _ hy, hread⟩

theorem mem_array {read : Json → Reading α} {j : Json} {as : List α}
    (h : (array read j).result = .ok as) {a : α} (ha : a ∈ as) :
    ∃ x, (read x).result = .ok a := by
  unfold array at h
  split at h
  · obtain ⟨x, _, hread⟩ := mem_items h ha
    exact ⟨x, hread⟩
  · simp at h

theorem mem_entries {readKey : Json → Reading κ} {read : Json → Reading α}
    {fields : List (String × Json)} {es : List (κ × α)}
    (h : (entries readKey read fields).result = .ok es) {e : κ × α} (he : e ∈ es) :
    ∃ f ∈ fields, (readKey (.text f.1)).result = .ok e.1 ∧ (read f.2).result = .ok e.2 := by
  induction fields generalizing es with
  | nil =>
      obtain rfl := (result_hold [] es).1 h
      simp at he
  | cons f fields ih =>
      obtain ⟨e', rest, hentry, hrest, rfl⟩ := result_combine.1 h
      obtain ⟨k, a, hk, ha, rfl⟩ := result_combine.1 hentry
      rcases List.mem_cons.1 he with rfl | he
      · exact ⟨f, .head _, result_under.1 hk, result_under.1 ha⟩
      · obtain ⟨g, hg, hread⟩ := ih hrest he
        exact ⟨g, .tail _ hg, hread⟩

theorem mem_record {readKey : Json → Reading κ} {read : Json → Reading α} {j : Json}
    {es : List (κ × α)} (h : (record readKey read j).result = .ok es) {e : κ × α} (he : e ∈ es) :
    ∃ x, (read x).result = .ok e.2 := by
  obtain ⟨fields, _, h⟩ := result_object.1 h
  obtain ⟨f, _, _, hread⟩ := mem_entries h he
  exact ⟨f.2, hread⟩

end BlockTree.Reading
