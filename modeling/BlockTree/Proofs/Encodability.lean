import BlockTree.Commitment
import BlockTree.Proofs.ValueEncoding

namespace BlockTree

namespace Value

inductive Flaw : Value → Fault → Prop where
  | integer {n : Int} (h : n < 0) : Flaw (.integer n) (.negativeInteger n)
  | number {x : Number} (h : x.safeNat? = none) : Flaw (.number x) (.unsafeNumber x)
  | symbol : Flaw .symbol (.unencodable .symbol)
  | function (answer : Except String Value) : Flaw (.function answer) (.unencodable .function)
  | enclosing (depth : Nat) : Flaw (.enclosing depth) .circular
  | item {items : List Value} {v : Value} {fault : Fault} (hv : v ∈ items) (h : Flaw v fault) :
      Flaw (.list items) fault
  | field {fields : List (String × Value)} {k : String} {v : Value} {fault : Fault}
      (hv : (k, v) ∈ fields) (h : Flaw v fault) : Flaw (.record fields) fault
  | key {entries : List (Value × Value)} {k v : Value} {fault : Fault} (hv : (k, v) ∈ entries)
      (h : Flaw k fault) : Flaw (.dict entries) fault
  | entry {entries : List (Value × Value)} {k v : Value} {fault : Fault} (hv : (k, v) ∈ entries)
      (h : Flaw v fault) : Flaw (.dict entries) fault
  | member {members : List Value} {v : Value} {fault : Fault} (hv : v ∈ members)
      (h : Flaw v fault) : Flaw (.set members) fault

section Collect

variable {α : Type}

theorem error_mem_of_collect {xs : List (Except Fault α)} {fault : Fault}
    (h : collect xs = .error fault) : .error fault ∈ xs := by
  induction xs with
  | nil => simp [collect] at h
  | cons x xs ih =>
      cases x with
      | error e =>
          obtain rfl : e = fault := by simpa [collect, bind, Except.bind] using h
          exact .head _
      | ok a =>
          refine .tail _ (ih ?_)
          cases hrest : collect xs with
          | error e => simpa [collect, hrest, bind, Except.bind] using h
          | ok as => simp [collect, hrest, bind, Except.bind, pure, Except.pure] at h

theorem collect_of_error_mem {xs : List (Except Fault α)} {fault : Fault} (h : .error fault ∈ xs) :
    ∃ reported, collect xs = .error reported := by
  cases hxs : collect xs with
  | error reported => exact ⟨reported, rfl⟩
  | ok as =>
      obtain ⟨a, _, ha⟩ := mem_of_collect hxs h
      simp at ha

end Collect

mutual

theorem flaw_of_canonical : ∀ {v : Value} {fault : Fault}, v.canonical = .error fault → v.Flaw fault
  | .null, _, h => by simp [canonical] at h
  | .absent, _, h => by simp [canonical] at h
  | .bool _, _, h => by simp [canonical] at h
  | .text _, _, h => by simp [canonical] at h
  | .bytes _, _, h => by simp [canonical] at h
  | .boxed _, _, h => by simp [canonical] at h
  | .failure _, _, h => by simp [canonical] at h
  | .number x, fault, h => by
      rw [canonical] at h
      split at h
      · simp at h
      · rename_i hunsafe
        obtain rfl := Except.error.inj h
        exact .number hunsafe
  | .integer n, fault, h => by
      rw [canonical] at h
      split at h
      · rename_i hn
        obtain rfl := Except.error.inj h
        exact .integer hn
      · simp at h
  | .symbol, fault, h => by
      obtain rfl := Except.error.inj h
      exact .symbol
  | .function answer, fault, h => by
      obtain rfl := Except.error.inj h
      exact .function answer
  | .enclosing depth, fault, h => by
      obtain rfl := Except.error.inj h
      exact .enclosing depth
  | .list items, fault, h => by
      obtain ⟨v, hv, hflaw⟩ :=
        flaw_of_canonicalItems (error_mem_of_collect (bind_pure_eq_error_iff.1 h))
      exact .item hv hflaw
  | .set members, fault, h => by
      obtain ⟨v, hv, hflaw⟩ :=
        flaw_of_canonicalItems (error_mem_of_collect (bind_pure_eq_error_iff.1 h))
      exact .member hv hflaw
  | .record fields, fault, h => by
      obtain ⟨⟨k, c⟩, hc, hfault⟩ :=
        List.mem_map.1 (error_mem_of_collect (bind_pure_eq_error_iff.1 h))
      cases c with
      | ok t => simp [Except.map] at hfault
      | error e =>
          obtain rfl : e = fault := by simpa [Except.map] using hfault
          obtain ⟨v, hv, hflaw⟩ := flaw_of_canonicalFields (Sorting.mem_sort.1 hc)
          exact .field hv hflaw
  | .dict entries, fault, h => by
      obtain ⟨k, v, hv, hflaw⟩ :=
        flaw_of_canonicalEntries (error_mem_of_collect (bind_pure_eq_error_iff.1 h))
      exact hflaw.elim (.key hv) (.entry hv)

theorem flaw_of_canonicalItems : ∀ {vs : List Value} {fault : Fault},
    .error fault ∈ canonicalItems vs → ∃ v, v ∈ vs ∧ v.Flaw fault
  | [], _, h => by simp [canonicalItems] at h
  | v :: vs, fault, h => by
      rw [canonicalItems, List.mem_cons] at h
      rcases h with h | h
      · exact ⟨v, .head _, flaw_of_canonical h.symm⟩
      · obtain ⟨w, hw, hflaw⟩ := flaw_of_canonicalItems h
        exact ⟨w, .tail _ hw, hflaw⟩

theorem flaw_of_canonicalFields : ∀ {fs : List (String × Value)} {k : String} {fault : Fault},
    (k, .error fault) ∈ canonicalFields fs → ∃ v, (k, v) ∈ fs ∧ v.Flaw fault
  | [], _, _, h => by simp [canonicalFields] at h
  | (k', v) :: fs, k, fault, h => by
      have hmem : (k, .error fault) = (k', v.canonical) ∨ (k, .error fault) ∈ canonicalFields fs := by
        cases v with
        | absent => exact .inr h
        | _ => exact List.mem_cons.1 h
      rcases hmem with heq | hmem
      · obtain ⟨rfl, hv⟩ := Prod.mk.inj heq
        exact ⟨v, .head _, flaw_of_canonical hv.symm⟩
      · obtain ⟨w, hw, hflaw⟩ := flaw_of_canonicalFields hmem
        exact ⟨w, .tail _ hw, hflaw⟩

theorem flaw_of_canonicalEntries : ∀ {es : List (Value × Value)} {fault : Fault},
    .error fault ∈ canonicalEntries es → ∃ k v, (k, v) ∈ es ∧ (k.Flaw fault ∨ v.Flaw fault)
  | [], _, h => by simp [canonicalEntries] at h
  | (k, v) :: es, fault, h => by
      rw [canonicalEntries, List.mem_cons] at h
      rcases h with h | h
      · rcases bind_eq_error_iff.1 h.symm with hk | ⟨_, _, h⟩
        · exact ⟨k, v, .head _, .inl (flaw_of_canonical hk)⟩
        · exact ⟨k, v, .head _, .inr (flaw_of_canonical (bind_pure_eq_error_iff.1 h))⟩
      · obtain ⟨k', v', hmem, hflaw⟩ := flaw_of_canonicalEntries h
        exact ⟨k', v', .tail _ hmem, hflaw⟩

end

theorem Flaw.ne_absent {v : Value} {fault : Fault} (h : v.Flaw fault) : v ≠ .absent := by
  cases h <;> simp

theorem canonical_dict_of_error {entries : List (Value × Value)} {k v : Value} {fault : Fault}
    (hv : (k, v) ∈ entries) (h : (do
      let s ← k.canonical
      let t ← v.canonical
      return Term.list [s, t]) = .error fault) :
    ∃ reported, (dict entries).canonical = .error reported := by
  have hmem : .error fault ∈ canonicalEntries entries := by
    rw [canonicalEntries_eq_map, ← h]
    exact List.mem_map_of_mem hv
  obtain ⟨reported, hreported⟩ := collect_of_error_mem hmem
  exact ⟨reported, bind_pure_eq_error_iff.2 hreported⟩

theorem canonical_of_flaw {v : Value} {fault : Fault} (h : v.Flaw fault) :
    ∃ reported, v.canonical = .error reported := by
  -- a container fails as one of its parts does, though perhaps not the first
  induction h with
  | integer hn => exact ⟨_, by rw [canonical, if_pos hn]⟩
  | number hx => exact ⟨_, by rw [canonical, hx]⟩
  | symbol => exact ⟨_, rfl⟩
  | function answer => exact ⟨_, rfl⟩
  | enclosing depth => exact ⟨_, rfl⟩
  | @item items v _ hv _ ih | @member items v _ hv _ ih =>
      obtain ⟨e, he⟩ := ih
      have hmem : .error e ∈ canonicalItems items := by
        rw [canonicalItems_eq_map, ← he]
        exact List.mem_map_of_mem hv
      obtain ⟨reported, h⟩ := collect_of_error_mem hmem
      exact ⟨reported, bind_pure_eq_error_iff.2 h⟩
  | @field fields k v _ hv hflaw ih =>
      obtain ⟨e, he⟩ := ih
      have hfield := mem_canonicalFields.2 ⟨v, hv, hflaw.ne_absent, he.symm⟩
      cases hfields : collectFields (canonicalFields fields) with
      | error reported => exact ⟨reported, bind_pure_eq_error_iff.2 hfields⟩
      | ok ts =>
          obtain ⟨t, _, ht⟩ :=
            mem_of_collect hfields (List.mem_map_of_mem (Sorting.mem_sort.2 hfield))
          simp [Except.map] at ht
  | @key entries k v _ hv _ ih =>
      obtain ⟨e, he⟩ := ih
      exact canonical_dict_of_error hv (bind_eq_error_iff.2 (.inl he))
  | @entry entries k v _ hv _ ih =>
      obtain ⟨e, he⟩ := ih
      cases hk : k.canonical with
      | error e' => exact canonical_dict_of_error hv (bind_eq_error_iff.2 (.inl hk))
      | ok t =>
          exact canonical_dict_of_error hv
            (bind_eq_error_iff.2 (.inr ⟨t, hk, bind_pure_eq_error_iff.2 he⟩))

theorem encode_eq_error_iff {v : Value} {fault : Fault} :
    v.encode = .error fault ↔ v.canonical = .error fault :=
  bind_pure_eq_error_iff

theorem exists_encode_iff {v : Value} : (∃ b, v.encode = .ok b) ↔ ∀ fault, ¬v.Flaw fault := by
  constructor
  · rintro ⟨b, hb⟩ fault hflaw
    obtain ⟨reported, h⟩ := canonical_of_flaw hflaw
    rw [encode_eq_error_iff.2 h] at hb
    simp at hb
  · intro hsound
    cases hv : v.encode with
    | ok b => exact ⟨b, rfl⟩
    | error fault => exact absurd (flaw_of_canonical (encode_eq_error_iff.1 hv)) (hsound fault)

section Shapes

variable {fault : Fault}

@[simp] theorem flaw_integer_iff {n : Int} :
    (integer n).Flaw fault ↔ n < 0 ∧ fault = .negativeInteger n :=
  ⟨fun h => by cases h with | integer h => exact ⟨h, rfl⟩, fun ⟨h, heq⟩ => heq ▸ .integer h⟩

@[simp] theorem not_flaw_text {s : String} : ¬(text s).Flaw fault := nofun

@[simp] theorem not_flaw_bool {b : Bool} : ¬(bool b).Flaw fault := nofun

@[simp] theorem flaw_list_iff {vs : List Value} :
    (list vs).Flaw fault ↔ ∃ v ∈ vs, v.Flaw fault :=
  ⟨fun h => by cases h with | item hv h => exact ⟨_, hv, h⟩, fun ⟨_, hv, h⟩ => .item hv h⟩

@[simp] theorem flaw_set_iff {vs : List Value} :
    (set vs).Flaw fault ↔ ∃ v ∈ vs, v.Flaw fault :=
  ⟨fun h => by cases h with | member hv h => exact ⟨_, hv, h⟩, fun ⟨_, hv, h⟩ => .member hv h⟩

@[simp] theorem flaw_list_map_iff {α : Type} {f : α → Value} {xs : List α} :
    (list (xs.map f)).Flaw fault ↔ ∃ x ∈ xs, (f x).Flaw fault := by
  simp only [flaw_list_iff, List.mem_map]
  exact ⟨fun ⟨_, ⟨x, hx, rfl⟩, h⟩ => ⟨x, hx, h⟩, fun ⟨x, hx, h⟩ => ⟨f x, ⟨x, hx, rfl⟩, h⟩⟩

@[simp] theorem flaw_record_iff {fs : List (String × Value)} :
    (record fs).Flaw fault ↔ ∃ f ∈ fs, f.2.Flaw fault :=
  ⟨fun h => by cases h with | field hv h => exact ⟨_, hv, h⟩, fun ⟨_, hv, h⟩ => .field hv h⟩

@[simp] theorem flaw_dict_iff {es : List (Value × Value)} :
    (dict es).Flaw fault ↔ ∃ e ∈ es, e.1.Flaw fault ∨ e.2.Flaw fault := by
  constructor
  · intro h
    cases h with
    | key hv h => exact ⟨_, hv, .inl h⟩
    | entry hv h => exact ⟨_, hv, .inr h⟩
  · rintro ⟨e, hv, h | h⟩
    · exact .key hv h
    · exact .entry hv h

end Shapes

end Value

namespace Commitment

theorem flaw_of_leaves {body : List Value} {fault : Fault} (h : leaves body = .error fault) :
    ∃ v ∈ body, v.Flaw fault := by
  induction body with
  | nil => simp [leaves] at h
  | cons v vs ih =>
      rcases bind_eq_error_iff.1 h with hv | ⟨_, _, h⟩
      · exact ⟨v, .head _, Value.flaw_of_canonical (Value.encode_eq_error_iff.1 hv)⟩
      · obtain ⟨w, hw, hflaw⟩ := ih (bind_pure_eq_error_iff.1 h)
        exact ⟨w, .tail _ hw, hflaw⟩

theorem exists_encode_of_leaves {body : List Value} {digests : List Bytes}
    (h : leaves body = .ok digests) {v : Value} (hv : v ∈ body) : ∃ b, v.encode = .ok b := by
  induction body generalizing digests with
  | nil => simp at hv
  | cons w vs ih =>
      obtain ⟨b, hb, h⟩ := bind_eq_ok_iff.1 h
      obtain ⟨rest, hrest, _⟩ := bind_eq_ok_iff.1 h
      rcases List.mem_cons.1 hv with rfl | hv
      · exact ⟨b, hb⟩
      · exact ih hrest hv

theorem flaw_of_bodyRoot {body : List Value} {fault : Fault} (h : bodyRoot body = .error fault) :
    ∃ v ∈ body, v.Flaw fault :=
  flaw_of_leaves (bind_pure_eq_error_iff.1 h)

theorem bodyRoot_of_flaw {body : List Value} {v : Value} {fault : Fault} (hv : v ∈ body)
    (h : v.Flaw fault) : ∃ reported, bodyRoot body = .error reported := by
  cases hroot : bodyRoot body with
  | error reported => exact ⟨reported, rfl⟩
  | ok root =>
      obtain ⟨_, hleaves, _⟩ := bind_eq_ok_iff.1 hroot
      exact absurd h (Value.exists_encode_iff.1 (exists_encode_of_leaves hleaves hv) fault)

end Commitment

end BlockTree
