import BlockTree.Machines.Currency
import BlockTree.Proofs.Encodability
import Mathlib.Data.List.Nodup
import Mathlib.Data.List.Perm.Basic
import Mathlib.Logic.Relation

namespace BlockTree

theorem Sorting.map_sort {α β : Type} {le : α → α → Bool} {le' : β → β → Bool} (f : α → β)
    (h : ∀ a b, le' (f a) (f b) = le a b) (xs : List α) :
    (sort le xs).map f = sort le' (xs.map f) := by
  have hinsert : ∀ (x : α) (ys : List α), (insert le x ys).map f = insert le' (f x) (ys.map f) := by
    intro x ys
    induction ys with
    | nil => rfl
    | cons y ys ih =>
        rw [List.map_cons, insert, insert, h]
        split
        · rfl
        · rw [List.map_cons, ih]
  induction xs with
  | nil => rfl
  | cons x xs ih => rw [sort, hinsert, ih, List.map_cons, sort]

theorem Bytes.le_antisymm {a b : Bytes} (hab : le a b = true) (hba : le b a = true) : a = b := by
  have hmap := Lex.le_antisymm _ _ hab hba
  exact List.map_injective_iff.2 (fun _ _ => UInt8.toNat.inj) hmap

theorem Bytes.sort_pairwise (xs : List Bytes) :
    (Sorting.sort le xs).Pairwise (le · · = true) := by
  apply Sorting.sort_pairwise
  · intro a b
    exact Lex.le_total ..
  · intro a b c hab hbc
    exact Lex.le_trans _ _ _ hab hbc

theorem Bytes.sort_eq_of_perm {xs ys : List Bytes} (h : xs.Perm ys) :
    Sorting.sort le xs = Sorting.sort le ys := by
  refine List.Perm.eq_of_pairwise (fun a b _ _ => le_antisymm) (sort_pairwise xs)
    (sort_pairwise ys) ?_
  exact (Sorting.sort_perm le xs).trans (h.trans (Sorting.sort_perm le ys).symm)

def Rlp.wrap (codes : List Bytes) : Bytes :=
  announce 192 codes.flatten.length ++ codes.flatten

theorem Rlp.encode_list_eq_wrap (xs : List Item) : encode (.list xs) = wrap (xs.map encode) := by
  have hflatten : encodeAll xs = (xs.map encode).flatten := by
    induction xs with
    | nil => rfl
    | cons x xs ih => rw [encodeAll_cons, ih, List.map_cons, List.flatten_cons]
  rw [encode_list, hflatten, wrap]

namespace Term

theorem encode_list (ts : List Term) : (list ts).encode = Rlp.wrap (ts.map encode) := by
  rw [encode, item_list, Rlp.encode_list_eq_wrap, List.map_map]
  rfl

theorem map_encode_sort (ts : List Term) :
    (sort ts).map encode = Sorting.sort Bytes.le (ts.map encode) := by
  have hfst : (sort ts).map encode =
      (Sorting.sort (fun a b => Bytes.le a.1 b.1) (ts.map fun t => (t.encode, t))).map Prod.fst := by
    rw [sort, List.map_map]
    apply List.map_congr_left
    intro p hp
    obtain ⟨t, _, rfl⟩ := List.mem_map.1 (Sorting.mem_sort.1 hp)
    rfl
  rw [hfst, Sorting.map_sort Prod.fst fun _ _ => rfl, List.map_map]
  rfl

end Term

namespace Value

theorem encode_eq_map (v : Value) : v.encode = v.canonical.map Term.encode := by
  rw [encode]
  cases v.canonical <;> rfl

section Collect

variable {α β : Type}

theorem collect_map (f : α → β) (xs : List (Except Fault α)) :
    collect (xs.map (·.map f)) = (collect xs).map (·.map f) := by
  induction xs with
  | nil => rfl
  | cons x xs ih =>
      rw [List.map_cons, collect, collect, ih]
      cases x with
      | error fault => rfl
      | ok a => cases collect xs <;> rfl

end Collect

theorem encode_of_collect {v : Value} {parts : List (Except Fault Term)}
    (f : List Term → List Term) (g : List Bytes → List Bytes)
    (h : v.canonical = (collect parts).map fun ts => .list (f ts))
    (hfg : ∀ ts, (f ts).map Term.encode = g (ts.map Term.encode)) :
    v.encode = (collect (parts.map (·.map Term.encode))).map fun codes => Rlp.wrap (g codes) := by
  rw [encode_eq_map, h, collect_map]
  cases collect parts with
  | error fault => rfl
  | ok ts =>
      refine congrArg Except.ok ?_
      rw [Term.encode_list, hfg]

theorem map_encode_eq (vs : List Value) :
    (vs.map canonical).map (·.map Term.encode) = vs.map encode := by
  rw [List.map_map]
  apply List.map_congr_left
  intro v _
  exact (encode_eq_map v).symm

theorem encode_list (vs : List Value) :
    (list vs).encode = (collect (vs.map encode)).map Rlp.wrap := by
  rw [← map_encode_eq, ← canonicalItems_eq_map]
  refine encode_of_collect id id ?_ fun ts => rfl
  rw [canonical]
  cases collect (canonicalItems vs) <;> rfl

theorem encode_set (vs : List Value) :
    (set vs).encode =
      (collect (vs.map encode)).map fun codes => Rlp.wrap (Sorting.sort Bytes.le codes) := by
  rw [← map_encode_eq, ← canonicalItems_eq_map]
  refine encode_of_collect Term.sort (Sorting.sort Bytes.le) ?_ Term.map_encode_sort
  rw [canonical]
  cases collect (canonicalItems vs) <;> rfl

def entryCode (k v : Except Fault Bytes) : Except Fault Bytes := do
  let key ← k
  let value ← v
  return Rlp.wrap [key, value]

theorem encode_dict (es : List (Value × Value)) :
    (dict es).encode = (collect (es.map fun e => entryCode e.1.encode e.2.encode)).map
      fun codes => Rlp.wrap (Sorting.sort Bytes.le codes) := by
  have hcodes : (es.map fun e => entryCode e.1.encode e.2.encode) =
      (canonicalEntries es).map (·.map Term.encode) := by
    rw [canonicalEntries_eq_map, List.map_map]
    apply List.map_congr_left
    intro e _
    rw [encode_eq_map, encode_eq_map]
    cases hk : e.1.canonical with
    | error fault => simp [hk, entryCode, Except.map, bind, Except.bind]
    | ok k =>
        cases hv : e.2.canonical with
        | error fault => simp [hk, hv, entryCode, Except.map, bind, Except.bind]
        | ok v => simp [hk, hv, entryCode, Except.map, bind, Except.bind, pure, Except.pure,
            Term.encode_list]
  rw [hcodes]
  refine encode_of_collect Term.sort (Sorting.sort Bytes.le) ?_ Term.map_encode_sort
  rw [canonical]
  cases collect (canonicalEntries es) <;> rfl

def fieldCodes (fs : List (String × Value)) : List (String × Except Fault Bytes) :=
  fs.filterMap fun
    | (_, .absent) => none
    | (k, v) => some (k, v.encode)

def fieldCode (f : String × Except Fault Bytes) : Except Fault Bytes :=
  f.2.map fun code => Rlp.wrap [Rlp.encodeBytes (Text.utf8 f.1), code]

theorem fieldCodes_cons {v : Value} (h : v ≠ .absent) (k : String) (fs : List (String × Value)) :
    fieldCodes ((k, v) :: fs) = (k, v.encode) :: fieldCodes fs := by
  cases v <;> first | rfl | exact absurd rfl h

theorem fieldCodes_append (fs gs : List (String × Value)) :
    fieldCodes (fs ++ gs) = fieldCodes fs ++ fieldCodes gs :=
  List.filterMap_append

theorem map_encode_canonicalFields (fs : List (String × Value)) :
    (canonicalFields fs).map (fun f => (f.1, f.2.map Term.encode)) = fieldCodes fs := by
  induction fs with
  | nil => rfl
  | cons f fs ih =>
      obtain ⟨k, v⟩ := f
      by_cases hv : v = .absent
      · subst hv
        exact ih
      · rw [fieldCodes_cons hv, canonicalFields, List.map_cons, ih, encode_eq_map]
        exact hv

theorem encode_record (fs : List (String × Value)) :
    (record fs).encode = (collect ((Sorting.sort (fun a b => Text.le a.1 b.1) (fieldCodes fs)).map
      fieldCode)).map Rlp.wrap := by
  have hparts : ((Sorting.sort (fun a b => Text.le a.1 b.1) (canonicalFields fs)).map fun f =>
      f.2.map fun t => Term.list [.bytes (Text.utf8 f.1), t]).map (·.map Term.encode) =
      (Sorting.sort (fun a b => Text.le a.1 b.1) (fieldCodes fs)).map fieldCode := by
    rw [← map_encode_canonicalFields, ← Sorting.map_sort _ fun _ _ => rfl, List.map_map,
      List.map_map]
    apply List.map_congr_left
    intro f _
    obtain ⟨k, c⟩ := f
    cases c with
    | error fault => rfl
    | ok t =>
        refine congrArg Except.ok ?_
        rw [Term.encode_list]
        rfl
  rw [← hparts]
  refine encode_of_collect id id ?_ fun ts => rfl
  rw [canonical, collectFields]
  generalize collect _ = ts
  cases ts <;> rfl

inductive Move : Value → Value → Prop where
  | fields {fs gs : List (String × Value)} (hnames : (fs.map Prod.fst).Nodup) (h : fs.Perm gs) :
      Move (.record fs) (.record gs)
  | absent (before after : List (String × Value)) (k : String) :
      Move (.record (before ++ (k, .absent) :: after)) (.record (before ++ after))
  | entries {es fs : List (Value × Value)} (h : es.Perm fs) : Move (.dict es) (.dict fs)
  | members {vs ws : List Value} (h : vs.Perm ws) : Move (.set vs) (.set ws)
  | inItem (before after : List Value) {v w : Value} (h : Move v w) :
      Move (.list (before ++ v :: after)) (.list (before ++ w :: after))
  | inField (before after : List (String × Value)) (k : String) {v w : Value} (h : Move v w) :
      Move (.record (before ++ (k, v) :: after)) (.record (before ++ (k, w) :: after))
  | inKey (before after : List (Value × Value)) (x : Value) {v w : Value} (h : Move v w) :
      Move (.dict (before ++ (v, x) :: after)) (.dict (before ++ (w, x) :: after))
  | inEntry (before after : List (Value × Value)) (k : Value) {v w : Value} (h : Move v w) :
      Move (.dict (before ++ (k, v) :: after)) (.dict (before ++ (k, w) :: after))
  | inMember (before after : List Value) {v w : Value} (h : Move v w) :
      Move (.set (before ++ v :: after)) (.set (before ++ w :: after))

def Rearranged : Value → Value → Prop :=
  Relation.EqvGen Move

section Collect

variable {α β : Type}

theorem toOption_map (f : α → β) (x : Except Fault α) :
    (x.map f).toOption = x.toOption.map f := by
  cases x <;> rfl

theorem toOption_eq_some_iff {x : Except Fault α} {a : α} : x.toOption = some a ↔ x = .ok a := by
  cases x <;> simp [Except.toOption]

theorem toOption_collect_eq_some_iff {xs : List (Except Fault α)} {as : List α} :
    (collect xs).toOption = some as ↔ xs.map Except.toOption = as.map some := by
  rw [toOption_eq_some_iff, collect_eq_ok_iff]
  constructor
  · rintro rfl
    rw [List.map_map]
    rfl
  · intro h
    induction xs generalizing as with
    | nil => rw [List.map_eq_nil_iff.1 h.symm, List.map_nil]
    | cons x xs ih =>
        cases as with
        | nil => simp at h
        | cons a as =>
            obtain ⟨hx, hxs⟩ := List.cons.inj h
            rw [toOption_eq_some_iff.1 hx, ih hxs, List.map_cons]

theorem toOption_collect_congr (f : List α → β) {xs ys : List (Except Fault α)}
    (h : xs.map Except.toOption = ys.map Except.toOption) :
    ((collect xs).map f).toOption = ((collect ys).map f).toOption := by
  have hcollect : (collect xs).toOption = (collect ys).toOption := by
    apply Option.ext
    intro as
    rw [toOption_collect_eq_some_iff, toOption_collect_eq_some_iff, h]
  rw [toOption_map, toOption_map, hcollect]

theorem collect_of_perm {xs ys : List (Except Fault α)}
    (h : (xs.map Except.toOption).Perm (ys.map Except.toOption)) {as : List α}
    (hxs : (collect xs).toOption = some as) :
    ∃ bs, (collect ys).toOption = some bs ∧ as.Perm bs := by
  rw [toOption_collect_eq_some_iff.1 hxs] at h
  cases hys : collect ys with
  | error fault =>
      have hnone : none ∈ as.map some :=
        h.mem_iff.2 (List.mem_map_of_mem (f := Except.toOption) (error_mem_of_collect hys))
      simp at hnone
  | ok bs =>
      refine ⟨bs, rfl, ?_⟩
      rw [toOption_collect_eq_some_iff.1 (congrArg Except.toOption hys)] at h
      exact (List.map_perm_map_iff fun _ _ => Option.some.inj).1 h

theorem toOption_collect_perm {f : List α → β} (hf : ∀ {as bs}, as.Perm bs → f as = f bs)
    {xs ys : List (Except Fault α)} (h : (xs.map Except.toOption).Perm (ys.map Except.toOption)) :
    ((collect xs).map f).toOption = ((collect ys).map f).toOption := by
  rw [toOption_map, toOption_map]
  cases hxs : (collect xs).toOption with
  | some as =>
      obtain ⟨bs, hys, hperm⟩ := collect_of_perm h hxs
      rw [hys, Option.map_some, Option.map_some, hf hperm]
  | none =>
      cases hys : (collect ys).toOption with
      | none => rfl
      | some bs =>
          obtain ⟨as, hxs', _⟩ := collect_of_perm h.symm hys
          rw [hxs] at hxs'
          cases hxs'

end Collect

theorem toOption_entryCode {k k' v v' : Except Fault Bytes} (hk : k.toOption = k'.toOption)
    (hv : v.toOption = v'.toOption) : (entryCode k v).toOption = (entryCode k' v').toOption := by
  have hcode : ∀ k v : Except Fault Bytes, (entryCode k v).toOption =
      k.toOption.bind fun key => v.toOption.map fun value => Rlp.wrap [key, value] := by
    intro k v
    cases k <;> cases v <;> rfl
  rw [hcode, hcode, hk, hv]

theorem toOption_encode_record {fs gs : List (String × Value)}
    (h : (fieldCodes fs).map (fun f => (f.1, f.2.toOption)) =
      (fieldCodes gs).map fun f => (f.1, f.2.toOption)) :
    (record fs).encode.toOption = (record gs).encode.toOption := by
  have hsorted : ∀ fs, ((Sorting.sort (fun a b => Text.le a.1 b.1) (fieldCodes fs)).map
      fieldCode).map Except.toOption =
      (Sorting.sort (fun a b => Text.le a.1 b.1) ((fieldCodes fs).map fun f =>
        (f.1, f.2.toOption))).map fun f =>
          f.2.map fun code => Rlp.wrap [Rlp.encodeBytes (Text.utf8 f.1), code] := by
    intro fs
    rw [← Sorting.map_sort _ fun _ _ => rfl, List.map_map, List.map_map]
    apply List.map_congr_left
    intro f _
    exact toOption_map _ f.2
  rw [encode_record, encode_record]
  apply toOption_collect_congr
  rw [hsorted, hsorted, h]

theorem names_fieldCodes (fs : List (String × Value)) :
    ((fieldCodes fs).map Prod.fst).Sublist (fs.map Prod.fst) := by
  induction fs with
  | nil => exact .slnil
  | cons f fs ih =>
      obtain ⟨k, v⟩ := f
      by_cases hv : v = .absent
      · subst hv
        exact ih.cons k
      · rw [fieldCodes_cons hv]
        exact ih.cons_cons k

theorem sort_fieldCodes_of_perm {fs gs : List (String × Value)} (hnames : (fs.map Prod.fst).Nodup)
    (h : fs.Perm gs) : Sorting.sort (fun a b => Text.le a.1 b.1) (fieldCodes fs) =
      Sorting.sort (fun a b => Text.le a.1 b.1) (fieldCodes gs) := by
  have hperm : (fieldCodes fs).Perm (fieldCodes gs) := h.filterMap _
  have hnodup := hnames.sublist (names_fieldCodes fs)
  have hsorted : ∀ cs : List (String × Except Fault Bytes),
      (Sorting.sort (fun a b => Text.le a.1 b.1) cs).Pairwise fun a b => Text.le a.1 b.1 = true :=
    Sorting.sort_pairwise (fun _ _ => Text.le_total ..) fun _ _ _ => Text.le_trans _ _ _
  refine List.Perm.eq_of_pairwise ?_ (hsorted _) (hsorted _)
    ((Sorting.sort_perm _ _).trans (hperm.trans (Sorting.sort_perm _ _).symm))
  -- fields of one name are one field
  intro a b ha hb hab hba
  have hb' := hperm.mem_iff.2 (Sorting.mem_sort.1 hb)
  exact List.inj_on_of_nodup_map hnodup (Sorting.mem_sort.1 ha) hb' (Text.le_antisymm _ _ hab hba)

theorem Move.ne_absent {v w : Value} (h : Move v w) : v ≠ .absent ∧ w ≠ .absent := by
  cases h <;> simp

theorem Move.encode {v w : Value} (h : Move v w) : v.encode.toOption = w.encode.toOption := by
  induction h with
  | fields hnames h => rw [encode_record, encode_record, sort_fieldCodes_of_perm hnames h]
  | absent before after k =>
      apply toOption_encode_record
      rw [fieldCodes_append, fieldCodes_append]
      rfl
  | entries h =>
      rw [encode_dict, encode_dict]
      apply toOption_collect_perm
      · intro as bs hperm
        rw [Bytes.sort_eq_of_perm hperm]
      · exact (h.map _).map _
  | members h =>
      rw [encode_set, encode_set]
      apply toOption_collect_perm
      · intro as bs hperm
        rw [Bytes.sort_eq_of_perm hperm]
      · exact (h.map _).map _
  | inItem before after h ih =>
      rw [encode_list, encode_list]
      apply toOption_collect_congr
      simp [ih]
  | inField before after k h ih =>
      obtain ⟨hv, hw⟩ := h.ne_absent
      apply toOption_encode_record
      rw [fieldCodes_append, fieldCodes_append, fieldCodes_cons hv, fieldCodes_cons hw]
      simp [ih]
  | inKey before after x h ih =>
      rw [encode_dict, encode_dict]
      apply toOption_collect_congr
      simp [toOption_entryCode ih rfl]
  | inEntry before after k h ih =>
      rw [encode_dict, encode_dict]
      apply toOption_collect_congr
      simp [toOption_entryCode rfl ih]
  | inMember before after h ih =>
      rw [encode_set, encode_set]
      apply toOption_collect_congr
      simp [ih]

theorem Rearranged.encode {v w : Value} (h : v.Rearranged w) :
    v.encode.toOption = w.encode.toOption := by
  induction h with
  | rel v w h => exact h.encode
  | refl v => rfl
  | symm v w _ ih => exact ih.symm
  | trans u v w _ _ ih ih' => exact ih.trans ih'

theorem Flaw.kind {v : Value} {fault : Fault} (h : v.Flaw fault) : fault.kind = .encoding := by
  induction h with
  | integer _ => rfl
  | number _ => rfl
  | symbol => rfl
  | function _ => rfl
  | enclosing _ => rfl
  | item _ _ ih => exact ih
  | field _ _ ih => exact ih
  | key _ _ ih => exact ih
  | entry _ _ ih => exact ih
  | member _ _ ih => exact ih

theorem kind_of_encode {v : Value} {fault : Fault} (h : v.encode = .error fault) :
    fault.kind = .encoding :=
  (flaw_of_canonical (encode_eq_error_iff.1 h)).kind

end Value

inductive Concur {α : Type} : Except Fault α → Except Fault α → Prop where
  | same (a : α) : Concur (.ok a) (.ok a)
  | faults {left right : Fault} (hleft : left.kind = .encoding) (hright : right.kind = .encoding) :
      Concur (.error left) (.error right)

theorem concur_of_toOption_eq {α : Type} {x y : Except Fault α} (h : x.toOption = y.toOption)
    (hx : ∀ fault, x = .error fault → fault.kind = .encoding)
    (hy : ∀ fault, y = .error fault → fault.kind = .encoding) : Concur x y := by
  cases x with
  | error left =>
      cases y with
      | error right => exact .faults (hx left rfl) (hy right rfl)
      | ok b => cases h
  | ok a =>
      cases y with
      | error right => cases h
      | ok b =>
          obtain rfl : a = b := Option.some.inj h
          exact .same a

theorem Concur.eq_ok {α : Type} {x y : Except Fault α} (h : Concur x y) {a : α} (hx : x = .ok a) :
    y = .ok a := by
  cases h with
  | same b => exact hx
  | faults _ _ => cases hx

theorem Concur.bind {α β : Type} {x y : Except Fault α} {f g : α → Except Fault β}
    (h : Concur x y) (hfg : ∀ a, Concur (f a) (g a)) : Concur (x >>= f) (y >>= g) := by
  cases h with
  | same a => exact hfg a
  | faults hleft hright => exact .faults hleft hright

namespace Value

theorem Rearranged.concur {v w : Value} (h : v.Rearranged w) : Concur v.encode w.encode :=
  concur_of_toOption_eq h.encode (fun _ => kind_of_encode) fun _ => kind_of_encode

theorem Rearranged.concur_digest {v w : Value} (h : v.Rearranged w) : Concur v.digest w.digest := by
  apply h.concur.bind
  intro bytes
  exact .same _

end Value

theorem Commitment.concur_leaves {body body' : List Value}
    (h : List.Forall₂ Value.Rearranged body body') : Concur (leaves body) (leaves body') := by
  induction h with
  | nil => exact .same []
  | cons hxy _ ih =>
      apply hxy.concur.bind
      intro bytes
      apply ih.bind
      intro rest
      exact .same _

theorem Commitment.concur_bodyRoot {body body' : List Value}
    (h : List.Forall₂ Value.Rearranged body body') : Concur (bodyRoot body) (bodyRoot body') := by
  apply (concur_leaves h).bind
  intro leaves
  exact .same _

theorem Machine.concur_stateRoot {S T E : Type} {m : Machine S T E} (hm : m.encodeState = none)
    {s t : S} (h : (m.stateValue s).Rearranged (m.stateValue t)) :
    Concur (m.stateRoot s) (m.stateRoot t) := by
  have hbytes : ∀ s, m.stateBytes s = (m.stateValue s).encode := by
    intro s
    rw [stateBytes, hm]
  rw [stateRoot, stateRoot, hbytes, hbytes]
  apply h.concur.bind
  intro bytes
  exact .same _

theorem encoding_ignores_insertion_order :
    (∀ v w : Value, v.Rearranged w → Concur v.encode w.encode ∧ Concur v.digest w.digest) ∧
    (∀ body body' : List Value, List.Forall₂ Value.Rearranged body body' →
      Concur (Commitment.bodyRoot body) (Commitment.bodyRoot body')) ∧
    ∀ {S T E : Type} (m : Machine S T E) (s t : S), m.encodeState = none →
      (m.stateValue s).Rearranged (m.stateValue t) → Concur (m.stateRoot s) (m.stateRoot t) := by
  refine ⟨?_, ?_, ?_⟩
  · intro v w h
    exact ⟨h.concur, h.concur_digest⟩
  · intro body body' h
    exact Commitment.concur_bodyRoot h
  · intro S T E m s t hm h
    exact Machine.concur_stateRoot hm h

namespace Shelf

def books : Value :=
  .record [("kept", .set [.null, .bool false, .text "x"]), ("gone", .absent),
    ("by", .dict [(.text "k", .integer 1), (.list [], .integer 2)])]

def reordered : Value :=
  .record [("by", .dict [(.list [], .integer 2), (.text "k", .integer 1)]),
    ("kept", .set [.bool false, .text "x", .null])]

theorem rearranged : books.Rearranged reordered := by
  have hmembers : Value.Move (.set [.null, .bool false, .text "x"])
      (.set [.bool false, .text "x", .null]) :=
    .members ((List.Perm.swap ..).trans ((List.Perm.swap ..).cons _))
  have hentries : Value.Move (.dict [(.text "k", .integer 1), (.list [], .integer 2)])
      (.dict [(.list [], .integer 2), (.text "k", .integer 1)]) := .entries (List.Perm.swap ..)
  refine .trans _ _ _ (.rel _ _ (.absent [_] [_] "gone")) ?_
  refine .trans _ _ _ (.rel _ _ (.inField [] [_] "kept" hmembers)) ?_
  refine .trans _ _ _ (.rel _ _ (.inField [_] [] "by" hentries)) ?_
  exact .rel _ _ (.fields (by decide) (List.Perm.swap ..))

def balances : Currency.Balances :=
  ⟨[("ann", 3), ("bob", 5)], by decide⟩

def balancesReordered : Currency.Balances :=
  ⟨[("bob", 5), ("ann", 3)], by decide⟩

end Shelf

theorem shelf_encoding_ignores_insertion_order :
    Shelf.books.Rearranged Shelf.reordered ∧
    (∃ bytes, Shelf.books.encode = .ok bytes ∧ Shelf.reordered.encode = .ok bytes) ∧
    Concur (Commitment.bodyRoot [.null, Shelf.books]) (Commitment.bodyRoot [.null, Shelf.reordered]) ∧
    Concur (Currency.machine.stateRoot Shelf.balances)
      (Currency.machine.stateRoot Shelf.balancesReordered) := by
  obtain ⟨hvalues, hbodies, hstates⟩ := encoding_ignores_insertion_order
  have hsome : Shelf.books.encode.toOption.isSome = true := by decide +kernel
  obtain ⟨bytes, hbytes⟩ := Option.isSome_iff_exists.1 hsome
  refine ⟨Shelf.rearranged, ⟨bytes, ?_⟩, ?_, ?_⟩
  · obtain ⟨hencode, _⟩ := hvalues _ _ Shelf.rearranged
    have hbooks := Value.toOption_eq_some_iff.1 hbytes
    exact ⟨hbooks, hencode.eq_ok hbooks⟩
  · exact hbodies _ _ (.cons (.refl _) (.cons Shelf.rearranged .nil))
  · exact hstates Currency.machine _ _ rfl (.rel _ _ (.entries (List.Perm.swap ..)))

end BlockTree
