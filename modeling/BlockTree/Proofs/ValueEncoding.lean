import BlockTree.Proofs.Admission
import BlockTree.Proofs.SelfDelimiting
import BlockTree.Value.Canonical

namespace BlockTree

theorem Text.byteArray_toList_loop (b : ByteArray) (i : Nat) (seen : List UInt8) :
    ByteArray.toList.loop b i seen = seen.reverse ++ b.data.toList.drop i := by
  fun_induction ByteArray.toList.loop b i seen with
  | case1 i seen h ih =>
      have hlt : i < b.data.toList.length := by simpa using h
      have hget : b.get! i = b.data.toList[i] := by simp [ByteArray.get!, h]
      rw [ih, hget, List.reverse_cons, List.append_assoc, List.drop_eq_getElem_cons hlt]
      rfl
  | case2 i seen h =>
      have hle : b.data.toList.length ≤ i := by simpa using Nat.le_of_not_lt h
      rw [List.drop_eq_nil_of_le hle, List.append_nil]

theorem Text.utf8_injective {s t : String} (h : utf8 s = utf8 t) : s = t := by
  have hbytes : ∀ r : String, utf8 r = r.toByteArray.data.toList := by
    intro r
    rw [utf8, String.toUTF8_eq_toByteArray, ByteArray.toList, byteArray_toList_loop]
    rfl
  rw [hbytes, hbytes, Array.toList_inj] at h
  exact String.toByteArray_inj.1 (ByteArray.ext h)

theorem Term.items_eq_map (ts : List Term) : items ts = ts.map item := by
  induction ts with
  | nil => rfl
  | cons t ts ih => rw [items, ih, List.map_cons]

theorem Term.item_list (ts : List Term) : (Term.list ts).item = .list (ts.map item) := by
  rw [item, items_eq_map]

theorem Term.pair_item_inj {a b c d : Term} (h : (list [a, b]).item = (list [c, d]).item) :
    a.item = c.item ∧ b.item = d.item := by
  rw [item_list, item_list, Rlp.Item.list.injEq] at h
  obtain ⟨hfirst, hrest⟩ := List.cons.inj h
  exact ⟨hfirst, (List.cons.inj hrest).1⟩

theorem Term.mem_sort {ts : List Term} {t : Term} : t ∈ Term.sort ts ↔ t ∈ ts := by
  simp [Term.sort, Sorting.mem_sort]

namespace Value

def Alike (v w : Value) : Prop :=
  ∃ s t, v.canonical = .ok s ∧ w.canonical = .ok t ∧ s.item = t.item

theorem Alike.symm {v w : Value} (h : v.Alike w) : w.Alike v := by
  obtain ⟨s, t, hs, ht, hst⟩ := h
  exact ⟨t, s, ht, hs, hst.symm⟩

theorem encode_eq_ok_iff {v : Value} {b : Bytes} :
    v.encode = .ok b ↔ ∃ t, v.canonical = .ok t ∧ Rlp.encode t.item = b :=
  bind_pure_eq_ok_iff

theorem alike_of_encode_eq {v w : Value} {b : Bytes} (hv : v.encode = .ok b)
    (hw : w.encode = .ok b) (hlen : b.length < Rlp.limit) : v.Alike w := by
  obtain ⟨s, hs, hsb⟩ := encode_eq_ok_iff.1 hv
  obtain ⟨t, ht, htb⟩ := encode_eq_ok_iff.1 hw
  refine ⟨s, t, hs, ht, Rlp.encode_injective ?_ (hsb.trans htb.symm)⟩
  rw [hsb]
  exact hlen

theorem integer_injective {m n : Int} (h : (integer m).Alike (integer n)) : m = n := by
  obtain ⟨s, t, hs, ht, hst⟩ := h
  rw [canonical] at hs ht
  split at hs
  · simp at hs
  rename_i hm
  split at ht
  · simp at ht
  rename_i hn
  cases hs
  cases ht
  rw [Term.item, Term.item, Rlp.Item.bytes.injEq] at hst
  have hnat := Bytes.ofNat_injective hst
  omega

theorem text_injective {s t : String} (h : (text s).Alike (text t)) : s = t := by
  obtain ⟨_, _, hs, ht, hst⟩ := h
  cases hs
  cases ht
  rw [Term.item, Term.item, Rlp.Item.bytes.injEq] at hst
  exact Text.utf8_injective hst

theorem bool_injective {a b : Bool} (h : (bool a).Alike (bool b)) : a = b := by
  obtain ⟨_, _, hs, ht, hst⟩ := h
  cases hs
  cases ht
  rw [Term.item, Term.item, Rlp.Item.bytes.injEq] at hst
  have hnat := Bytes.ofNat_injective hst
  cases a <;> cases b <;> simp at hnat ⊢

section Collect

variable {α β : Type}

theorem collect_eq_ok_iff {xs : List (Except Fault α)} {as : List α} :
    collect xs = .ok as ↔ xs = as.map .ok := by
  induction xs generalizing as with
  | nil => cases as <;> simp [collect]
  | cons x xs ih =>
      rw [collect, bind_eq_ok_iff]
      constructor
      · rintro ⟨a, rfl, h⟩
        obtain ⟨rest, hrest, h⟩ := bind_eq_ok_iff.1 h
        cases h
        rw [ih.1 hrest, List.map_cons]
      · intro h
        cases as with
        | nil => simp at h
        | cons a as =>
            obtain ⟨hx, hxs⟩ := List.cons.inj h
            exact ⟨a, hx, bind_eq_ok_iff.2 ⟨as, ih.2 hxs, rfl⟩⟩

theorem mem_of_collect {xs : List (Except Fault α)} {as : List α} (h : collect xs = .ok as)
    {x : Except Fault α} (hx : x ∈ xs) : ∃ a, a ∈ as ∧ x = .ok a := by
  rw [collect_eq_ok_iff.1 h] at hx
  obtain ⟨a, ha, rfl⟩ := List.mem_map.1 hx
  exact ⟨a, ha, rfl⟩

theorem ok_mem_of_collect {xs : List (Except Fault α)} {as : List α} (h : collect xs = .ok as)
    {a : α} (ha : a ∈ as) : .ok a ∈ xs := by
  rw [collect_eq_ok_iff.1 h]
  exact List.mem_map_of_mem ha

end Collect

theorem canonicalItems_eq_map (vs : List Value) : canonicalItems vs = vs.map canonical := by
  induction vs with
  | nil => rfl
  | cons v vs ih => rw [canonicalItems, ih, List.map_cons]

theorem canonicalEntries_eq_map (es : List (Value × Value)) :
    canonicalEntries es = es.map fun e => do
      let k ← canonical e.1
      let v ← canonical e.2
      return .list [k, v] := by
  induction es with
  | nil => rfl
  | cons e es ih => rw [canonicalEntries, ih, List.map_cons]

theorem mem_canonicalFields {fs : List (String × Value)} {k : String} {c : Except Fault Term} :
    (k, c) ∈ canonicalFields fs ↔ ∃ v, (k, v) ∈ fs ∧ v ≠ .absent ∧ c = canonical v := by
  induction fs with
  | nil => simp [canonicalFields]
  | cons f fs ih =>
      obtain ⟨k', v'⟩ := f
      by_cases hv : v' = .absent
      · subst hv
        rw [canonicalFields, ih]
        refine exists_congr fun v => ⟨fun h => ⟨.tail _ h.1, h.2⟩, ?_⟩
        rintro ⟨hmem, hne, hc⟩
        rcases List.mem_cons.1 hmem with heq | hmem
        · exact absurd (Prod.mk.inj heq).2 hne
        · exact ⟨hmem, hne, hc⟩
      · rw [canonicalFields, List.mem_cons, ih]
        · constructor
          · rintro (heq | ⟨v, hmem, hne, hc⟩)
            · cases heq
              exact ⟨v', .head _, hv, rfl⟩
            · exact ⟨v, .tail _ hmem, hne, hc⟩
          · rintro ⟨v, hmem, hne, hc⟩
            rcases List.mem_cons.1 hmem with heq | hmem
            · cases heq
              exact .inl (congrArg _ hc)
            · exact .inr ⟨v, hmem, hne, hc⟩
        · exact hv

theorem eq_of_items_eq {α : Type} {f : α → Value} (hf : ∀ {x y}, (f x).Alike (f y) → x = y)
    {xs ys : List α} {ss ts : List Term} (hss : xs.map (canonical ∘ f) = ss.map .ok)
    (hts : ys.map (canonical ∘ f) = ts.map .ok) (hst : ss.map Term.item = ts.map Term.item) :
    xs = ys := by
  induction xs generalizing ys ss ts with
  | nil =>
      obtain rfl := List.map_eq_nil_iff.1 hss.symm
      obtain rfl := List.map_eq_nil_iff.1 hst.symm
      exact (List.map_eq_nil_iff.1 hts).symm
  | cons x xs ih =>
      match ss, hss with
      | s :: ss, hss =>
          match ts, hst with
          | t :: ts, hst =>
              match ys, hts with
              | y :: ys, hts =>
                  obtain ⟨hx, hxs⟩ := List.cons.inj hss
                  obtain ⟨hy, hys⟩ := List.cons.inj hts
                  obtain ⟨hitem, hitems⟩ := List.cons.inj hst
                  rw [hf ⟨s, t, hx, hy, hitem⟩, ih hxs hys hitems]

theorem list_injective {α : Type} {f : α → Value} (hf : ∀ {x y}, (f x).Alike (f y) → x = y)
    {xs ys : List α} (h : (list (xs.map f)).Alike (list (ys.map f))) : xs = ys := by
  obtain ⟨s, t, hs, ht, hst⟩ := h
  obtain ⟨ss, hss, hs⟩ := bind_eq_ok_iff.1 hs
  obtain ⟨ts, hts, ht⟩ := bind_eq_ok_iff.1 ht
  cases hs
  cases ht
  rw [Term.item_list, Term.item_list, Rlp.Item.list.injEq] at hst
  rw [canonicalItems_eq_map, collect_eq_ok_iff, List.map_map] at hss hts
  exact eq_of_items_eq hf hss hts hst

theorem exists_field_of_alike {fs gs : List (String × Value)} (h : (record fs).Alike (record gs))
    {k : String} {v : Value} (hv : (k, v) ∈ fs) (hne : v ≠ .absent) :
    ∃ w, (k, w) ∈ gs ∧ v.Alike w := by
  obtain ⟨s, t, hs, ht, hst⟩ := h
  obtain ⟨ss, hss, hs⟩ := bind_eq_ok_iff.1 hs
  obtain ⟨ts, hts, ht⟩ := bind_eq_ok_iff.1 ht
  cases hs
  cases ht
  rw [Term.item_list, Term.item_list, Rlp.Item.list.injEq] at hst
  have hfield : (k, canonical v) ∈ canonicalFields fs := mem_canonicalFields.2 ⟨v, hv, hne, rfl⟩
  obtain ⟨s, hsmem, hs⟩ := mem_of_collect hss
    (List.mem_map_of_mem (Sorting.mem_sort.2 hfield))
  obtain ⟨term, hterm, rfl⟩ : ∃ term, canonical v = .ok term ∧
      s = .list [.bytes (Text.utf8 k), term] := by
    cases hv : canonical v with
    | error e => simp [hv, Except.map] at hs
    | ok term => rw [hv] at hs; exact ⟨term, rfl, (Except.ok.inj hs).symm⟩
  have hmem := List.mem_map_of_mem (f := Term.item) hsmem
  rw [hst] at hmem
  obtain ⟨t, htmem, htitem⟩ := List.mem_map.1 hmem
  obtain ⟨⟨k', c⟩, hgfield, ht⟩ := List.mem_map.1 (ok_mem_of_collect hts htmem)
  obtain ⟨w, hw, _, rfl⟩ := mem_canonicalFields.1 (Sorting.mem_sort.1 hgfield)
  cases hwterm : canonical w with
  | error e => simp [hwterm, Except.map] at ht
  | ok term' =>
      rw [hwterm] at ht
      cases ht
      obtain ⟨hname, hvalue⟩ := Term.pair_item_inj htitem
      rw [Term.item, Term.item, Rlp.Item.bytes.injEq] at hname
      obtain rfl := Text.utf8_injective hname
      exact ⟨w, hw, term, term', hterm, hwterm, hvalue.symm⟩

theorem field_alike {fs gs : List (String × Value)} (h : (record fs).Alike (record gs)) (k : String)
    {v w : Value} (hv : (k, v) ∈ fs) (hne : v ≠ .absent) (hw : ∀ w', (k, w') ∈ gs → w' = w) :
    v.Alike w := by
  obtain ⟨w', hmem, hvw⟩ := exists_field_of_alike h hv hne
  rw [← hw w' hmem]
  exact hvw

theorem tag_eq {k a b : String} {fs gs : List (String × Value)}
    (h : (record ((k, text a) :: fs)).Alike (record ((k, text b) :: gs)))
    (hk : ∀ w, (k, w) ∉ gs) : a = b := by
  refine text_injective (field_alike h k (.head _) (by simp) fun w hw => ?_)
  rcases List.mem_cons.1 hw with heq | hmem
  · exact (Prod.mk.inj heq).2
  · exact absurd hmem (hk w)

theorem exists_entry_of_alike {es fs : List (Value × Value)} (h : (dict es).Alike (dict fs))
    {k v : Value} (hv : (k, v) ∈ es) : ∃ k' w, (k', w) ∈ fs ∧ k.Alike k' ∧ v.Alike w := by
  obtain ⟨s, t, hs, ht, hst⟩ := h
  obtain ⟨ss, hss, hs⟩ := bind_eq_ok_iff.1 hs
  obtain ⟨ts, hts, ht⟩ := bind_eq_ok_iff.1 ht
  cases hs
  cases ht
  rw [Term.item_list, Term.item_list, Rlp.Item.list.injEq] at hst
  rw [canonicalEntries_eq_map] at hss hts
  obtain ⟨s, hsmem, hs⟩ := mem_of_collect hss (List.mem_map_of_mem hv)
  obtain ⟨kterm, hkterm, hs⟩ := bind_eq_ok_iff.1 hs
  obtain ⟨vterm, hvterm, hs⟩ := bind_eq_ok_iff.1 hs
  cases hs
  have hmem := List.mem_map_of_mem (f := Term.item) (Term.mem_sort.2 hsmem)
  rw [hst] at hmem
  obtain ⟨t, htmem, htitem⟩ := List.mem_map.1 hmem
  obtain ⟨⟨k', w⟩, hw, ht⟩ := List.mem_map.1 (ok_mem_of_collect hts (Term.mem_sort.1 htmem))
  obtain ⟨kterm', hkterm', ht⟩ := bind_eq_ok_iff.1 ht
  obtain ⟨vterm', hvterm', ht⟩ := bind_eq_ok_iff.1 ht
  cases ht
  obtain ⟨hkey, hvalue⟩ := Term.pair_item_inj htitem
  exact ⟨k', w, hw, ⟨kterm, kterm', hkterm, hkterm', hkey.symm⟩,
    vterm, vterm', hvterm, hvterm', hvalue.symm⟩

end Value

end BlockTree
