import BlockTree.Proofs.Ancestry

namespace BlockTree

theorem Entry.find?_of_mem {T : Type} {e : Entry T} {es : List (Entry T)}
    (hnodup : (es.map Entry.id).Nodup) (he : e ∈ es) : Entry.find? e.id es = some e := by
  induction es with
  | nil => simp at he
  | cons f fs ih =>
      rw [List.map_cons, List.nodup_cons] at hnodup
      rw [Entry.find?_cons]
      rcases List.mem_cons.1 he with rfl | hf
      · rw [if_pos rfl]
      · have hne : f.id ≠ e.id := fun heq => hnodup.1 (heq ▸ List.mem_map_of_mem hf)
        rw [if_neg hne]
        exact ih hnodup.2 hf

namespace Tree

variable {S T E : Type} {settings : Settings S T E} {t : Tree S T E}

structure Indexed (t : Tree S T E) : Prop where
  nodup : (t.entries.map Entry.id).Nodup
  children : ∀ p, t.children p =
    (t.entries.reverse.filter fun e => decide (e.parent = some p)).map Entry.id
  tips_nodup : t.tips.Nodup
  tips : ∀ id, id ∈ t.tips ↔
    id ∈ t.entries.map Entry.id ∧ ∀ e ∈ t.entries, e.parent ≠ some id

theorem Indexed.entries_nodup (h : Indexed t) : t.entries.Nodup :=
  List.Pairwise.of_map Entry.id (fun _ _ hne heq => hne (congrArg Entry.id heq)) h.nodup

theorem has_iff_mem {x : String} : t.has x = true ↔ x ∈ t.entries.map Entry.id := by
  simp [has, entry?, Entry.find?]

theorem entry?_eq_some_iff (h : Indexed t) {e : Entry T} :
    t.entry? e.id = some e ↔ e ∈ t.entries :=
  ⟨List.mem_of_find?_eq_some, Entry.find?_of_mem h.nodup⟩

theorem graft_children (t : Tree S T E) (id p : String) (b : Block T) (post : S) :
    (t.graft id b post).children p =
      if b.header.parent = p then t.children p ++ [id] else t.children p := by
  change ((t.childIndex.set b.header.parent (t.children b.header.parent ++ [id])).get? p).getD [] =
    _
  rw [Table.get?_set]
  split
  · rename_i hp
    rw [hp]
    rfl
  · rfl

theorem Sound.has_parent (hs : Sound settings t) {e : Entry T} {p : String}
    (he : t.entry? e.id = some e) (hp : e.parent = some p) : t.has p = true := by
  obtain ⟨s, hst⟩ := hs.exists_state he
  rcases hs.rests he hst with ⟨_, hf⟩ | hr
  · simp [hf.parent_eq] at hp
  · obtain ⟨ctx, hctx, _⟩ := hr.accepted
    obtain ⟨parent, _, hparent, _, _⟩ := exists_of_parentContext? hctx
    rw [hr.parent_eq, Option.some.injEq] at hp
    rw [← hp]
    exact has_iff.2 ⟨parent, hparent⟩

theorem indexed_first (settings : Settings S T E) (id : String) (b : Block T) :
    Indexed (first settings id b) := by
  refine ⟨?_, fun p => ?_, ?_, fun x => ?_⟩
  · simp [first]
  · simp [first, children]
  · simp [first]
  · simp [first]

theorem Indexed.graft (hi : Indexed t) (hs : Sound settings t) {id : String} {b : Block T}
    {post : S} (h : t.Admits id b post) : Indexed (t.graft id b post) := by
  have hentries : (t.graft id b post).entries =
      ⟨id, b, some b.header.parent, b.header.height⟩ :: t.entries := rfl
  have htips : (t.graft id b post).tips = t.tips.erase b.header.parent ++ [id] := rfl
  have hfresh : id ∉ t.entries.map Entry.id := by
    rw [← has_iff_mem, h.fresh]
    simp
  obtain ⟨ctx, hctx, _⟩ := h.accepted
  obtain ⟨parent, _, hparent, _, _⟩ := exists_of_parentContext? hctx
  have hparent : b.header.parent ∈ t.entries.map Entry.id :=
    has_iff_mem.1 (has_iff.2 ⟨parent, hparent⟩)
  have hne : b.header.parent ≠ id := fun heq => hfresh (heq ▸ hparent)
  -- a new block cannot have children yet
  have hchildless : ∀ e ∈ t.entries, e.parent ≠ some id := by
    intro e he hp
    exact hfresh (has_iff_mem.1 (hs.has_parent ((entry?_eq_some_iff hi).2 he) hp))
  refine ⟨?_, fun p => ?_, ?_, fun x => ?_⟩
  · rw [hentries, List.map_cons, List.nodup_cons]
    exact ⟨hfresh, hi.nodup⟩
  · rw [graft_children, hentries, List.reverse_cons, List.filter_append, List.map_append,
      ← hi.children p]
    by_cases hp : b.header.parent = p <;> simp [hp]
  · rw [htips, List.nodup_append]
    refine ⟨hi.tips_nodup.erase _, by simp, ?_⟩
    rintro a ha c hc rfl
    rw [List.mem_singleton] at hc
    subst hc
    exact hfresh ((hi.tips a).1 (List.mem_of_mem_erase ha)).1
  · rw [htips, List.mem_append, hi.tips_nodup.mem_erase_iff, hi.tips x, hentries]
    simp only [List.map_cons, List.mem_cons, forall_eq_or_imp, ne_eq, Option.some.injEq,
      List.not_mem_nil, or_false]
    constructor
    · rintro (⟨hx, hmem, hno⟩ | rfl)
      · exact ⟨.inr hmem, fun heq => hx heq.symm, hno⟩
      · exact ⟨.inl rfl, hne, hchildless⟩
    · rintro ⟨rfl | hmem, hx, hno⟩
      · exact .inr rfl
      · exact .inl ⟨fun heq => hx heq.symm, hmem, hno⟩

theorem Grown.indexed (h : Grown settings t) : Indexed t := by
  induction h with
  | found h =>
      obtain ⟨b, id, _, _, rfl⟩ := found_eq_ok_iff.1 h
      exact indexed_first settings id b
  | @step t u h hu ih =>
      cases hu with
      | same tally head => exact ⟨ih.nodup, ih.children, ih.tips_nodup, ih.tips⟩
      | grown hb tally head =>
          have := ih.graft h.sound hb
          exact ⟨this.nodup, this.children, this.tips_nodup, this.tips⟩

end Tree

end BlockTree
