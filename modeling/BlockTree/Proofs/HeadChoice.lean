import BlockTree.Proofs.Forest

namespace BlockTree

namespace Hex

theorem digit?_getD_lt (u : Nat) : (digit? u).getD 0 < 16 := by
  unfold digit?
  grind

theorem foldl_digits_lt (cs : List Char) (n : Nat) :
    cs.foldl (fun n c => n * 16 + (digit? c.toNat).getD 0) n < (n + 1) * Nat.pow 16 cs.length := by
  induction cs generalizing n with
  | nil => exact Nat.lt_of_lt_of_le (Nat.lt_succ_self n) (Nat.le_of_eq (Nat.mul_one _).symm)
  | cons c cs ih =>
      have hdigit := digit?_getD_lt c.toNat
      calc (c :: cs).foldl (fun n c => n * 16 + (digit? c.toNat).getD 0) n
          < (n * 16 + (digit? c.toNat).getD 0 + 1) * Nat.pow 16 cs.length := ih _
        _ ≤ ((n + 1) * 16) * Nat.pow 16 cs.length := Nat.mul_le_mul_right _ (by omega)
        _ = (n + 1) * Nat.pow 16 (c :: cs).length := by
          rw [Nat.mul_assoc, Nat.mul_comm 16]
          rfl

theorem toNat_encode_lt (b : Bytes) : toNat (encode b) < Nat.pow 16 (2 * b.length) := by
  have hlt := foldl_digits_lt (chars b) 0
  rw [length_chars, Nat.zero_add, Nat.one_mul] at hlt
  unfold toNat encode
  rwa [String.toList_ofList]

end Hex

namespace ForkChoice

def Wins (a b : String × Int) : Prop :=
  b.2 < a.2 ∨ (b.2 = a.2 ∧ Text.le a.1 b.1 = true)

variable {a b c : String × Int} {leaves more : List (String × Option Int)}

theorem Wins.refl (a : String × Int) : Wins a a :=
  .inr ⟨rfl, (Text.le_total a.1 a.1).elim id id⟩

theorem Wins.weight_le (h : Wins a b) : b.2 ≤ a.2 := by
  rcases h with hlt | ⟨heq, _⟩
  · exact Int.le_of_lt hlt
  · exact Int.le_of_eq heq

theorem Wins.trans (hab : Wins a b) (hbc : Wins b c) : Wins a c := by
  rcases hab with hlt | ⟨heq, hle⟩
  · exact .inl (Int.lt_of_le_of_lt hbc.weight_le hlt)
  · rcases hbc with hlt | ⟨heq', hle'⟩
    · exact .inl (heq ▸ hlt)
    · exact .inr ⟨heq'.trans heq, Text.le_trans _ _ _ hle hle'⟩

theorem Wins.antisymm (hab : Wins a b) (hba : Wins b a) : a = b := by
  have hweight : a.2 = b.2 := Int.le_antisymm hba.weight_le hab.weight_le
  rcases hab with hlt | ⟨_, hle⟩
  · omega
  · rcases hba with hlt | ⟨_, hle'⟩
    · omega
    · exact Prod.ext (Text.le_antisymm _ _ hle hle') hweight

theorem wins_of_beats (h : beats a b = true) : Wins a b := by
  simp only [beats, Bool.or_eq_true, Bool.and_eq_true, decide_eq_true_eq] at h
  rcases h with hlt | ⟨heq, hlt⟩
  · exact .inl hlt
  · have hnot : Text.le b.1 a.1 = false := by simpa [Text.lt, Lex.lt, Text.le] using hlt
    refine .inr ⟨heq.symm, (Text.le_total a.1 b.1).resolve_right ?_⟩
    simp [hnot]

theorem wins_of_not_beats (h : ¬beats a b = true) : Wins b a := by
  simp only [beats, Bool.or_eq_true, Bool.and_eq_true, decide_eq_true_eq, not_or, not_and] at h
  obtain ⟨hnot, htie⟩ := h
  by_cases heq : a.2 = b.2
  · exact .inr ⟨heq, by simpa [Text.lt, Lex.lt, Text.le] using htie heq⟩
  · exact .inl (by omega)

structure Best (leaves : List (String × Option Int)) (p : String × Int) : Prop where
  mem : (p.1, some p.2) ∈ leaves
  wins : ∀ x w, (x, some w) ∈ leaves → Wins p (x, w)

theorem Best.unique (ha : Best leaves a) (hb : Best leaves b) : a = b :=
  (ha.wins _ _ hb.mem).antisymm (hb.wins _ _ ha.mem)

theorem Best.congr (h : ∀ x w, (x, some w) ∈ leaves ↔ (x, some w) ∈ more) (hp : Best leaves a) :
    Best more a :=
  ⟨(h _ _).1 hp.mem, fun x w hx => hp.wins x w ((h x w).2 hx)⟩

theorem Best.cons (hp : Best leaves a) (hab : Wins a b) : Best ((b.1, some b.2) :: leaves) a := by
  refine ⟨List.mem_cons_of_mem _ hp.mem, ?_⟩
  intro x w hx
  rcases List.mem_cons.1 hx with heq | hx
  · obtain ⟨rfl, hw⟩ := Prod.mk.inj heq
    obtain rfl := Option.some.inj hw
    exact hab
  · exact hp.wins x w hx

theorem exists_best_of_some (b : String × Int) (leaves : List (String × Option Int)) :
    ∃ p, bestOf (some b) leaves = some p ∧ Best ((b.1, some b.2) :: leaves) p := by
  induction leaves generalizing b with
  | nil =>
      refine ⟨b, rfl, List.mem_singleton_self _, ?_⟩
      intro x w hx
      obtain ⟨rfl, hw⟩ := Prod.mk.inj (List.mem_singleton.1 hx)
      obtain rfl := Option.some.inj hw
      exact .refl b
  | cons leaf leaves ih =>
      obtain ⟨x, weight⟩ := leaf
      cases weight with
      | none =>
          obtain ⟨p, hp, hbest⟩ := ih b
          exact ⟨p, hp, hbest.congr (by simp)⟩
      | some w =>
          -- the better of the two stands for both in the rest of the loop
          by_cases hbeats : beats (x, w) b = true
          · obtain ⟨p, hp, hbest⟩ := ih (x, w)
            refine ⟨p, ?_, hbest.cons ?_⟩
            · rw [bestOf, if_pos hbeats, hp]
            · exact (hbest.wins x w (List.mem_cons_self ..)).trans (wins_of_beats hbeats)
          · obtain ⟨p, hp, hbest⟩ := ih b
            have hb : Wins p b := hbest.wins _ _ (List.mem_cons_self ..)
            refine ⟨p, ?_, (hbest.cons (hb.trans (wins_of_not_beats hbeats))).congr ?_⟩
            · rw [bestOf, if_neg hbeats, hp]
            · intro y v
              simp only [List.mem_cons]
              exact or_left_comm

theorem exists_best {x : String} {w : Int} (h : (x, some w) ∈ leaves) :
    ∃ p, bestOf none leaves = some p ∧ Best leaves p := by
  induction leaves with
  | nil => simp at h
  | cons leaf leaves ih =>
      obtain ⟨y, weight⟩ := leaf
      cases weight with
      | none =>
          obtain ⟨p, hp, hbest⟩ := ih (by simpa using h)
          exact ⟨p, hp, hbest.congr (by simp)⟩
      | some v => exact exists_best_of_some (y, v) leaves

theorem best_head (genesisId : String) {x : String} {w : Int} (h : (x, some w) ∈ leaves) :
    ∃ v, Best leaves (head genesisId leaves, v) := by
  obtain ⟨p, hp, hbest⟩ := exists_best h
  refine ⟨p.2, ?_⟩
  rw [head, hp]
  exact hbest

theorem mem_weighed {weight? : String → Option Int} {ids : List String} {id : String} {w : Int} :
    (id, some w) ∈ ids.map (fun id => (id, weight? id)) ↔ id ∈ ids ∧ weight? id = some w := by
  simp only [List.mem_map, Prod.mk.injEq]
  constructor
  · rintro ⟨x, hx, rfl, hw⟩
    exact ⟨hx, hw⟩
  · rintro ⟨hid, hw⟩
    exact ⟨id, hid, rfl, hw⟩

end ForkChoice

variable {S T E : Type}

namespace Tree

variable {settings : Settings S T E} {t u : Tree S T E} {rule : ForkChoice}

def Weighs (t : Tree S T E) (rule : ForkChoice) (least : Int) : Prop :=
  ∀ id e, t.entry? id = some e → least ≤ rule.weight id e.block.header t.difficulty

def weighedLeaves (t : Tree S T E) (rule : ForkChoice) : List (String × Option Int) :=
  t.leaves.map fun id => (id, t.weight? rule id)

theorem mem_weighedLeaves {id : String} {w : Int} :
    (id, some w) ∈ t.weighedLeaves rule ↔ id ∈ t.leaves ∧ t.weight? rule id = some w :=
  ForkChoice.mem_weighed

theorem exists_weight? {id : String} (hid : t.has id = true) (rule : ForkChoice) :
    ∃ w, t.weight? rule id = some w :=
  ⟨_, if_pos hid⟩

theorem Grown.weight?_of_entry (h : Grown settings t) (rule : ForkChoice) {id parent : String}
    {e : Entry T} (he : t.entry? id = some e) (hp : e.parent = some parent) :
    ∃ w, t.weight? rule parent = some w ∧
      t.weight? rule id = some (w + rule.weight id e.block.header t.difficulty) := by
  have hid : e.id = id := Entry.id_of_find? he
  have hline := h.lineage_path (h.sound.has_parent (hid.symm ▸ he) hp)
  refine ⟨_, weight?_of_lineage h rule hline, ?_⟩
  rw [weight?_of_lineage h rule (.next he hp hline), Entry.pathWeight, Entry.ownWeight, hp, hid]

theorem Gains.mem_leaves_iff (hgrown : Grown settings t) {id : String} {b : Block T}
    (h : t.Gains u id b) {x : String} :
    x ∈ u.leaves ↔ x = id ∨ (x ∈ t.leaves ∧ x ≠ b.header.parent) := by
  rw [h.leaves, (Text.sort_perm _).mem_iff, List.mem_append, List.mem_singleton,
    hgrown.consistent.leavesNodup.mem_erase_iff, or_comm, and_comm]

theorem Lineage.mem_self {id : String} {es : List (Entry T)} (h : t.Lineage id es) :
    id ∈ es.map Entry.id := by
  cases h with
  | first he _ => exact List.mem_singleton.2 (Entry.id_of_find? he).symm
  | next he _ _ => exact List.mem_cons.2 (.inl (Entry.id_of_find? he).symm)

theorem Grown.exists_leaf_above (h : Grown settings t) {x : String} (hx : t.has x = true) :
    ∃ y es, y ∈ t.leaves ∧ t.Lineage y es ∧ x ∈ es.map Entry.id := by
  induction h generalizing x with
  | found h =>
      obtain ⟨b, id, _, _, rfl⟩ := found_eq_ok_iff.1 h
      obtain rfl : id = x := by simpa [has_first] using hx
      have hline := (Grown.found h).lineage_path hx
      exact ⟨id, _, (Text.sort_perm [id]).mem_iff.2 (List.mem_singleton_self id), hline,
        hline.mem_self⟩
  | @step t u h hu ih =>
      have hgrown := Grown.step h hu
      have hkeep : ∀ {y : String} {es : List (Entry T)}, t.Lineage y es → u.Lineage y es :=
        fun hline => hline.mono fun _ _ => hu.entry_eq
      cases hu with
      | same tally head =>
          obtain ⟨y, es, hleaf, hline, hmem⟩ := ih hx
          exact ⟨y, es, hleaf, hkeep hline, hmem⟩
      | @grown id b post hb tally head =>
          have hgains := gains_graft h hb tally head
          by_cases hid : id = x
          · subst hid
            have hline := hgrown.lineage_path hx
            exact ⟨id, _, (hgains.mem_leaves_iff h).2 (.inl rfl), hline, hline.mem_self⟩
          · obtain ⟨y, es, hleaf, hline, hmem⟩ := ih ((has_graft_of_ne b post hid).symm.trans hx)
            -- a leaf that gets a child gives its place to the child
            by_cases hy : y = b.header.parent
            · subst hy
              exact ⟨id, _, (hgains.mem_leaves_iff h).2 (.inl rfl),
                .next hgains.entry rfl (hkeep hline), List.mem_cons_of_mem _ hmem⟩
            · exact ⟨y, es, (hgains.mem_leaves_iff h).2 (.inr ⟨hleaf, hy⟩), hkeep hline, hmem⟩

theorem Lineage.weight_le (hgrown : Grown settings t) (hw : t.Weighs rule 0) {x y : String}
    {es : List (Entry T)} (h : t.Lineage y es) (hx : x ∈ es.map Entry.id) {v w : Int}
    (hv : t.weight? rule x = some v) (hyw : t.weight? rule y = some w) : v ≤ w := by
  -- what stands further up a path has all the weight below it
  induction h generalizing w with
  | @first y e he hp =>
      obtain rfl : x = e.id := List.mem_singleton.1 hx
      rw [Entry.id_of_find? he, hyw] at hv
      exact Int.le_of_eq (Option.some.inj hv).symm
  | @next y parent e es he hp hline ih =>
      obtain ⟨u, hu, hsum⟩ := hgrown.weight?_of_entry rule he hp
      obtain rfl := Option.some.inj (hyw.symm.trans hsum)
      rcases List.mem_cons.1 hx with rfl | hx
      · rw [Entry.id_of_find? he, hsum] at hv
        exact Int.le_of_eq (Option.some.inj hv).symm
      · have hbelow := ih hx hu
        have hown := hw y e he
        omega

theorem Grown.best_bestHead (h : Grown settings t) (rule : ForkChoice) :
    ∃ w, ForkChoice.Best (t.weighedLeaves rule) (t.bestHead rule, w) := by
  obtain ⟨_, _, hroot, _⟩ := h.sound.first
  obtain ⟨y, _, hleaf, hline, _⟩ := h.exists_leaf_above (has_iff.2 ⟨_, hroot⟩)
  obtain ⟨_, hw⟩ := exists_weight? hline.has rule
  exact ForkChoice.best_head t.genesisId (mem_weighedLeaves.2 ⟨hleaf, hw⟩)

theorem Grown.bestHead_of_single (h : Grown settings t) (rule : ForkChoice) {id : String}
    (hleaves : t.leaves = [id]) : t.bestHead rule = id := by
  obtain ⟨_, hbest⟩ := h.best_bestHead rule
  obtain ⟨hleaf, _⟩ := mem_weighedLeaves.1 hbest.mem
  rw [hleaves] at hleaf
  exact List.mem_singleton.1 hleaf

theorem Grown.weight?_le_bestHead (h : Grown settings t) (hw : t.Weighs rule 0) :
    ∃ m, t.weight? rule (t.bestHead rule) = some m ∧
      ∀ x w, t.weight? rule x = some w → w ≤ m := by
  obtain ⟨m, hbest⟩ := h.best_bestHead rule
  refine ⟨m, (mem_weighedLeaves.1 hbest.mem).2, ?_⟩
  intro x w hx
  obtain ⟨y, _, hleaf, hline, hmem⟩ := h.exists_leaf_above (has_of_weight? hx)
  obtain ⟨v, hv⟩ := exists_weight? hline.has rule
  calc w ≤ v := hline.weight_le h hw hmem hx hv
    _ ≤ m := (hbest.wins y v (mem_weighedLeaves.2 ⟨hleaf, hv⟩)).weight_le

section OneMore

variable {id : String} {b : Block T} (hgrown : Grown settings t) (hu : t.Evolves u)
  (hgains : t.Gains u id b)

include hgrown hu hgains

theorem Gains.weighedLeaf_cases {x : String} {w : Int} (hx : (x, some w) ∈ u.weighedLeaves rule) :
    x = id ∨ (x, some w) ∈ t.weighedLeaves rule := by
  obtain ⟨hleaf, hw⟩ := mem_weighedLeaves.1 hx
  refine ((hgains.mem_leaves_iff hgrown).1 hleaf).imp_right ?_
  rintro ⟨hleaf, _⟩
  have hhas := (hgrown.consistent.leaves x |>.1 hleaf).1
  exact mem_weighedLeaves.2 ⟨hleaf, (hu.weight? rule hhas).symm.trans hw⟩

theorem Gains.bestHead_of_parent (hpos : 1 ≤ rule.weight id b.header u.difficulty)
    (hp : b.header.parent = t.bestHead rule) : u.bestHead rule = id := by
  have hgrown' := Grown.step hgrown hu
  obtain ⟨m, hbest⟩ := hgrown.best_bestHead rule
  obtain ⟨m', hbest'⟩ := hgrown'.best_bestHead rule
  have hhead := (mem_weighedLeaves.1 hbest.mem).2
  obtain ⟨w, hw, hnew⟩ := hgrown'.weight?_of_entry rule hgains.entry rfl
  have hwm : w = m := by
    rw [hp, hu.weight? rule (has_of_weight? hhead), hhead] at hw
    exact (Option.some.inj hw).symm
  subst hwm
  -- no leaf outweighed the parent, and the new block does
  have hbest'' : ForkChoice.Best (u.weighedLeaves rule)
      (id, w + rule.weight id b.header u.difficulty) := by
    refine ⟨mem_weighedLeaves.2 ⟨(hgains.mem_leaves_iff hgrown).2 (.inl rfl), hnew⟩, ?_⟩
    intro x v hx
    rcases hgains.weighedLeaf_cases hgrown hu hx with rfl | hold
    · obtain rfl := Option.some.inj (hnew.symm.trans (mem_weighedLeaves.1 hx).2)
      exact .refl _
    · have hle := (hbest.wins x v hold).weight_le
      exact .inl (by simp only at hle ⊢; omega)
  exact congrArg Prod.fst (hbest'.unique hbest'')

theorem Gains.bestHead_of_not_parent (hp : b.header.parent ≠ t.bestHead rule) :
    u.bestHead rule = t.bestHead rule ∨ u.bestHead rule = id := by
  obtain ⟨m, hbest⟩ := hgrown.best_bestHead rule
  obtain ⟨m', hbest'⟩ := (Grown.step hgrown hu).best_bestHead rule
  rcases hgains.weighedLeaf_cases hgrown hu hbest'.mem with hnew | hold
  · exact .inr hnew
  · obtain ⟨hleaf, hw⟩ := mem_weighedLeaves.1 hbest.mem
    have hstill : (t.bestHead rule, some m) ∈ u.weighedLeaves rule :=
      mem_weighedLeaves.2 ⟨(hgains.mem_leaves_iff hgrown).2 (.inr ⟨hleaf, hp.symm⟩),
        (hu.weight? rule (has_of_weight? hw)).trans hw⟩
    have heq := (hbest'.wins _ _ hstill).antisymm (hbest.wins _ _ hold)
    exact .inl (congrArg Prod.fst heq)

end OneMore

end Tree

namespace Preference

theorem weight_nonneg (p : Preference) (id : String) (d : Difficulty) : 0 ≤ p.weight id d := by
  cases p with
  | heaviestChain => exact Int.natCast_nonneg _
  | achievedWork => exact Int.natCast_nonneg _
  | longestChain => exact Int.one_nonneg
  | mostEvenHashes =>
      change 0 ≤ if Hex.toNat id % 2 = 0 then 1 else 0
      split
      · exact Int.one_nonneg
      · exact Int.le_refl 0

theorem weight_pos {p : Preference} (hp : p ≠ .mostEvenHashes) {h : Header} {id : String}
    (hid : h.id = .ok id) (d : Difficulty) : 1 ≤ p.weight id d := by
  cases p with
  | heaviestChain => exact Int.ofNat_le.2 (Nat.pow_pos (by decide))
  | achievedWork =>
      obtain ⟨bytes, _, rfl⟩ := Header.id_eq_ok_iff.1 hid
      have hlt := Hex.toNat_encode_lt (keccak256 bytes)
      rw [length_keccak256] at hlt
      exact Int.ofNat_le.2 (Nat.div_pos hlt (Nat.succ_pos _))
  | longestChain => exact Int.le_refl 1
  | mostEvenHashes => exact absurd rfl hp

end Preference

namespace Tree

variable {settings : Settings S T E} {t : Tree S T E}

theorem Sound.preference_weighs (hs : Sound settings t) (p : Preference) :
    t.Weighs p.rule 0 ∧ (p ≠ .mostEvenHashes → t.Weighs p.rule 1) := by
  refine ⟨fun id _ _ => p.weight_nonneg id _, fun hp id e he => ?_⟩
  obtain ⟨_, hstate⟩ := hs.exists_state he
  exact Preference.weight_pos hp (hs.commits he hstate).id_eq _

end Tree

namespace Session

variable {settings : Settings S T E} {s s' : Session S T E} {r : Asked} {rule : ForkChoice}

def headWeight? (s : Session S T E) (r : Asked) : Option Int :=
  (s.head? r).bind (s.weight? r)

section Told

variable (hgrown : Tree.Grown settings s.tree) (hs : s.Exact) (hr : s.rule? r = some rule)

include hgrown hs hr

theorem headWeight?_eq :
    s.headWeight? r = s.tree.weight? rule (s.tree.bestHead rule) := by
  rw [headWeight?, head?_eq hgrown hs hr, Option.bind_some, weight?_eq hgrown hs hr]

theorem Stepped.head_cases (h : s.Stepped s') {id : String} {e : Entry T}
    (hno : s.tree.has id = false) (he : s'.tree.entry? id = some e)
    (hpos : 1 ≤ rule.weight id e.block.header s'.tree.difficulty) :
    ∃ head head', s.head? r = some head ∧ s'.head? r = some head' ∧
      (head' = head ∨ head' = id) ∧ (e.parent = some head → head' = id) := by
  have hu := h.evolves
  obtain ⟨b, hgains⟩ := hu.gains hgrown hno (Tree.has_iff.2 ⟨e, he⟩)
  obtain rfl := Option.some.inj (hgains.entry.symm.trans he)
  have hhead' := head?_eq (.step hgrown hu) (h.exact hgrown hs) (h.rule? hgrown hs hr)
  refine ⟨_, _, head?_eq hgrown hs hr, hhead', ?_, ?_⟩
  · by_cases hp : b.header.parent = s.tree.bestHead rule
    · exact .inr (hgains.bestHead_of_parent hgrown hu hpos hp)
    · exact hgains.bestHead_of_not_parent hgrown hu hp
  · intro hp
    exact hgains.bestHead_of_parent hgrown hu hpos (Option.some.inj hp)

theorem weight?_le_head (hw : s.tree.Weighs rule 0) :
    ∃ m, s.headWeight? r = some m ∧ ∀ x w, s.weight? r x = some w → w ≤ m := by
  obtain ⟨m, hm, hmax⟩ := hgrown.weight?_le_bestHead hw
  refine ⟨m, (headWeight?_eq hgrown hs hr).trans hm, ?_⟩
  intro x w hx
  rw [weight?_eq hgrown hs hr] at hx
  exact hmax x w hx

theorem headWeight?_le_run (calls : List (Call S T)) (hw : (s.run calls).tree.Weighs rule 0) :
    ∃ m m', s.headWeight? r = some m ∧ (s.run calls).headWeight? r = some m' ∧ m ≤ m' := by
  have hgrown' := run_grown hgrown calls
  have hexact' := run_exact hgrown hs calls
  have hr' := run_rule? hgrown hs hr calls
  obtain ⟨m, hbest⟩ := hgrown.best_bestHead rule
  obtain ⟨m', hm', hmax⟩ := weight?_le_head hgrown' hexact' hr' hw
  have hm := (Tree.mem_weighedLeaves.1 hbest.mem).2
  -- the old head is there still, with the weight it had
  have hstill := (s.run_plainWeight rule (Tree.has_of_weight? hm) calls).trans hm
  refine ⟨m, m', (headWeight?_eq hgrown hs hr).trans hm, hm', hmax (s.tree.bestHead rule) m ?_⟩
  rw [weight?_eq hgrown' hexact' hr']
  exact hstill

end Told

end Session

theorem fork_choice_stable_and_monotone (settings : Settings S T E) {t₀ : Tree S T E}
    (hfound : Tree.found settings = .ok t₀) (calls : List (Call S T)) {s : Session S T E}
    (hs : s = (Session.start t₀).run calls) {r : Asked} {rule : ForkChoice}
    (hr : s.rule? r = some rule) :
    (∀ c id e, s.tree.has id = false → (s.step c).tree.entry? id = some e →
      1 ≤ rule.weight id e.block.header settings.difficulty →
      ∃ head head', s.head? r = some head ∧ (s.step c).head? r = some head' ∧
        (head' = head ∨ head' = id) ∧ (e.parent = some head → head' = id)) ∧
    (s.tree.Weighs rule 0 → ∃ m, s.headWeight? r = some m ∧
      ∀ x w, s.weight? r x = some w → w ≤ m) ∧
    (∀ more, (s.run more).tree.Weighs rule 0 →
      ∃ m m', s.headWeight? r = some m ∧ (s.run more).headWeight? r = some m' ∧ m ≤ m') ∧
    ∀ p : Preference, s.tree.Weighs p.rule 0 ∧ (p ≠ .mostEvenHashes → s.tree.Weighs p.rule 1) := by
  subst hs
  have hgrown := Session.grown_run hfound calls
  have hexact := Session.run_exact (.found hfound) (Session.exact_start hfound) calls
  refine ⟨?_, Session.weight?_le_head hgrown hexact hr,
    Session.headWeight?_le_run hgrown hexact hr, hgrown.sound.preference_weighs⟩
  intro c id e hno he hpos
  have hstep := ((Session.start t₀).run calls).stepped_step c
  have hgrown' := Tree.Grown.step hgrown hstep.evolves
  rw [← hgrown'.sound.validity] at hpos
  exact hstep.head_cases hgrown hexact hr hno he hpos

theorem Sums.leaves_opening (b : Block Int) :
    ((Tree.first settings genesisId b).commit openingId opening ⟨3, 3⟩).tree.leaves =
      [openingId] := by
  change Text.sort ([genesisId].erase opening.header.parent ++ [openingId]) = _
  decide

theorem Sums.entry_second (b : Block Int) :
    ((Session.start ((Tree.first settings genesisId b).commit openingId opening ⟨3, 3⟩).tree).step
      (.insert second)).tree.entry? secondId = some ⟨secondId, second, some openingId, 2⟩ := by
  rw [Session.start_step_insert (Tree.insert_of_admits (second_admits b))]
  exact (Tree.entry?_commit ..).trans (if_pos rfl)

theorem sums_fork_choice_stable_and_monotone :
    ∃ t₀ s, Tree.found Sums.settings = .ok t₀ ∧
      s = (Session.start t₀).run [.insert Sums.second, .insert Sums.opening] ∧
      s.rule? .own = some Preference.heaviestChain.rule ∧ s.tree.has Sums.secondId = false ∧
      s.head? .own = some Sums.openingId ∧
      (s.step (.insert Sums.second)).head? .own = some Sums.secondId ∧
      ∃ m m', s.headWeight? .own = some m ∧
        (s.run [.insert Sums.second]).headWeight? .own = some m' ∧ m ≤ m' ∧
        ∀ x w, s.weight? .own x = some w → w ≤ m := by
  obtain ⟨b, hfound⟩ := Sums.found_first
  have hrun := Sums.run_second_opening b
  have hno := (Sums.second_admits b).fresh
  have hleaves := Sums.leaves_opening b
  have hentry := Sums.entry_second b
  have hgrown := Session.grown_run hfound [.insert Sums.second, .insert Sums.opening]
  have hexact := Session.run_exact (.found hfound) (Session.exact_start hfound)
    [.insert Sums.second, .insert Sums.opening]
  have hown : (Session.start (Tree.first Sums.settings Sums.genesisId b)).rule? .own =
      some Preference.heaviestChain.rule := rfl
  have hr := Session.run_rule? (.found hfound) (Session.exact_start hfound) hown
    [.insert Sums.second, .insert Sums.opening]
  obtain ⟨hswitch, hmax, hmono, hnamed⟩ := fork_choice_stable_and_monotone Sums.settings hfound
    [.insert Sums.second, .insert Sums.opening] rfl hr
  rw [hrun] at hgrown hexact hr hswitch hmax hmono hnamed
  have hhead := Session.head?_eq hgrown hexact hr
  rw [hgrown.bestHead_of_single _ hleaves] at hhead
  obtain ⟨head, head', hold, hnew, _, hmoves⟩ :=
    hswitch (.insert Sums.second) Sums.secondId _ hno hentry (by decide)
  obtain rfl := Option.some.inj (hhead.symm.trans hold)
  rw [hmoves rfl] at hnew
  have hweighs := (Session.run_grown hgrown [.insert Sums.second]).sound.preference_weighs
    .heaviestChain
  obtain ⟨m, m', hm, hm', hle⟩ := hmono [.insert Sums.second] hweighs.1
  obtain ⟨m₁, hm₁, hall⟩ := hmax (hnamed .heaviestChain).1
  obtain rfl := Option.some.inj (hm.symm.trans hm₁)
  exact ⟨_, _, hfound, hrun.symm, hr, hno, hhead, hnew, m, m', hm, hm', hle, hall⟩

end BlockTree
