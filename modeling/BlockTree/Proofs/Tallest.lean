import BlockTree.Proofs.Descent

namespace BlockTree

variable {S T E : Type}

namespace Preference

theorem work_le_achieved {d : Difficulty} {id : String} (h : Hex.toNat id ≤ d.threshold) :
    heaviestChain.weight id d ≤ achievedWork.weight id d := by
  apply Int.ofNat_le.2
  rw [Nat.le_div_iff_mul_le (Nat.succ_pos _)]
  calc d.work * (Hex.toNat id + 1)
      ≤ d.work * (d.threshold + 1) := Nat.mul_le_mul_left _ (Nat.succ_le_succ h)
    _ = Nat.pow 2 256 := by rw [Nat.mul_comm, d.threshold_add_one_mul_work]

end Preference

namespace Tree

variable {settings : Settings S T E} {t : Tree S T E} {rule other : ForkChoice}

theorem height?_of_entry {id : String} {e : Entry T} (he : t.entry? id = some e) :
    t.height? id = some e.height := by
  rw [height?, he, Option.map_some]

theorem Grown.weight?_of_parentless (h : Grown settings t) (rule : ForkChoice) {id : String}
    {e : Entry T} (he : t.entry? id = some e) (hp : e.parent = none) :
    t.weight? rule id = some 0 := by
  rw [weight?_of_lineage h rule (.first he hp), Entry.pathWeight, Entry.ownWeight, hp]
  rfl

def Uniform (t : Tree S T E) (rule : ForkChoice) (own : Int) : Prop :=
  ∀ id e, t.entry? id = some e → rule.weight id e.block.header t.difficulty = own

theorem Lineage.weight?_uniform (hgrown : Grown settings t) {own : Int}
    (hown : t.Uniform rule own) {id : String} {es : List (Entry T)} (h : t.Lineage id es)
    {e : Entry T} (he : t.entry? id = some e) : t.weight? rule id = some (e.height * own) := by
  induction h generalizing e with
  | first hf hp =>
      obtain rfl := Option.some.inj (he.symm.trans hf)
      have hzero := (hgrown.sound.height_eq_zero_iff he).2
        ((hgrown.sound.parent_eq_none_iff he).1 hp)
      rw [hgrown.weight?_of_parentless rule he hp, hzero, Int.zero_mul]
  | @next id parent f es hf hp _ ih =>
      obtain rfl := Option.some.inj (he.symm.trans hf)
      obtain ⟨p, hparent, hsucc, _⟩ := hgrown.sound.exists_parent he hp
      obtain ⟨w, hw, hsum⟩ := hgrown.weight?_of_entry rule he hp
      obtain rfl := Option.some.inj ((ih hparent).symm.trans hw)
      rw [hsum, hown id e he, hsucc, Int.add_mul, Int.one_mul]

theorem Lineage.weight?_mono (hgrown : Grown settings t)
    (hle : ∀ id e, t.entry? id = some e → id ≠ t.genesisId →
      rule.weight id e.block.header t.difficulty ≤ other.weight id e.block.header t.difficulty)
    {id : String} {es : List (Entry T)} (h : t.Lineage id es) {v : Int}
    (hv : t.weight? rule id = some v) : ∃ w, t.weight? other id = some w ∧ v ≤ w := by
  induction h generalizing v with
  | first he hp =>
      have hzero := hgrown.weight?_of_parentless rule he hp
      obtain rfl := Option.some.inj (hzero.symm.trans hv)
      exact ⟨0, hgrown.weight?_of_parentless other he hp, Int.le_refl 0⟩
  | @next id parent e es he hp _ ih =>
      have hne : id ≠ t.genesisId := by
        intro heq
        rw [(hgrown.sound.parent_eq_none_iff he).2 heq] at hp
        cases hp
      obtain ⟨v', hv', hsum⟩ := hgrown.weight?_of_entry rule he hp
      obtain ⟨w', hw', hsum'⟩ := hgrown.weight?_of_entry other he hp
      obtain ⟨u, hu, hbelow⟩ := ih hv'
      obtain rfl := Option.some.inj (hu.symm.trans hw')
      obtain rfl := Option.some.inj (hsum.symm.trans hv)
      exact ⟨_, hsum', Int.add_le_add hbelow (hle id e he hne)⟩

theorem Grown.weight?_of_height? (h : Grown settings t) {own : Int} (hown : t.Uniform rule own)
    {id : String} {height : Int} (hid : t.height? id = some height) :
    t.weight? rule id = some (height * own) := by
  obtain ⟨e, he, rfl⟩ := Option.map_eq_some_iff.1 hid
  exact (h.lineage_path (has_iff.2 ⟨e, he⟩)).weight?_uniform h hown he

theorem uniform_longestChain (t : Tree S T E) : t.Uniform Preference.longestChain.rule 1 :=
  fun _ _ _ => rfl

theorem uniform_heaviestChain (t : Tree S T E) :
    t.Uniform Preference.heaviestChain.rule t.difficulty.work :=
  fun _ _ _ => rfl

theorem Sound.work_eq (hs : Sound settings t) :
    t.difficulty.work = Nat.pow 2 settings.difficulty.bits :=
  congrArg (fun v : Validity S T E => v.difficulty.work) hs.validity

theorem Grown.height_mul_work_le_achieved (h : Grown settings t) {id : String} {height : Int}
    (hid : t.height? id = some height) :
    ∃ w, t.weight? Preference.achievedWork.rule id = some w ∧ height * t.difficulty.work ≤ w := by
  have hweight := h.weight?_of_height? t.uniform_heaviestChain hid
  refine (h.lineage_path (has_of_weight? hweight)).weight?_mono h ?_ hweight
  intro x e he hne
  obtain ⟨_, _, _, hchecked⟩ := h.sound.checked he hne
  have hdigest := hchecked.digest
  rw [← h.sound.validity] at hdigest
  exact Preference.work_le_achieved hdigest

structure Tallest (t : Tree S T E) (head : String) (height : Int) : Prop where
  height_eq : t.height? head = some height
  wins : ∀ id h, t.height? id = some h → ForkChoice.Wins (head, height) (id, h)

theorem Tallest.unique {x y : String} {m n : Int} (hx : t.Tallest x m) (hy : t.Tallest y n) :
    x = y :=
  congrArg Prod.fst ((hx.wins y n hy.height_eq).antisymm (hy.wins x m hx.height_eq))

theorem tallest_first (settings : Settings S T E) (id : String) (b : Block T) :
    (first settings id b).Tallest id 0 := by
  refine ⟨height?_of_entry ((entry?_first ..).trans (if_pos rfl)), ?_⟩
  intro x height hx
  obtain ⟨e, he, rfl⟩ := Option.map_eq_some_iff.1 hx
  rw [entry?_first] at he
  split at he
  · rename_i hid
    subst hid
    obtain rfl := Option.some.inj he
    exact ForkChoice.Wins.refl (id, 0)
  · cases he

theorem Tallest.commit {x id : String} {m : Int} {b : Block T} (h : t.Tallest x m) (post : S)
    (hwins : ForkChoice.Wins (id, b.header.height) (x, m)) :
    (t.commit id b post).tree.Tallest id b.header.height := by
  refine ⟨height?_of_entry ((entry?_commit ..).trans (if_pos rfl)), ?_⟩
  intro y height hy
  obtain ⟨e, he, rfl⟩ := Option.map_eq_some_iff.1 hy
  rw [entry?_commit] at he
  split at he
  · rename_i hid
    subst hid
    obtain rfl := Option.some.inj he
    exact ForkChoice.Wins.refl (id, b.header.height)
  · exact hwins.trans (h.wins y e.height (height?_of_entry he))

theorem Grown.leaf_or_child (h : Grown settings t) {id : String} {height : Int}
    (hid : t.height? id = some height) :
    id ∈ t.leaves ∨ ∃ child, t.height? child = some (height + 1) := by
  obtain ⟨e, he, rfl⟩ := Option.map_eq_some_iff.1 hid
  cases hchildren : t.children id with
  | nil => exact .inl ((h.consistent.leaves id).2 ⟨has_iff.2 ⟨e, he⟩, hchildren⟩)
  | cons child rest =>
      have hmem : child ∈ t.children id := by rw [hchildren]; exact List.mem_cons_self ..
      obtain ⟨c, hc, hp⟩ := (h.consistent.children id child).1 hmem
      obtain ⟨p, hparent, hsucc, _⟩ := h.sound.exists_parent hc hp
      obtain rfl := Option.some.inj (he.symm.trans hparent)
      exact .inr ⟨child, hsucc ▸ height?_of_entry hc⟩

theorem Grown.height_le_bestHead (h : Grown settings t) {own : Int} (hown : t.Uniform rule own)
    (hpos : 0 < own) {top : Int} (htop : t.height? (t.bestHead rule) = some top) {id : String}
    {height : Int} (hid : t.height? id = some height) : height ≤ top := by
  have hweighs : t.Weighs rule 0 := by
    intro x e he
    rw [hown x e he]
    exact Int.le_of_lt hpos
  obtain ⟨m, hm, hmost⟩ := h.weight?_le_bestHead hweighs
  obtain rfl := Option.some.inj (hm.symm.trans (h.weight?_of_height? hown htop))
  exact Int.le_of_mul_le_mul_right (hmost id _ (h.weight?_of_height? hown hid)) hpos

theorem Grown.tallest_bestHead (h : Grown settings t) {own : Int} (hown : t.Uniform rule own)
    (hpos : 0 < own) : ∃ height, t.Tallest (t.bestHead rule) height := by
  obtain ⟨w, hbest⟩ := h.best_bestHead rule
  obtain ⟨top, htop⟩ := h.exists_height_bestHead rule
  obtain rfl := Option.some.inj
    ((mem_weighedLeaves.1 hbest.mem).2.symm.trans (h.weight?_of_height? hown htop))
  refine ⟨top, htop, ?_⟩
  intro id height hid
  rcases h.leaf_or_child hid with hleaf | ⟨child, hchild⟩
  · have hweight := h.weight?_of_height? hown hid
    rcases hbest.wins id _ (mem_weighedLeaves.2 ⟨hleaf, hweight⟩) with hlt | ⟨heq, hfirst⟩
    · exact .inl (Int.lt_of_mul_lt_mul_right hlt (Int.le_of_lt hpos))
    · exact .inr ⟨Int.eq_of_mul_eq_mul_right (Int.ne_of_gt hpos) heq, hfirst⟩
  · -- what has a child is not as high as the child
    have hle := h.height_le_bestHead hown hpos htop hchild
    exact .inl (by omega)

theorem Grown.tallest_heaviestChain (h : Grown settings t) :
    ∃ height, t.Tallest (t.bestHead Preference.heaviestChain.rule) height :=
  h.tallest_bestHead t.uniform_heaviestChain (Int.natCast_pos.2 (Nat.pow_pos (by decide)))

theorem Grown.tallest_longestChain (h : Grown settings t) :
    ∃ height, t.Tallest (t.bestHead Preference.longestChain.rule) height :=
  h.tallest_bestHead t.uniform_longestChain Int.one_pos

end Tree

theorem heaviest_and_longest_chain_agree (settings : Settings S T E) {t₀ : Tree S T E}
    (hfound : Tree.found settings = .ok t₀) (calls : List (Call S T)) {s : Session S T E}
    (hs : s = (Session.start t₀).run calls) :
    (∀ r id height, s.tree.height? id = some height →
      (s.rule? r = some Preference.longestChain.rule → s.weight? r id = some height) ∧
      (s.rule? r = some Preference.heaviestChain.rule →
        s.weight? r id = some (height * (Nat.pow 2 settings.difficulty.bits : Nat))) ∧
      (s.rule? r = some Preference.achievedWork.rule →
        ∃ w, s.weight? r id = some w ∧ height * (Nat.pow 2 settings.difficulty.bits : Nat) ≤ w)) ∧
    ∃ head height, s.tree.Tallest head height ∧
      ∀ r, (s.rule? r = some Preference.heaviestChain.rule ∨
        s.rule? r = some Preference.longestChain.rule) → s.head? r = some head := by
  subst hs
  have hgrown := Session.grown_run hfound calls
  have hexact := Session.run_exact (.found hfound) (Session.exact_start hfound) calls
  have hwork := hgrown.sound.work_eq
  obtain ⟨_, hbest⟩ := hgrown.tallest_heaviestChain
  obtain ⟨top, htop⟩ := hgrown.tallest_longestChain
  refine ⟨?_, _, top, htop, ?_⟩
  · intro r id height hid
    refine ⟨?_, ?_, ?_⟩
    · intro hr
      rw [Session.weight?_eq hgrown hexact hr,
        hgrown.weight?_of_height? (Tree.uniform_longestChain _) hid, Int.mul_one]
    · intro hr
      rw [Session.weight?_eq hgrown hexact hr,
        hgrown.weight?_of_height? (Tree.uniform_heaviestChain _) hid, hwork]
    · intro hr
      rw [Session.weight?_eq hgrown hexact hr, ← hwork]
      exact hgrown.height_mul_work_le_achieved hid
  · rintro r (hr | hr)
    · rw [Session.head?_eq hgrown hexact hr, hbest.unique htop]
    · exact Session.head?_eq hgrown hexact hr

namespace Sums

def mined : Settings SumProduct.State Int SumProduct.Failure where
  machine := SumProduct.machine
  difficulty := ⟨4, by decide⟩
  genesisState := ⟨0, 1⟩

def leftId : String :=
  "0x052403470bc9b4149a42674bb91ff7398fb7df57505be6e478f1c8c26d5e5f5d"

def rightId : String :=
  "0x0029df901bdff89f8347ad4740b5421be0fb33a380cbc2ec75d10d109661328e"

def tipId : String :=
  "0x0e262f036e6cfea02a170c2b1a33c512fa17fe4f06af8b0f9e351e0883859ef7"

def openingWith (nonce : Int) : Block Int :=
  { opening with header := { opening.header with nonce } }

def left : Block Int :=
  openingWith 22

def right : Block Int :=
  openingWith 49

def tip : Block Int :=
  { second with header := { second.header with parent := leftId } }

theorem fork_ids :
    left.header.id = .ok leftId ∧ right.header.id = .ok rightId ∧ tip.header.id = .ok tipId := by
  have h : left.header.id.toOption = some leftId ∧ right.header.id.toOption = some rightId ∧
      tip.header.id.toOption = some tipId := by decide +kernel
  exact ⟨eq_ok_of_toOption h.1, eq_ok_of_toOption h.2.1, eq_ok_of_toOption h.2.2⟩

theorem openingWith_accepted {nonce : Int} {id : String}
    (hid : (openingWith nonce).header.id = .ok id) (hnonce : 0 ≤ nonce)
    (hdigest : mined.difficulty.admits id = true) :
    mined.toValidity.Accepts ⟨genesisId, 0, ⟨0, 1⟩⟩ (openingWith nonce) ⟨3, 3⟩ := by
  have hshape : (openingWith nonce).header.malformedField? = none := by
    obtain ⟨hlink, hbody, hstate, _⟩ := Header.wellFormed_iff.1 opening_accepted.wellFormed
    exact Header.wellFormed_iff.2 ⟨hlink, hbody, hstate, hnonce⟩
  exact { opening_accepted with
    wellFormed := hshape
    digest := ⟨id, hid, hdigest⟩
    rules := fun _ hr => absurd hr List.not_mem_nil }

theorem tip_accepted : mined.toValidity.Accepts ⟨leftId, 1, ⟨3, 3⟩⟩ tip ⟨8, 15⟩ :=
  { second_accepted with
    wellFormed := by decide
    linked := rfl
    digest := ⟨tipId, fork_ids.2.2, by decide⟩
    rules := fun _ hr => absurd hr List.not_mem_nil }

def withLeft (b : Block Int) : Tree SumProduct.State Int SumProduct.Failure :=
  ((Tree.first mined genesisId b).commit leftId left ⟨3, 3⟩).tree

def withRight (b : Block Int) : Tree SumProduct.State Int SumProduct.Failure :=
  ((withLeft b).commit rightId right ⟨3, 3⟩).tree

def forked (b : Block Int) : Tree SumProduct.State Int SumProduct.Failure :=
  ((withRight b).commit tipId tip ⟨8, 15⟩).tree

theorem left_admits (b : Block Int) :
    (Tree.first mined genesisId b).Admits leftId left ⟨3, 3⟩ :=
  ⟨fork_ids.1, Tree.has_first .., _, Tree.parentContext?_first rfl ..,
    openingWith_accepted fork_ids.1 (by decide) (by decide)⟩

theorem right_admits (b : Block Int) : (withLeft b).Admits rightId right ⟨3, 3⟩ := by
  refine ⟨fork_ids.2.1, ?_, _, Tree.parentContext?_commit _ _ (left_admits b).fresh
    (Tree.parentContext?_first rfl ..),
    openingWith_accepted fork_ids.2.1 (by decide) (by decide)⟩
  rw [withLeft, Tree.has_commit_of_ne _ _ (by decide)]
  exact Tree.has_first ..

theorem tip_admits (b : Block Int) : (withRight b).Admits tipId tip ⟨8, 15⟩ := by
  refine ⟨fork_ids.2.2, ?_, _, Tree.parentContext?_commit _ _ (right_admits b).fresh
    (Tree.parentContext?_commit_self rfl ..), tip_accepted⟩
  rw [withRight, withLeft, Tree.has_commit_of_ne _ _ (by decide),
    Tree.has_commit_of_ne _ _ (by decide)]
  exact Tree.has_first ..

variable (b : Block Int) (tallies : List Tally)

theorem step_left : Session.step ⟨Tree.first mined genesisId b, tallies⟩ (.insert left) =
    ⟨withLeft b, tallies⟩ :=
  Session.step_insert (Tree.insert_of_admits (left_admits b))

theorem step_right : Session.step ⟨withLeft b, tallies⟩ (.insert right) =
    ⟨withRight b, tallies⟩ :=
  Session.step_insert (Tree.insert_of_admits (right_admits b))

theorem step_tip : Session.step ⟨withRight b, tallies⟩ (.insert tip) = ⟨forked b, tallies⟩ :=
  Session.step_insert (Tree.insert_of_admits (tip_admits b))

theorem run_fork : Session.run ⟨Tree.first mined genesisId b, tallies⟩
    [.insert left, .insert right, .insert tip] = ⟨forked b, tallies⟩ := by
  rw [Session.run_cons, step_left, Session.run_cons, step_right, Session.run_cons, step_tip,
    Session.run_nil]

theorem tallest_left : (withLeft b).Tallest leftId 1 :=
  have hwins : ForkChoice.Wins (leftId, left.header.height) (genesisId, 0) := .inl (by decide)
  (Tree.tallest_first mined genesisId b).commit ⟨3, 3⟩ hwins

theorem tallest_right : (withRight b).Tallest rightId 1 :=
  have hwins : ForkChoice.Wins (rightId, right.header.height) (leftId, 1) :=
    .inr ⟨rfl, by decide⟩
  (tallest_left b).commit ⟨3, 3⟩ hwins

theorem tallest_tip : (forked b).Tallest tipId 2 :=
  have hwins : ForkChoice.Wins (tipId, tip.header.height) (rightId, 1) := .inl (by decide)
  (tallest_right b).commit ⟨8, 15⟩ hwins

end Sums

theorem sums_heaviest_and_longest_chain_agree :
    ∃ t₀ s, Tree.found Sums.mined = .ok t₀ ∧
      s = (Session.start t₀).run ([.handIn Preference.longestChain.rule,
        .handIn Preference.achievedWork.rule] ++
        [.insert Sums.left, .insert Sums.right, .insert Sums.tip]) ∧
      s.tree.height? Sums.tipId = some 2 ∧
      s.rule? .own = some Preference.heaviestChain.rule ∧
      s.weight? .own Sums.tipId = some 32 ∧
      s.rule? (.handedIn 0) = some Preference.longestChain.rule ∧
      s.weight? (.handedIn 0) Sums.tipId = some 2 ∧
      s.rule? (.handedIn 1) = some Preference.achievedWork.rule ∧
      (∃ w, s.weight? (.handedIn 1) Sums.tipId = some w ∧ 32 ≤ w) ∧
      s.tree.Tallest Sums.tipId 2 ∧ s.head? .own = some Sums.tipId ∧
      s.head? (.handedIn 0) = some Sums.tipId := by
  obtain ⟨b, hfound⟩ := Sums.found_like Sums.mined rfl rfl
  have hrun := Sums.run_fork b
    [.start Preference.longestChain.rule, .start Preference.achievedWork.rule]
  have htip := Sums.tallest_tip b
  obtain ⟨hweights, head, height, htallest, hheads⟩ :=
    heaviest_and_longest_chain_agree Sums.mined hfound
      ([.handIn Preference.longestChain.rule, .handIn Preference.achievedWork.rule] ++
        [.insert Sums.left, .insert Sums.right, .insert Sums.tip]) rfl
  have hstart : (Session.start (Tree.first Sums.mined Sums.genesisId b)).run
      [.handIn Preference.longestChain.rule, .handIn Preference.achievedWork.rule] =
      ⟨Tree.first Sums.mined Sums.genesisId b,
        [.start Preference.longestChain.rule, .start Preference.achievedWork.rule]⟩ := rfl
  have hr := Session.own_rule? hfound
    ([.handIn Preference.longestChain.rule, .handIn Preference.achievedWork.rule] ++
      [.insert Sums.left, .insert Sums.right, .insert Sums.tip])
  rw [Session.run_append, hstart, hrun] at hweights hheads htallest hr
  generalize Sums.forked b = t at *
  have hlongest : Session.rule? ⟨t, [.start Preference.longestChain.rule,
      .start Preference.achievedWork.rule]⟩ (.handedIn 0) =
      some Preference.longestChain.rule := rfl
  have hachieved : Session.rule? ⟨t, [.start Preference.longestChain.rule,
      .start Preference.achievedWork.rule]⟩ (.handedIn 1) =
      some Preference.achievedWork.rule := rfl
  obtain rfl := htallest.unique htip
  have hheight := htip.height_eq
  exact ⟨_, _, hfound, by rw [Session.run_append, hstart, hrun], hheight, hr,
    (hweights _ _ _ hheight).2.1 hr, hlongest, (hweights _ _ _ hheight).1 hlongest, hachieved,
    (hweights _ _ _ hheight).2.2 hachieved, htip, hheads _ (.inl hr), hheads _ (.inr hlongest)⟩

end BlockTree
