import BlockTree.Proofs.HeadChoice

namespace BlockTree

namespace ForkChoice

variable {leaves more : List (String × Option Int)}

theorem bestOf_of_unweighed (best : Option (String × Int))
    (h : ∀ x w, (x, some w) ∉ leaves) : bestOf best leaves = best := by
  induction leaves with
  | nil => rfl
  | cons leaf leaves ih =>
      obtain ⟨x, weight⟩ := leaf
      cases weight with
      | none => exact ih fun y w hy => h y w (List.mem_cons_of_mem _ hy)
      | some w => exact absurd (List.mem_cons_self ..) (h x w)

theorem head_of_unweighed (genesisId : String) (h : ∀ x w, (x, some w) ∉ leaves) :
    head genesisId leaves = genesisId := by
  rw [head, bestOf_of_unweighed none h]
  rfl

theorem head_congr (genesisId : String)
    (h : ∀ x w, (x, some w) ∈ leaves ↔ (x, some w) ∈ more) :
    head genesisId leaves = head genesisId more := by
  by_cases hsome : ∃ x w, (x, some w) ∈ leaves
  · obtain ⟨x, w, hx⟩ := hsome
    obtain ⟨v, hbest⟩ := best_head genesisId hx
    obtain ⟨v', hbest'⟩ := best_head genesisId ((h x w).1 hx)
    exact congrArg Prod.fst ((hbest.congr h).unique hbest')
  · have hnone : ∀ x w, (x, some w) ∉ leaves := fun x w hx => hsome ⟨x, w, hx⟩
    rw [head_of_unweighed _ hnone, head_of_unweighed _ fun x w hx => hnone x w ((h x w).2 hx)]

structure View where
  genesisId : String
  leaves : List String
  weight? : ForkChoice → String → Option Int

namespace View

variable {v : View} {rule : ForkChoice}

def head (v : View) (rule : ForkChoice := Preference.heaviestChain.rule) : String :=
  ForkChoice.head v.genesisId (v.leaves.map fun id => (id, v.weight? rule id))

theorem head_eq_genesisId (h : ∀ id ∈ v.leaves, v.weight? rule id = none) :
    v.head rule = v.genesisId := by
  apply head_of_unweighed
  intro x w hx
  obtain ⟨hleaf, hw⟩ := mem_weighed.1 hx
  rw [h x hleaf] at hw
  cases hw

theorem head_spec {x : String} {w : Int} (hx : x ∈ v.leaves) (hw : v.weight? rule x = some w) :
    ∃ m, v.head rule ∈ v.leaves ∧ v.weight? rule (v.head rule) = some m ∧
      ∀ id u, id ∈ v.leaves → v.weight? rule id = some u →
        u < m ∨ (u = m ∧ Text.lt id (v.head rule) = false) := by
  obtain ⟨m, hbest⟩ := best_head v.genesisId (mem_weighed.2 ⟨hx, hw⟩)
  obtain ⟨hleaf, hm⟩ := mem_weighed.1 hbest.mem
  refine ⟨m, hleaf, hm, ?_⟩
  intro id u hid hu
  rcases hbest.wins id u (mem_weighed.2 ⟨hid, hu⟩) with hlt | ⟨heq, hle⟩
  · exact .inl hlt
  · exact .inr ⟨heq, congrArg not hle⟩

theorem head_congr {u : View} (hgenesis : u.genesisId = v.genesisId)
    (hleaves : ∀ id, id ∈ u.leaves ↔ id ∈ v.leaves)
    (hweight : ∀ id ∈ v.leaves, u.weight? rule id = v.weight? rule id) :
    u.head rule = v.head rule := by
  rw [head, head, hgenesis]
  apply ForkChoice.head_congr
  intro x w
  rw [mem_weighed, mem_weighed, hleaves]
  exact and_congr_right fun hx => by rw [hweight x hx]

end View

end ForkChoice

variable {S T E : Type}

def Tree.view (t : Tree S T E) : ForkChoice.View :=
  ⟨t.genesisId, t.leaves, t.weight?⟩

theorem Tree.Grown.head_view_mem_leaves {settings : Settings S T E} {t : Tree S T E}
    (h : Grown settings t) (rule : ForkChoice) : t.view.head rule ∈ t.leaves := by
  obtain ⟨_, hbest⟩ := h.best_bestHead rule
  exact (mem_weighedLeaves.1 hbest.mem).1

theorem head_is_best_weighed_leaf (v : ForkChoice.View) (rule : ForkChoice)
    (settings : Settings S T E) {t₀ : Tree S T E} (hfound : Tree.found settings = .ok t₀)
    (calls : List (Call S T)) {s : Session S T E} (hs : s = (Session.start t₀).run calls) :
    ((∀ id ∈ v.leaves, v.weight? rule id = none) → v.head rule = v.genesisId) ∧
    (∀ x w, x ∈ v.leaves → v.weight? rule x = some w →
      ∃ m, v.head rule ∈ v.leaves ∧ v.weight? rule (v.head rule) = some m ∧
        ∀ id u, id ∈ v.leaves → v.weight? rule id = some u →
          u < m ∨ (u = m ∧ Text.lt id (v.head rule) = false)) ∧
    (∀ leaves, (∀ id, id ∈ leaves ↔ id ∈ v.leaves) →
      ForkChoice.View.head { v with leaves } rule = v.head rule) ∧
    ∀ r asked, s.rule? r = some asked →
      (∀ id, s.weight? r id = s.tree.view.weight? asked id) ∧
      s.head? r = some (s.tree.view.head asked) ∧ s.tree.view.head asked ∈ s.tree.leaves := by
  subst hs
  have hgrown := Session.grown_run hfound calls
  have hexact := Session.run_exact (.found hfound) (Session.exact_start hfound) calls
  refine ⟨ForkChoice.View.head_eq_genesisId, ?_, ?_, ?_⟩
  · intro x w hx hw
    exact ForkChoice.View.head_spec hx hw
  · intro leaves hleaves
    exact ForkChoice.View.head_congr rfl hleaves fun _ _ => rfl
  · intro r asked hr
    exact ⟨Session.weight?_eq hgrown hexact hr, Session.head?_eq hgrown hexact hr,
      hgrown.head_view_mem_leaves asked⟩

def ForkChoice.View.indebted : View where
  genesisId := "first"
  leaves := ["b", "a", "c", "b", "x"]
  weight? _ id := if id = "x" then none else if id = "c" then some (-5) else some (-2)

example : ForkChoice.View.indebted.head = "a" := by decide

theorem indebted_head_is_best_weighed_leaf :
    ∃ t₀ s v, Tree.found Sums.settings = .ok t₀ ∧
      s = (Session.start t₀).run [.insert Sums.second, .insert Sums.opening] ∧
      v = ForkChoice.View.indebted ∧ "c" ∈ v.leaves ∧
      v.weight? Preference.heaviestChain.rule "c" = some (-5) ∧
      (∃ m, v.head ∈ v.leaves ∧ v.weight? Preference.heaviestChain.rule v.head = some m ∧
        ∀ id u, id ∈ v.leaves → v.weight? Preference.heaviestChain.rule id = some u →
          u < m ∨ (u = m ∧ Text.lt id v.head = false)) ∧
      ForkChoice.View.head { v with leaves := ["x", "c", "a", "b"] } = v.head ∧
      s.rule? .own = some Preference.heaviestChain.rule ∧
      s.head? .own = some s.tree.view.head ∧ s.tree.view.head ∈ s.tree.leaves := by
  obtain ⟨b, hfound⟩ := Sums.found_first
  have hr := Session.own_rule? hfound [.insert Sums.second, .insert Sums.opening]
  have hleaf : "c" ∈ ForkChoice.View.indebted.leaves := by decide
  have hweight : ForkChoice.View.indebted.weight? Preference.heaviestChain.rule "c" =
      some (-5) := rfl
  have hsame : ∀ id, id ∈ ["x", "c", "a", "b"] ↔ id ∈ ForkChoice.View.indebted.leaves := by
    intro id
    simp only [ForkChoice.View.indebted, List.mem_cons, List.not_mem_nil, or_false]
    grind
  obtain ⟨_, hbest, horder, htold⟩ := head_is_best_weighed_leaf ForkChoice.View.indebted
    Preference.heaviestChain.rule Sums.settings hfound
    [.insert Sums.second, .insert Sums.opening] rfl
  obtain ⟨_, hhead, hmem⟩ := htold .own _ hr
  exact ⟨_, _, _, hfound, rfl, rfl, hleaf, hweight, hbest _ _ hleaf hweight,
    horder _ hsame, hr, hhead, hmem⟩

end BlockTree
