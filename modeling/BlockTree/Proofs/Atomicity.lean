import BlockTree.Proofs.ArrivalOrder
import BlockTree.Proofs.Forest
import BlockTree.Proofs.Production

namespace BlockTree

variable {S T E : Type}

namespace Tree

variable {settings : Settings S T E} {t u v : Tree S T E} {b : Block T}

structure SameAnswers (t u : Tree S T E) : Prop extends Agree t u where
  header : ∀ id, t.header? id = u.header? id
  childrenInOrder : ∀ id, t.children id = u.children id
  stored : ∀ id, t.states.has id = u.states.has id
  storedState : ∀ id, t.states.get? id = u.states.get? id
  storeSize : t.states.size = u.states.size

structure Twin (settings : Settings S T E) (t u : Tree S T E) : Prop where
  grown : Grown settings t
  exact : t.tally.Exact t
  exact' : u.tally.Exact u
  rule : u.tally.rule = t.tally.rule
  blocks : ∃ tally head, u = { t with tally, head }

theorem Twin.symm (h : Twin settings t u) : Twin settings u t := by
  obtain ⟨tally, head, rfl⟩ := h.blocks
  exact ⟨.step h.grown (.same tally head), h.exact', h.exact, h.rule.symm, t.tally, t.head, rfl⟩

theorem Twin.trans (h : Twin settings t u) (h' : Twin settings u v) : Twin settings t v := by
  refine ⟨h.grown, h.exact, h'.exact', h'.rule.trans h.rule, ?_⟩
  obtain ⟨_, _, rfl⟩ := h.blocks
  obtain ⟨tally, head, rfl⟩ := h'.blocks
  exact ⟨tally, head, rfl⟩

theorem Twin.sameAnswers (h : Twin settings t u) : SameAnswers t u := by
  have hgrown := h.symm.grown
  have hexact := h.exact'
  have hrule := h.rule
  obtain ⟨tally, head, rfl⟩ := h.blocks
  refine ⟨agree_of_same h.grown hgrown (fun _ _ => .rfl) rfl h.exact hexact hrule.symm, ?_, ?_, ?_,
    ?_, rfl⟩
  all_goals exact fun _ => rfl

theorem Twin.difficulty (h : Twin settings t u) : u.difficulty = t.difficulty := by
  obtain ⟨_, _, rfl⟩ := h.blocks
  rfl

theorem Twin.ownHead_fst (h : Twin settings t u) : u.ownHead.1 = t.ownHead.1 :=
  h.sameAnswers.ownHead.symm

theorem Grown.twin_ownHead (h : Grown settings t) (ht : t.tally.Exact t) :
    Twin settings t t.ownHead.2 := by
  obtain ⟨_, hexact, hrule⟩ := (Looked.yes (t := t)).exact h ht
  exact ⟨h, ht, hexact, hrule, (t.tally.headIn t).2, t.head, rfl⟩

theorem Grown.twin_base (h : Grown settings t) (ht : t.tally.Exact t) (parent? : Option String) :
    Twin settings t (t.base parent?).2 := by
  cases parent? with
  | none => exact h.twin_ownHead ht
  | some id => exact ⟨h, ht, ht, rfl, t.tally, t.head, rfl⟩

theorem Twin.base (h : Twin settings t u) (parent? : Option String) :
    (u.base parent?).1 = (t.base parent?).1 ∧
      Twin settings (t.base parent?).2 (u.base parent?).2 := by
  constructor
  · cases parent? with
    | none => exact h.ownHead_fst
    | some id => rfl
  · have ht := h.grown.twin_base h.exact parent?
    have hu := h.symm.grown.twin_base h.exact' parent?
    exact ht.symm.trans (h.trans hu)

theorem Twin.admits (h : Twin settings t u) {id : String} {post : S} (hb : t.Admits id b post) :
    u.Admits id b post := by
  obtain ⟨tally, head, rfl⟩ := h.blocks
  exact ⟨hb.id_eq, hb.fresh, hb.accepted⟩

theorem Twin.commit (h : Twin settings t u) {id : String} {post : S} (hb : t.Admits id b post) :
    Twin settings (t.commit id b post).tree (u.commit id b post).tree := by
  obtain ⟨hexact, hrule⟩ := insert_exact h.grown h.exact (insert_of_admits hb)
  obtain ⟨hexact', hrule'⟩ :=
    insert_exact h.symm.grown h.exact' (insert_of_admits (h.admits hb))
  refine ⟨.step h.grown (insert_evolves (insert_of_admits hb)), hexact, hexact',
    hrule'.trans (h.rule.trans hrule.symm), ?_⟩
  obtain ⟨tally, head, rfl⟩ := h.blocks
  exact ⟨_, _, rfl⟩

theorem Twin.insert (h : Twin settings t u) {r : Receipt S T E} (hr : t.insert b = .ok r) :
    ∃ r', u.insert b = .ok r' ∧ Twin settings r.tree r'.tree := by
  cases insert_cases hr with
  | malformed hfield => exact ⟨_, insert_malformed hfield, h⟩
  | known shape hid hhas =>
      have hhas' : u.has _ = true := (h.sameAnswers.has _).symm.trans hhas
      exact ⟨_, insert_known shape hid hhas', h⟩
  | rejected shape hid fresh hcheck told =>
      have fresh' : u.has _ = false := (h.sameAnswers.has _).symm.trans fresh
      obtain ⟨tally, head, rfl⟩ := h.blocks
      exact ⟨_, insert_rejected shape hid fresh' hcheck told, h⟩
  | admitted hb => exact ⟨_, insert_of_admits (h.admits hb), h.commit hb⟩

theorem Twin.submit (h : Twin settings t u) {draft : Draft S T} {nonce : Int} {r : Receipt S T E}
    (hr : t.submit draft nonce = .ok r) :
    ∃ r', u.submit draft nonce = .ok r' ∧ Twin settings r.tree r'.tree := by
  obtain ⟨receipt, log, hinsert, rfl⟩ := insert_of_submit hr
  obtain ⟨receipt', hinsert', htwin⟩ := h.insert hinsert
  obtain ⟨log', hsubmit⟩ := exists_submit_eq hinsert'
  exact ⟨_, hsubmit, htwin⟩

theorem Twin.prepare (h : Twin settings t u) {parent? : Option String} {body : List T}
    {drafted : Except (Rejection E) (Draft S T)} (hv : t.prepare parent? body = .ok (v, drafted)) :
    ∃ w, u.prepare parent? body = .ok (w, drafted) ∧ Twin settings v w := by
  obtain ⟨hparent, hbase⟩ := h.base parent?
  obtain ⟨rfl, hdraft⟩ := prepare_eq_ok_iff.1 hv
  refine ⟨_, prepare_eq_ok_iff.2 ⟨rfl, ?_⟩, hbase⟩
  rw [hparent]
  obtain ⟨tally, head, rfl⟩ := h.blocks
  exact hdraft

theorem Twin.produce (h : Twin settings t u) {parent? : Option String} {body : List T}
    {o : Mining.Options} {r : Receipt S T E} (hr : t.produce parent? body o = .ok (some r)) :
    ∃ r', u.produce parent? body o = .ok (some r') ∧ Twin settings r.tree r'.tree := by
  cases produce_cases hr with
  | refused hprepare =>
      obtain ⟨w, hprepare', htwin⟩ := h.prepare hprepare
      exact ⟨_, produce_of_refusal hprepare', htwin⟩
  | submitted hprepare hmine hsubmit =>
      obtain ⟨w, hprepare', htwin⟩ := h.prepare hprepare
      obtain ⟨r', hsubmit', htwin'⟩ := htwin.submit hsubmit
      rw [← htwin.difficulty] at hmine
      refine ⟨r', ?_, htwin'⟩
      rw [produce_of_draft hprepare' hmine, hsubmit']
      rfl

inductive Outcome (t : Tree S T E) (r : Receipt S T E) : Prop where
  | quiet (h : t.Looked r.tree) (hknown : ∀ id, r.result = .ok id → t.has id = true)
  | admitted {u : Tree S T E} {id : String} {b : Block T} {post : S} (h : t.Looked u)
      (hb : u.Admits id b post) (hid : r.result = .ok id)
      (htree : r.tree = (u.commit id b post).tree)

theorem Looked.retallied (h : t.Looked u) : ∃ tally, u = { t with tally } := by
  cases h with
  | no => exact ⟨t.tally, rfl⟩
  | yes => exact ⟨_, rfl⟩

theorem Looked.has_eq (h : t.Looked u) (id : String) : u.has id = t.has id := by
  obtain ⟨tally, rfl⟩ := h.retallied
  rfl

theorem outcome_of_insert (h : t.Looked u) {r : Receipt S T E} (hr : u.insert b = .ok r) :
    t.Outcome r := by
  cases insert_cases hr with
  | malformed _ => exact .quiet h fun _ hid => nomatch hid
  | known _ _ hhas =>
      refine .quiet h ?_
      intro x hx
      rw [← Except.ok.inj hx, ← h.has_eq, hhas]
  | rejected _ _ _ _ _ => exact .quiet h fun _ hid => nomatch hid
  | admitted hb => exact .admitted h hb rfl rfl

theorem outcome_of_submit (h : t.Looked u) {draft : Draft S T} {nonce : Int} {r : Receipt S T E}
    (hr : u.submit draft nonce = .ok r) : t.Outcome r := by
  obtain ⟨receipt, log, hinsert, rfl⟩ := insert_of_submit hr
  cases outcome_of_insert h hinsert with
  | quiet hlooked hknown => exact .quiet hlooked hknown
  | admitted hlooked hb hid htree => exact .admitted hlooked hb hid htree

theorem outcome_of_produce {parent? : Option String} {body : List T} {o : Mining.Options}
    {r : Receipt S T E} (hr : t.produce parent? body o = .ok (some r)) : t.Outcome r := by
  cases produce_cases hr with
  | refused hprepare => exact .quiet (looked_of_prepare hprepare) fun _ hid => nomatch hid
  | submitted hprepare _ hsubmit => exact outcome_of_submit (looked_of_prepare hprepare) hsubmit

end Tree

namespace Session

variable {settings : Settings S T E} {s s' : Session S T E} {c : Call S T}

def reply (s : Session S T E) : Call S T → Except Fault (Option (Receipt S T E))
  | .insert b => (s.tree.insert b).map some
  | .submit draft nonce => (s.tree.submit draft nonce).map some
  | .produce parent? body o => s.tree.produce parent? body o
  | .prepare _ _ | .handIn _ | .weight _ _ | .head _ | .chain _ => .ok none

def admitted? (s : Session S T E) (c : Call S T) : Option String :=
  match s.reply c with
  | .ok (some r) => r.result.toOption.filter fun id => !s.tree.has id
  | .ok none | .error _ => none

def admitting (s : Session S T E) : List (Call S T) → List (Call S T)
  | [] => []
  | c :: calls =>
      if (s.admitted? c).isSome then c :: admitting (s.step c) calls
      else admitting (s.step c) calls

structure SameAnswers (s s' : Session S T E) : Prop where
  tree : s.tree.SameAnswers s'.tree
  rule : ∀ r rule, s.rule? r = some rule → s'.rule? r = some rule
  weight : ∀ r rule, s.rule? r = some rule → ∀ id, s.weight? r id = s'.weight? r id
  head : ∀ r rule, s.rule? r = some rule → s.head? r = s'.head? r
  chain : ∀ r rule, s.rule? r = some rule → s.chain? r = s'.chain? r

theorem admitted?_eq_some_iff {id : String} :
    s.admitted? c = some id ↔
      ∃ r, s.reply c = .ok (some r) ∧ r.result = .ok id ∧ s.tree.has id = false := by
  unfold admitted?
  split
  · rename_i r hreply
    obtain ⟨tree, result, log⟩ := r
    cases result <;> simp [hreply, Except.toOption, Option.filter_eq_some_iff]
  · rename_i hreply
    simp [hreply]
  · rename_i hreply
    simp [hreply]

inductive Replied (s : Session S T E) : Call S T → Receipt S T E → Prop where
  | insert {b : Block T} {r : Receipt S T E} (h : s.tree.insert b = .ok r) :
      Replied s (.insert b) r
  | submit {draft : Draft S T} {nonce : Int} {r : Receipt S T E}
      (h : s.tree.submit draft nonce = .ok r) : Replied s (.submit draft nonce) r
  | produce {parent? : Option String} {body : List T} {o : Mining.Options} {r : Receipt S T E}
      (h : s.tree.produce parent? body o = .ok (some r)) : Replied s (.produce parent? body o) r

theorem reply_eq_iff {r : Receipt S T E} : s.reply c = .ok (some r) ↔ s.Replied c r := by
  constructor
  · intro h
    cases c with
    | insert b =>
        cases hr : s.tree.insert b with
        | error fault => simp [reply, hr, Except.map] at h
        | ok receipt =>
            rw [reply, hr] at h
            obtain rfl := Option.some.inj (Except.ok.inj h)
            exact .insert hr
    | submit draft nonce =>
        cases hr : s.tree.submit draft nonce with
        | error fault => simp [reply, hr, Except.map] at h
        | ok receipt =>
            rw [reply, hr] at h
            obtain rfl := Option.some.inj (Except.ok.inj h)
            exact .submit hr
    | produce parent? body o => exact .produce h
    | _ => cases h
  · intro h
    cases h with
    | insert hr => exact congrArg (Except.map some) hr
    | submit hr => exact congrArg (Except.map some) hr
    | produce hr => exact hr

theorem step_of_reply {r : Receipt S T E} (h : s.reply c = .ok (some r)) :
    s.step c = { s with tree := r.tree } := by
  cases reply_eq_iff.1 h with
  | insert h => exact step_insert h
  | submit h => rw [step, work, Work.leaves_submit, h]
  | produce h => rw [step, work, Work.leaves_produce, h]

theorem outcome_of_reply {r : Receipt S T E} (h : s.reply c = .ok (some r)) :
    s.tree.Outcome r := by
  cases reply_eq_iff.1 h with
  | insert h => exact Tree.outcome_of_insert .no h
  | submit h => exact Tree.outcome_of_submit .no h
  | produce h => exact Tree.outcome_of_produce h

theorem retallied_ask {α : Type} (s : Session S T E) (r : Asked)
    (question : Tally → Tree S T E → α × Tally) :
    ∃ tally, (s.ask r question).2.tree = { s.tree with tally } := by
  unfold ask
  split
  · exact ⟨s.tree.tally, rfl⟩
  · cases r with
    | own => exact ⟨_, rfl⟩
    | handedIn i => exact ⟨s.tree.tally, rfl⟩

theorem retallied_of_no_reply (h : ∀ r, s.reply c ≠ .ok (some r)) :
    ∃ tally, (s.step c).tree = { s.tree with tally } := by
  cases c with
  | insert b =>
      rw [step, work, Work.leaves_insert]
      split
      · rename_i hr
        exact absurd (reply_eq_iff.2 (.insert hr)) (h _)
      · exact ⟨s.tree.tally, rfl⟩
  | submit draft nonce =>
      rw [step, work, Work.leaves_submit]
      split
      · rename_i hr
        exact absurd (reply_eq_iff.2 (.submit hr)) (h _)
      · exact ⟨s.tree.tally, rfl⟩
  | prepare parent? body =>
      rw [step, work, Work.leaves_prepare]
      exact (s.tree.looked_base parent?).retallied
  | produce parent? body o =>
      rw [step_produce_of_none h]
      exact (s.tree.looked_base parent?).retallied
  | handIn rule => exact ⟨s.tree.tally, rfl⟩
  | weight r id => exact s.retallied_ask r _
  | head r => exact s.retallied_ask r _
  | chain r => exact s.retallied_ask r _

theorem retallied_of_quiet (h : s.admitted? c = none) :
    ∃ tally, (s.step c).tree = { s.tree with tally } := by
  by_cases hreply : ∃ r, s.reply c = .ok (some r)
  · obtain ⟨r, hr⟩ := hreply
    rw [step_of_reply hr]
    cases outcome_of_reply hr with
    | quiet hlooked _ => exact hlooked.retallied
    | admitted hlooked hb hid _ =>
        have hfresh := (hlooked.has_eq _).symm.trans hb.fresh
        rw [admitted?_eq_some_iff.2 ⟨r, hr, hid, hfresh⟩] at h
        cases h
  · apply retallied_of_no_reply
    intro r hr
    exact hreply ⟨r, hr⟩

theorem admitted?_eq_some_iff_new {id : String} :
    s.admitted? c = some id ↔ s.tree.has id = false ∧ (s.step c).tree.has id = true := by
  cases h : s.admitted? c with
  | none =>
      obtain ⟨tally, htree⟩ := retallied_of_quiet h
      rw [htree]
      constructor
      · intro hnone
        cases hnone
      · rintro ⟨hno, hyes⟩
        exact absurd (hno.symm.trans hyes) Bool.false_ne_true
  | some x =>
      obtain ⟨r, hr, hresult, hno⟩ := admitted?_eq_some_iff.1 h
      rw [step_of_reply hr]
      cases outcome_of_reply hr with
      | quiet _ hknown => exact absurd (hno.symm.trans (hknown x hresult)) Bool.false_ne_true
      | @admitted u y b post hlooked _ hid htree =>
          obtain rfl : x = y := Except.ok.inj (hresult.symm.trans hid)
          rw [htree, Option.some.injEq]
          constructor
          · rintro rfl
            exact ⟨hno, Tree.has_iff.2 ⟨_, (Tree.entry?_commit ..).trans (if_pos rfl)⟩⟩
          · rintro ⟨hnew, hyes⟩
            by_cases hid : x = id
            · exact hid
            · rw [Tree.has_commit_of_ne b post hid, hlooked.has_eq, hnew] at hyes
              exact absurd hyes Bool.false_ne_true

theorem quiet_of_tree_eq (h : (s.step c).tree = s.tree) : s.admitted? c = none := by
  cases hc : s.admitted? c with
  | none => rfl
  | some id =>
      obtain ⟨hno, hyes⟩ := admitted?_eq_some_iff_new.1 hc
      rw [h, hno] at hyes
      exact absurd hyes Bool.false_ne_true

theorem step_insert_of_quiet {b : Block T} (h : s.admitted? (.insert b) = none) :
    s.step (.insert b) = s := by
  rw [step, work, Work.leaves_insert]
  cases hr : s.tree.insert b with
  | error fault => rfl
  | ok r =>
      cases Tree.insert_cases hr with
      | malformed _ | known _ _ _ | rejected _ _ _ _ _ => rfl
      | admitted hb =>
          have hadmitted :=
            admitted?_eq_some_iff.2 ⟨_, reply_eq_iff.2 (.insert hr), rfl, hb.fresh⟩
          rw [h] at hadmitted
          cases hadmitted

theorem twin_step_of_quiet (hgrown : Tree.Grown settings s.tree) (hs : s.Exact)
    (h : s.admitted? c = none) : Tree.Twin settings s.tree (s.step c).tree := by
  have hstep := s.stepped_step c
  have hrule := hstep.rule? (r := .own) hgrown hs rfl
  obtain ⟨tally, htree⟩ := retallied_of_quiet h
  exact ⟨hgrown, hs .own _ rfl, hstep.exact hgrown hs .own _ rfl, Option.some.inj hrule,
    tally, s.tree.head, htree⟩

theorem sameAnswers_of_quiet (hgrown : Tree.Grown settings s.tree) (hs : s.Exact)
    (h : s.admitted? c = none) : s.SameAnswers (s.step c) := by
  have hstep := s.stepped_step c
  have hgrown' : Tree.Grown settings (s.step c).tree := .step hgrown hstep.evolves
  have hexact' := hstep.exact hgrown hs
  obtain ⟨tally, htree⟩ := retallied_of_quiet h
  refine ⟨(twin_step_of_quiet hgrown hs h).sameAnswers, fun r rule => hstep.rule? hgrown hs, ?_, ?_,
    ?_⟩
  · intro r rule hr id
    rw [weight?_eq hgrown hs hr, weight?_eq hgrown' hexact' (hstep.rule? hgrown hs hr), htree]
    rfl
  · intro r rule hr
    rw [head?_eq hgrown hs hr, head?_eq hgrown' hexact' (hstep.rule? hgrown hs hr), htree]
    rfl
  · intro r rule hr
    rw [chain?_eq hgrown hs hr, chain?_eq hgrown' hexact' (hstep.rule? hgrown hs hr), htree]
    rfl

theorem twin_reply (h : Tree.Twin settings s.tree s'.tree) {r : Receipt S T E}
    (hr : s.reply c = .ok (some r)) :
    ∃ r', s'.reply c = .ok (some r') ∧ Tree.Twin settings r.tree r'.tree := by
  cases reply_eq_iff.1 hr with
  | insert hr =>
      obtain ⟨r', hr', htwin⟩ := h.insert hr
      exact ⟨r', reply_eq_iff.2 (.insert hr'), htwin⟩
  | submit hr =>
      obtain ⟨r', hr', htwin⟩ := h.submit hr
      exact ⟨r', reply_eq_iff.2 (.submit hr'), htwin⟩
  | produce hr =>
      obtain ⟨r', hr', htwin⟩ := h.produce hr
      exact ⟨r', reply_eq_iff.2 (.produce hr'), htwin⟩

theorem twin_run_admitting (hs : s.Exact) (h : Tree.Twin settings s.tree s'.tree)
    (calls : List (Call S T)) :
    Tree.Twin settings (s.run calls).tree (s'.run (s.admitting calls)).tree := by
  induction calls generalizing s s' with
  | nil => exact h
  | cons c calls ih =>
      have hexact := (s.stepped_step c).exact h.grown hs
      rw [admitting, run_cons]
      cases hc : s.admitted? c with
      | none => exact ih hexact ((twin_step_of_quiet h.grown hs hc).symm.trans h)
      | some id =>
          obtain ⟨r, hr, _⟩ := admitted?_eq_some_iff.1 hc
          obtain ⟨r', hr', htwin⟩ := twin_reply h hr
          refine ih hexact ?_
          rw [step_of_reply hr, step_of_reply hr']
          exact htwin

end Session

theorem Tree.insert_known_iff {t : Tree S T E} {b : Block T} {id : String}
    (hid : t.has id = true) : t.insert b = .ok ⟨t, .ok id, []⟩ ↔
      b.header.malformedField? = none ∧ b.header.id = .ok id := by
  constructor
  · intro h
    generalize hr : (⟨t, .ok id, []⟩ : Receipt S T E) = r at h
    have hresult : r.result = .ok id := by rw [← hr]
    cases insert_cases h with
    | malformed _ => cases hresult
    | known shape hid' _ =>
        cases hresult
        exact ⟨shape, hid'⟩
    | rejected _ _ _ _ _ => cases hresult
    | admitted hb =>
        cases hresult
        exact absurd (hb.fresh.symm.trans hid) Bool.false_ne_true
  · rintro ⟨shape, hid'⟩
    exact insert_known shape hid' hid

theorem insertion_atomic (settings : Settings S T E) {t₀ : Tree S T E}
    (hfound : Tree.found settings = .ok t₀) (calls : List (Call S T)) {s : Session S T E}
    (hs : s = (Session.start t₀).run calls) :
    (∀ c, s.admitted? c = none → s.SameAnswers (s.step c)) ∧
    (∀ b, s.admitted? (.insert b) = none → s.step (.insert b) = s) ∧
    (∀ c id, s.admitted? c = some id ↔
      s.tree.has id = false ∧ (s.step c).tree.has id = true) ∧
    (∀ b id, s.tree.has id = true → (s.tree.insert b = .ok ⟨s.tree, .ok id, []⟩ ↔
      b.header.malformedField? = none ∧ b.header.id = .ok id)) ∧
    ∀ more, (s.run more).tree.SameAnswers (s.run (s.admitting more)).tree := by
  subst hs
  have hgrown := Session.grown_run hfound calls
  have hexact := Session.run_exact (.found hfound) (Session.exact_start hfound) calls
  refine ⟨?_, ?_, ?_, ?_, ?_⟩
  · intro c hc
    exact Session.sameAnswers_of_quiet hgrown hexact hc
  · intro b hb
    exact Session.step_insert_of_quiet hb
  · intro c id
    exact Session.admitted?_eq_some_iff_new
  · intro b id hid
    exact Tree.insert_known_iff hid
  · intro more
    have htwin := hexact .own _ rfl
    exact (Session.twin_run_admitting hexact
      ⟨hgrown, htwin, htwin, rfl, _, _, rfl⟩ more).sameAnswers

namespace Sums

theorem has_opening (b : Block Int) :
    ((Tree.first settings genesisId b).commit openingId opening ⟨3, 3⟩).tree.has openingId =
      true :=
  Tree.has_iff.2 ⟨_, (Tree.entry?_commit ..).trans (if_pos rfl)⟩

theorem admitting_second_opening (b : Block Int) :
    (Session.start (Tree.first settings genesisId b)).admitting [.insert second, .insert opening] =
      [.insert opening] := by
  obtain ⟨_, horphaned⟩ := second_orphaned settings b
  have hopening := Session.start_step_insert (Tree.insert_of_admits (opening_admits b))
  have hsecond := Session.start_step_insert horphaned
  have hquiet := Session.quiet_of_tree_eq (congrArg Session.tree hsecond)
  have hnew := Session.admitted?_eq_some_iff_new.2
    ⟨(opening_admits b).fresh, (congrArg (·.tree.has openingId) hopening).trans (has_opening b)⟩
  dsimp only at hsecond
  rw [Session.admitting, hquiet, hsecond, Session.admitting, hnew, Session.admitting]
  rfl

end Sums

theorem sums_insertion_atomic :
    ∃ t₀ s, Tree.found Sums.settings = .ok t₀ ∧
      s = (Session.start t₀).run [.insert Sums.second, .insert Sums.opening] ∧
      s.tree.has Sums.openingId = true ∧
      s.tree.insert Sums.opening = .ok ⟨s.tree, .ok Sums.openingId, []⟩ ∧
      s.SameAnswers (s.step (.insert Sums.opening)) ∧
      s.tree.SameAnswers ((Session.start t₀).run [.insert Sums.opening]).tree := by
  obtain ⟨b, hfound⟩ := Sums.found_first
  have hrun := Sums.run_second_opening b
  have hhas := Sums.has_opening b
  obtain ⟨hquiet, _, _, hknown, _⟩ := insertion_atomic Sums.settings hfound
    [.insert Sums.second, .insert Sums.opening] hrun.symm
  obtain ⟨_, _, _, _, hrest⟩ := insertion_atomic Sums.settings hfound [] rfl
  have hsame := hrest [.insert Sums.second, .insert Sums.opening]
  rw [Session.run_nil, Sums.admitting_second_opening, hrun] at hsame
  have hinsert := (hknown _ _ hhas).2 ⟨Sums.opening_accepted.wellFormed, Sums.ids.1⟩
  have hstep := congrArg Session.tree (Session.start_step_insert hinsert)
  exact ⟨_, _, hfound, hrun.symm, hhas, hinsert, hquiet _ (Session.quiet_of_tree_eq hstep), hsame⟩

end BlockTree
