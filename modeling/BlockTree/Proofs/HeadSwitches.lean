import BlockTree.Proofs.Atomicity
import BlockTree.Proofs.Tallest

namespace BlockTree

variable {S T E : Type}

namespace LogRecord

variable {causeValue : E → Value} {text : String} {log more : List (LogRecord E)}

def said (causeValue : E → Value) (text : String) (log : List (LogRecord E)) :
    List (LogRecord E) :=
  log.filter fun record => record.message causeValue = .ok text

inductive Switches : String → List (LogRecord E) → String → Prop where
  | stay (head : String) : Switches head [] head
  | switch {before after last : String} {height : Option Int} {log : List (LogRecord E)}
      (h : Switches after log last) :
      Switches before (.headSwitched before after height :: log) last

theorem Switches.append {first middle last : String} (h : Switches first log middle)
    (h' : Switches middle more last) : Switches first (log ++ more) last := by
  induction h with
  | stay head => exact h'
  | switch _ ih => exact .switch (ih h')

theorem Switches.last_eq {first last last' : String} (h : Switches first log last)
    (h' : Switches first log last') : last = last' := by
  induction h with
  | stay head =>
      cases h'
      rfl
  | switch _ ih =>
      cases h' with
      | switch h' => exact ih h'

theorem said_append : said causeValue text (log ++ more) =
    said causeValue text log ++ said causeValue text more :=
  List.filter_append ..

theorem said_cons_of_eq {record : LogRecord E} (h : record.message causeValue = .ok text) :
    said causeValue text (record :: log) = record :: said causeValue text log :=
  List.filter_cons_of_pos (decide_eq_true h)

theorem said_cons_of_ne {record : LogRecord E} (h : record.message causeValue ≠ .ok text) :
    said causeValue text (record :: log) = said causeValue text log :=
  List.filter_cons_of_neg (by simpa using h)

theorem said_of_silent (h : ∀ record ∈ log, record.message causeValue ≠ .ok text) :
    said causeValue text log = [] :=
  List.filter_eq_nil_iff.2 fun record hmem => by simpa using h record hmem

theorem rejection_ne {reason? : Except Fault String}
    (h : text.toList.take 16 ≠ "block rejected: ".toList) :
    reason?.map ("block rejected: " ++ ·) ≠ .ok text := by
  intro heq
  obtain ⟨reason, _, rfl⟩ := map_eq_ok_iff.1 heq
  apply h
  rw [String.toList_append]
  exact List.take_left' rfl

theorem said_of_warning {record : LogRecord E} (hwarn : record.level = .warn)
    (h : text.toList.take 16 ≠ "block rejected: ".toList) :
    said causeValue text [record] = [] := by
  apply said_of_silent
  intro x hx
  obtain rfl := List.mem_singleton.1 hx
  cases x with
  | malformed field =>
      rw [message_malformed]
      exact rejection_ne h
  | rejected id height reason =>
      rw [message_rejected]
      exact rejection_ne h
  | admitted id parent height => cases hwarn
  | headSwitched before after height => cases hwarn
  | mined id height nonce => cases hwarn

end LogRecord

open LogRecord

namespace Tree

variable {settings : Settings S T E} {t u : Tree S T E} {b : Block T} {causeValue : E → Value}

def switchFrom (t : Tree S T E) (before : String) : List (LogRecord E) :=
  if t.head = before then [] else [.headSwitched before t.head (t.height? t.head)]

theorem switches_switchFrom (t : Tree S T E) (before : String) :
    Switches before (t.switchFrom before) t.head := by
  unfold switchFrom
  split
  · rename_i hsame
    exact hsame ▸ .stay _
  · exact .switch (.stay _)

theorem message_of_mem_switchFrom {before : String} {record : LogRecord E}
    (h : record ∈ t.switchFrom before) :
    record.message causeValue = .ok "canonical head switched" := by
  unfold switchFrom at h
  split at h
  · cases h
  · obtain rfl := List.mem_singleton.1 h
    rfl

theorem said_switchFrom (t : Tree S T E) (before : String) :
    said causeValue "canonical head switched" (t.switchFrom before) = t.switchFrom before :=
  List.filter_eq_self.2 fun _ hmem => decide_eq_true (message_of_mem_switchFrom hmem)

theorem not_said_switchFrom (t : Tree S T E) (before : String) {text : String}
    (h : "canonical head switched" ≠ text) : said causeValue text (t.switchFrom before) = [] :=
  said_of_silent fun _ hmem => message_of_mem_switchFrom hmem ▸ fun heq => h (Except.ok.inj heq)

theorem commit_log (t : Tree S T E) (id : String) (b : Block T) (post : S) :
    (t.commit id b post).log = .admitted id b.header.parent b.header.height ::
      (t.commit id b post).tree.switchFrom t.head :=
  rfl

structure Logged (t : Tree S T E) (causeValue : E → Value) (r : Receipt S T E) : Prop where
  switch : said causeValue "canonical head switched" r.log = r.tree.switchFrom t.head
  quiet : (∀ id, r.result = .ok id → t.has id = true) →
    said causeValue "block admitted" r.log = []
  admitted : ∀ id, r.result = .ok id → t.has id = false → ∃ e, r.tree.entry? id = some e ∧
    said causeValue "block admitted" r.log = [.admitted id e.block.header.parent e.height]

theorem logged_of_warning {reason : Rejection E} {record : LogRecord E}
    (hwarn : record.level = .warn) : t.Logged causeValue ⟨t, .error reason, [record]⟩ := by
  refine ⟨?_, fun _ => said_of_warning hwarn (by decide), fun _ hid => nomatch hid⟩
  rw [said_of_warning hwarn (by decide), switchFrom, if_pos rfl]

theorem logged_of_silence {result : Except (Rejection E) String}
    (hknown : ∀ id, result = .ok id → t.has id = true) : t.Logged causeValue ⟨t, result, []⟩ := by
  refine ⟨?_, fun _ => rfl, ?_⟩
  · rw [switchFrom, if_pos rfl]
    rfl
  · intro id hid hno
    exact absurd (hno.symm.trans (hknown id hid)) Bool.false_ne_true

theorem logged_of_insert {r : Receipt S T E} (hr : t.insert b = .ok r) :
    t.Logged causeValue r := by
  cases insert_cases hr with
  | malformed _ => exact logged_of_warning rfl
  | rejected _ _ _ _ _ => exact logged_of_warning rfl
  | known _ _ hhas => exact logged_of_silence fun _ hid => Except.ok.inj hid ▸ hhas
  | @admitted id post hb =>
      have hmessage : (LogRecord.admitted id b.header.parent b.header.height).message causeValue =
          .ok "block admitted" := rfl
      refine ⟨?_, ?_, ?_⟩
      · rw [commit_log, said_cons_of_ne (hmessage ▸ by decide), said_switchFrom]
      · intro hknown
        exact absurd (hb.fresh.symm.trans (hknown id rfl)) Bool.false_ne_true
      · intro x hx _
        obtain rfl := Except.ok.inj hx
        refine ⟨_, (entry?_commit t id id b post).trans (if_pos rfl), ?_⟩
        rw [commit_log, said_cons_of_eq hmessage, not_said_switchFrom _ _ (by decide)]

theorem insert_error_log {r : Receipt S T E} (hr : t.insert b = .ok r) {reason : Rejection E}
    (hreason : r.result = .error reason) :
    ∃ record text, r.log = [record] ∧ record.level = .warn ∧
      reason.describe t.validity.machine.causeValue = .ok text ∧
      record.message t.validity.machine.causeValue = .ok ("block rejected: " ++ text) ∧
      ("kind", .text reason.kind) ∈ record.fields := by
  cases insert_cases hr with
  | malformed _ =>
      obtain rfl := Except.error.inj hreason
      exact ⟨_, _, rfl, rfl, rfl, rfl, List.mem_cons_self ..⟩
  | rejected _ _ _ _ told =>
      obtain rfl := Except.error.inj hreason
      refine ⟨_, _, rfl, rfl, told, ?_, by simp [fields]⟩
      rw [message_rejected, told]
      rfl
  | known _ _ _ => cases hreason
  | admitted _ => cases hreason

theorem submit_log (causeValue : E → Value) {draft : Draft S T} {nonce : Int}
    {r : Receipt S T E} (h : t.submit draft nonce = .ok r) :
    ∃ r' more, t.insert (draft.sealWith nonce) = .ok r' ∧ r = { r' with log := r'.log ++ more } ∧
      ∀ record ∈ more, record.message causeValue = .ok "mined block" := by
  rw [submit_eq] at h
  obtain ⟨⟨tree, result, log⟩, hinsert, rfl⟩ := map_eq_ok_iff.1 h
  cases result with
  | error reason =>
      refine ⟨_, [], hinsert, ?_, fun _ hx => nomatch hx⟩
      rw [List.append_nil]
      rfl
  | ok id =>
      refine ⟨_, _, hinsert, rfl, fun record hmem => ?_⟩
      obtain rfl := List.mem_singleton.1 hmem
      rfl

theorem Logged.more {r : Receipt S T E} (h : t.Logged causeValue r) {more : List (LogRecord E)}
    (hmore : ∀ record ∈ more, record.message causeValue = .ok "mined block") :
    t.Logged causeValue { r with log := r.log ++ more } := by
  have hsilent : ∀ {text : String}, "mined block" ≠ text →
      said causeValue text (r.log ++ more) = said causeValue text r.log := by
    intro text htext
    have hnothing : said causeValue text more = [] :=
      said_of_silent fun record hmem => hmore record hmem ▸ fun heq => htext (Except.ok.inj heq)
    rw [said_append, hnothing, List.append_nil]
  refine ⟨?_, ?_, ?_⟩
  · exact (hsilent (by decide)).trans h.switch
  · intro hknown
    exact (hsilent (by decide)).trans (h.quiet hknown)
  · intro id hid hno
    obtain ⟨e, he, hsaid⟩ := h.admitted id hid hno
    exact ⟨e, he, (hsilent (by decide)).trans hsaid⟩

theorem logged_of_submit {draft : Draft S T} {nonce : Int} {r : Receipt S T E}
    (hr : t.submit draft nonce = .ok r) : t.Logged causeValue r := by
  obtain ⟨r', more, hinsert, rfl, hmore⟩ := submit_log causeValue hr
  exact (logged_of_insert hinsert).more hmore

theorem Looked.logged (h : t.Looked u) {r : Receipt S T E} (hr : u.Logged causeValue r) :
    t.Logged causeValue r := by
  obtain ⟨tally, rfl⟩ := h.retallied
  exact ⟨hr.switch, hr.quiet, hr.admitted⟩

theorem logged_of_produce {parent? : Option String} {body : List T} {o : Mining.Options}
    {r : Receipt S T E} (hr : t.produce parent? body o = .ok (some r)) :
    t.Logged causeValue r := by
  cases produce_cases hr with
  | refused hprepare =>
      exact (looked_of_prepare hprepare).logged (logged_of_silence fun _ hid => nomatch hid)
  | submitted hprepare _ hsubmit =>
      exact (looked_of_prepare hprepare).logged (logged_of_submit hsubmit)

def Current (t : Tree S T E) : Prop :=
  t.head = t.bestHead t.tally.rule

theorem Current.head_eq (h : t.Current) (hgrown : Grown settings t)
    (hrule : t.tally.rule = Preference.heaviestChain.rule) {id : String} {height : Int}
    (hid : t.Tallest id height) : t.head = id := by
  obtain ⟨_, htallest⟩ := hgrown.tallest_heaviestChain
  rw [h, hrule]
  exact htallest.unique hid

theorem Tallest.switchFrom {id before : String} {height : Int} (h : t.Tallest id height)
    (hhead : t.head = id) (hne : id ≠ before) :
    t.switchFrom before = [.headSwitched before id (some height)] := by
  rw [Tree.switchFrom, hhead, if_neg hne, h.height_eq]

theorem current_commit (hgrown : Grown settings t) (ht : t.tally.Exact t) {id : String} {post : S}
    (hb : t.Admits id b post) : (t.commit id b post).tree.Current := by
  have hstep : t.Evolves (t.graft id b post) := .grown hb t.tally t.head
  obtain ⟨hhead, _, hrule⟩ := Tally.headIn_spec (.step hgrown hstep) (ht.evolves hstep)
  calc (t.commit id b post).tree.head
      = (t.graft id b post).bestHead t.tally.rule := hhead
    _ = (t.graft id b post).bestHead (t.commit id b post).tree.tally.rule :=
      congrArg (t.graft id b post).bestHead hrule.symm

theorem current_found (h : found settings = .ok t) : t.Current ∧ t.head = t.genesisId := by
  obtain ⟨b, id, _, _, rfl⟩ := found_eq_ok_iff.1 h
  have hleaves : (first settings id b).leaves = [id] := List.perm_singleton.1 (Text.sort_perm [id])
  exact ⟨((Grown.found h).bestHead_of_single _ hleaves).symm, rfl⟩

end Tree

namespace Session

variable {settings : Settings S T E} {s : Session S T E} {c : Call S T} {causeValue : E → Value}

theorem tree_start (t : Tree S T E) : (start t).tree = t :=
  rfl

def logOf (s : Session S T E) : Call S T → List (LogRecord E)
  | .insert b => (Work.insert b).recorded s.tree
  | .prepare parent? body => (Work.prepare parent? body).recorded s.tree
  | .submit draft nonce => (Work.submit draft nonce).recorded s.tree
  | .produce parent? body o => (Work.produce parent? body o).recorded s.tree
  | .handIn _ | .weight _ _ | .head _ | .chain _ => []

def logs (s : Session S T E) : List (Call S T) → List (LogRecord E)
  | [] => []
  | c :: calls => s.logOf c ++ (s.step c).logs calls

theorem logOf_of_reply {r : Receipt S T E} (h : s.reply c = .ok (some r)) : s.logOf c = r.log := by
  cases reply_eq_iff.1 h with
  | insert h => rw [logOf, Work.recorded_insert, h]
  | submit h => rw [logOf, Work.recorded_submit, h]
  | produce h => rw [logOf, Work.recorded_produce, h]

theorem logOf_of_no_reply (h : ∀ r, s.reply c ≠ .ok (some r)) : s.logOf c = [] := by
  cases c with
  | insert b =>
      rw [logOf, Work.recorded_insert]
      split
      · rename_i hr
        exact absurd (reply_eq_iff.2 (.insert hr)) (h _)
      · rfl
  | submit draft nonce =>
      rw [logOf, Work.recorded_submit]
      split
      · rename_i hr
        exact absurd (reply_eq_iff.2 (.submit hr)) (h _)
      · rfl
  | prepare parent? body => exact Work.recorded_prepare s.tree parent? body
  | produce parent? body o =>
      rw [logOf, Work.recorded_produce]
      split
      · rename_i hr
        exact absurd hr (h _)
      · rfl
  | _ => rfl

theorem logged_reply {r : Receipt S T E} (h : s.reply c = .ok (some r)) :
    s.tree.Logged causeValue r := by
  cases reply_eq_iff.1 h with
  | insert hr => exact Tree.logged_of_insert hr
  | submit hr => exact Tree.logged_of_submit hr
  | produce hr => exact Tree.logged_of_produce hr

theorem said_switched_logOf (s : Session S T E) (c : Call S T) :
    said causeValue "canonical head switched" (s.logOf c) =
      (s.step c).tree.switchFrom s.tree.head := by
  by_cases hreply : ∃ r, s.reply c = .ok (some r)
  · obtain ⟨r, hr⟩ := hreply
    rw [logOf_of_reply hr, step_of_reply hr, (logged_reply hr).switch]
  · have hno : ∀ r, s.reply c ≠ .ok (some r) := fun r hr => hreply ⟨r, hr⟩
    obtain ⟨tally, htree⟩ := retallied_of_no_reply hno
    rw [logOf_of_no_reply hno, htree, Tree.switchFrom, if_pos rfl]
    rfl

theorem switches_logs (s : Session S T E) (calls : List (Call S T)) :
    Switches s.tree.head (said causeValue "canonical head switched" (s.logs calls))
      (s.run calls).tree.head := by
  -- each call goes on from the head that the call before it has left
  induction calls generalizing s with
  | nil => exact .stay _
  | cons c calls ih =>
      rw [logs, said_append, said_switched_logOf]
      exact ((s.step c).tree.switches_switchFrom _).append (ih _)

theorem said_admitted_of_quiet (h : s.admitted? c = none) :
    said causeValue "block admitted" (s.logOf c) = [] := by
  by_cases hreply : ∃ r, s.reply c = .ok (some r)
  · obtain ⟨r, hr⟩ := hreply
    rw [logOf_of_reply hr]
    apply (logged_reply hr).quiet
    intro id hid
    cases hno : s.tree.has id with
    | true => rfl
    | false =>
        rw [admitted?_eq_some_iff.2 ⟨r, hr, hid, hno⟩] at h
        cases h
  · rw [logOf_of_no_reply fun r hr => hreply ⟨r, hr⟩]
    rfl

theorem said_admitted_of_new {id : String} (h : s.admitted? c = some id) :
    ∃ e, (s.step c).tree.entry? id = some e ∧
      said causeValue "block admitted" (s.logOf c) =
        [.admitted id e.block.header.parent e.height] := by
  obtain ⟨r, hr, hid, hno⟩ := admitted?_eq_some_iff.1 h
  rw [logOf_of_reply hr, step_of_reply hr]
  exact (logged_reply hr).admitted id hid hno

theorem current_step (hgrown : Tree.Grown settings s.tree) (hs : s.Exact)
    (h : s.tree.Current) (c : Call S T) : (s.step c).tree.Current := by
  cases hc : s.admitted? c with
  | none =>
      have hrule : (s.step c).tree.tally.rule = s.tree.tally.rule :=
        Option.some.inj ((s.stepped_step c).rule? (r := .own) hgrown hs rfl)
      obtain ⟨tally, htree⟩ := retallied_of_quiet hc
      -- the leaves and the kept head are as they were
      rw [Tree.Current, hrule, htree]
      exact h
  | some id =>
      obtain ⟨r, hr, hid, hno⟩ := admitted?_eq_some_iff.1 hc
      rw [step_of_reply hr]
      cases outcome_of_reply hr with
      | quiet _ hknown => exact absurd (hno.symm.trans (hknown id hid)) Bool.false_ne_true
      | admitted hlooked hb _ htree =>
          obtain ⟨hgrown', hexact', _⟩ := hlooked.exact hgrown (hs .own _ rfl)
          exact htree ▸ Tree.current_commit hgrown' hexact' hb

theorem run_current (hgrown : Tree.Grown settings s.tree) (hs : s.Exact) (h : s.tree.Current)
    (calls : List (Call S T)) : (s.run calls).tree.Current := by
  induction calls generalizing s with
  | nil => exact h
  | cons c calls ih =>
      have hstep := s.stepped_step c
      exact ih (.step hgrown hstep.evolves) (hstep.exact hgrown hs) (current_step hgrown hs h c)

theorem head?_own (hgrown : Tree.Grown settings s.tree) (hs : s.Exact) (h : s.tree.Current) :
    s.head? .own = some s.tree.head := by
  rw [head?_eq (r := .own) hgrown hs rfl]
  exact congrArg some h.symm

end Session

theorem head_switches_traced (settings : Settings S T E) {t₀ : Tree S T E}
    (hfound : Tree.found settings = .ok t₀) (calls : List (Call S T)) {s : Session S T E}
    (hs : s = (Session.start t₀).run calls) :
    (∃ head, s.head? .own = some head ∧
      Switches t₀.genesisId (said settings.machine.causeValue "canonical head switched"
        ((Session.start t₀).logs calls)) head) ∧
    (∀ c, ∃ before after height, s.head? .own = some before ∧
      (s.step c).head? .own = some after ∧ (s.step c).tree.height? after = some height ∧
      said settings.machine.causeValue "canonical head switched" (s.logOf c) =
        if after = before then [] else [.headSwitched before after (some height)]) ∧
    (∀ b r, s.tree.insert b = .ok r → s.logOf (.insert b) = r.log ∧
      ∀ reason, r.result = .error reason → ∃ record text, r.log = [record] ∧
        record.level = .warn ∧ reason.describe settings.machine.causeValue = .ok text ∧
        record.message settings.machine.causeValue = .ok ("block rejected: " ++ text) ∧
        ("kind", .text reason.kind) ∈ record.fields) ∧
    (∀ c id, s.admitted? c = some id → ∃ e, (s.step c).tree.entry? id = some e ∧
      said settings.machine.causeValue "block admitted" (s.logOf c) =
        [.admitted id e.block.header.parent e.height]) ∧
    (∀ c, s.admitted? c = none →
      said settings.machine.causeValue "block admitted" (s.logOf c) = []) ∧
    ∀ b id, b.header.malformedField? = none → b.header.id = .ok id → s.tree.has id = true →
      s.tree.insert b = .ok ⟨s.tree, .ok id, []⟩ := by
  subst hs
  have hgrown := Session.grown_run hfound calls
  have hexact := Session.run_exact (.found hfound) (Session.exact_start hfound) calls
  obtain ⟨hstart, hfirst⟩ := Tree.current_found hfound
  have hcurrent := Session.run_current (s := Session.start t₀) (.found hfound)
    (Session.exact_start hfound) hstart calls
  refine ⟨?_, ?_, ?_, ?_, ?_, ?_⟩
  · refine ⟨_, Session.head?_own hgrown hexact hcurrent, ?_⟩
    rw [← hfirst]
    exact (Session.start t₀).switches_logs calls
  · intro c
    have hstep := ((Session.start t₀).run calls).stepped_step c
    have hgrown' := Tree.Grown.step hgrown hstep.evolves
    have hcurrent' := Session.current_step hgrown hexact hcurrent c
    obtain ⟨height, hheight⟩ := hgrown'.exists_height_bestHead
      (((Session.start t₀).run calls).step c).tree.tally.rule
    rw [← hcurrent'] at hheight
    refine ⟨_, _, height, Session.head?_own hgrown hexact hcurrent,
      Session.head?_own hgrown' (hstep.exact hgrown hexact) hcurrent', hheight, ?_⟩
    rw [Session.said_switched_logOf, Tree.switchFrom, hheight]
  · intro b r hr
    refine ⟨Session.logOf_of_reply (Session.reply_eq_iff.2 (.insert hr)), ?_⟩
    intro reason hreason
    rw [← hgrown.sound.machine_eq]
    exact Tree.insert_error_log hr hreason
  · intro c id hc
    exact Session.said_admitted_of_new hc
  · intro c hc
    exact Session.said_admitted_of_quiet hc
  · intro b id hshape hid hhas
    exact Tree.insert_known hshape hid hhas

namespace Sums

theorem head_of_tallest {b : Block Int} (hfound : Tree.found mined =
      .ok (Tree.first mined genesisId b)) (calls : List (Call SumProduct.State Int))
    {t : Tree SumProduct.State Int SumProduct.Failure} {id : String} {height : Int}
    (hrun : (Session.start (Tree.first mined genesisId b)).run calls = .start t)
    (h : t.Tallest id height) : t.head = id := by
  have hgrown := Session.grown_run hfound calls
  have hcurrent := Session.run_current (s := .start (Tree.first mined genesisId b)) (.found hfound)
    (Session.exact_start hfound) (Tree.current_found hfound).1 calls
  have hr := Session.own_rule? hfound calls
  rw [hrun] at hgrown hcurrent hr
  exact hcurrent.head_eq hgrown (Option.some.inj hr) h

theorem said_switched_fork {b : Block Int} (hfound : Tree.found mined =
      .ok (Tree.first mined genesisId b)) :
    said mined.machine.causeValue "canonical head switched"
      ((Session.start (Tree.first mined genesisId b)).logs
        [.insert left, .insert right, .insert tip]) =
      [.headSwitched genesisId leftId (some 1), .headSwitched leftId rightId (some 1),
        .headSwitched rightId tipId (some 2)] := by
  have hleft : (Session.start (Tree.first mined genesisId b)).step (.insert left) =
      .start (withLeft b) := step_left b []
  have hright : (Session.start (withLeft b)).step (.insert right) = .start (withRight b) :=
    step_right b []
  have htip : (Session.start (withRight b)).step (.insert tip) = .start (forked b) := step_tip b []
  have hheadLeft := head_of_tallest hfound [.insert left]
    (by rw [Session.run_cons, hleft, Session.run_nil]) (tallest_left b)
  have hheadRight := head_of_tallest hfound [.insert left, .insert right]
    (by rw [Session.run_cons, hleft, Session.run_cons, hright, Session.run_nil]) (tallest_right b)
  have hheadTip := head_of_tallest hfound _ (run_fork b []) (tallest_tip b)
  have hfirst : (Tree.first mined genesisId b).head = genesisId := rfl
  rw [Session.logs, said_append, Session.said_switched_logOf, hleft, Session.logs, said_append,
    Session.said_switched_logOf, hright, Session.logs, said_append, Session.said_switched_logOf,
    htip, Session.logs]
  simp only [Session.tree_start]
  rw [hfirst, (tallest_left b).switchFrom hheadLeft (by decide), hheadLeft,
    (tallest_right b).switchFrom hheadRight (by decide), hheadRight,
    (tallest_tip b).switchFrom hheadTip (by decide)]
  rfl

theorem has_left_forked (b : Block Int) : (forked b).has leftId = true := by
  have hright : rightId ≠ leftId := by decide
  have htip : tipId ≠ leftId := by decide
  rw [forked, Tree.has_commit_of_ne _ _ htip, withRight, Tree.has_commit_of_ne _ _ hright]
  exact Tree.has_iff.2 ⟨_, (Tree.entry?_commit ..).trans (if_pos rfl)⟩

end Sums

theorem sums_head_switches_traced :
    ∃ t₀ s, Tree.found Sums.mined = .ok t₀ ∧
      s = (Session.start t₀).run [.insert Sums.left, .insert Sums.right, .insert Sums.tip] ∧
      said Sums.mined.machine.causeValue "canonical head switched" ((Session.start t₀).logs
        [.insert Sums.left, .insert Sums.right, .insert Sums.tip]) =
        [.headSwitched Sums.genesisId Sums.leftId (some 1),
          .headSwitched Sums.leftId Sums.rightId (some 1),
          .headSwitched Sums.rightId Sums.tipId (some 2)] ∧
      s.head? .own = some Sums.tipId ∧
      s.tree.insert Sums.left = .ok ⟨s.tree, .ok Sums.leftId, []⟩ := by
  obtain ⟨b, hfound⟩ := Sums.found_like Sums.mined rfl rfl
  have hrun : (Session.start (Tree.first Sums.mined Sums.genesisId b)).run
      [.insert Sums.left, .insert Sums.right, .insert Sums.tip] = .start (Sums.forked b) :=
    Sums.run_fork b []
  have hhas := Sums.has_left_forked b
  obtain ⟨_, _, hleft⟩ := (Sums.left_admits b).accepted
  have hsaid := Sums.said_switched_fork hfound
  obtain ⟨⟨head, hhead, hswitches⟩, _, _, _, _, hknown⟩ := head_switches_traced Sums.mined hfound
    [.insert Sums.left, .insert Sums.right, .insert Sums.tip] rfl
  rw [hsaid] at hswitches
  obtain rfl : head = Sums.tipId := hswitches.last_eq (.switch (.switch (.switch (.stay _))))
  rw [hrun] at hhead hknown
  generalize Sums.forked b = t at *
  exact ⟨_, _, hfound, hrun.symm, hsaid, hhead,
    hknown _ _ hleft.wellFormed Sums.fork_ids.1 hhas⟩

end BlockTree
