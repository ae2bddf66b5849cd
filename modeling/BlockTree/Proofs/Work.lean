import BlockTree.Producer
import BlockTree.Proofs.HeaderEncoding

namespace BlockTree

namespace Work

variable {S T E α β : Type} {desk desk' : Desk S T E}

theorem run_bind (w : Work S T E α) (f : α → Work S T E β) :
    (w >>= f).run.run desk = match w.run.run desk with
      | (.ok a, desk) => (f a).run.run desk
      | (.error fault, desk) => (.error fault, desk) := by
  change (ExceptT.run (w >>= f)).run desk = _
  rw [ExceptT.run_bind, StateT.run_bind]
  rcases w.run.run desk with ⟨_ | _, _⟩ <;> rfl

theorem run_bind_ok {w : Work S T E α} {f : α → Work S T E β} {a : α}
    (h : w.run.run desk = (.ok a, desk')) :
    (w >>= f).run.run desk = (f a).run.run desk' := by
  rw [run_bind, h]

theorem run_bind_error {w : Work S T E α} {f : α → Work S T E β} {fault : Fault}
    (h : w.run.run desk = (.error fault, desk')) :
    (w >>= f).run.run desk = (.error fault, desk') := by
  rw [run_bind, h]

theorem run_pure (a : α) : (pure a : Work S T E α).run.run desk = (.ok a, desk) := rfl

theorem run_get : (get : Work S T E (Desk S T E)).run.run desk = (.ok desk, desk) := rfl

theorem run_lift (x : Except Fault α) : (liftM x : Work S T E α).run.run desk = (x, desk) := rfl

theorem run_report_ok {record : LogRecord E} {text : String}
    (h : record.message desk.tree.validity.machine.causeValue = .ok text) :
    (report record).run.run desk = (.ok (), { desk with log := desk.log ++ [record] }) := by
  rw [report, run_bind_ok run_get, h]
  rfl

theorem run_report_error {record : LogRecord E} {fault : Fault}
    (h : record.message desk.tree.validity.machine.causeValue = .error fault) :
    (report record).run.run desk = (.error fault, desk) := by
  rw [report, run_bind_ok run_get, h]
  rfl

end Work

namespace LogRecord

variable {E : Type} (causeValue : E → Value)

theorem message_malformed (field : Header.Field) :
    (malformed field : LogRecord E).message causeValue =
      (Except.ok ("malformed header field " ++ field.name)).map ("block rejected: " ++ ·) := rfl

theorem message_rejected (id : String) (height : Int) (reason : Rejection E) :
    (rejected id height reason).message causeValue =
      (reason.describe causeValue).map ("block rejected: " ++ ·) := by
  change Except.bind _ _ = _
  cases reason.describe causeValue <;> rfl

end LogRecord

namespace Tree

variable {S T E : Type}

-- a rejection is returned once there is a text for it
def answer (t : Tree S T E) (id : String) (b : Block T) :
    Except (Rejection E) S → Except Fault (Receipt S T E)
  | .error reason => (reason.describe t.validity.machine.causeValue).map fun _ =>
      ⟨t, .error reason, [.rejected id b.header.height reason]⟩
  | .ok post => .ok (t.commit id b post)

end Tree

namespace Work

variable {S T E : Type} {desk : Desk S T E} {b : Block T} {id : String}

-- a fault comes before anything is done to the tree
def file (desk : Desk S T E) :
    Except Fault (Receipt S T E) → Except Fault (Except (Rejection E) String) × Desk S T E
  | .ok r => (.ok r.result, ⟨r.tree, desk.log ++ r.log⟩)
  | .error fault => (.error fault, desk)

theorem run_insert_malformed {field : Header.Field} (h : b.header.malformedField? = some field) :
    (insert b).run.run desk =
      file desk (.ok ⟨desk.tree, .error (.malformedHeader field), [.malformed field]⟩) := by
  rw [insert, h]
  dsimp only
  rw [refuse, run_bind_ok (run_report_ok (LogRecord.message_malformed ..))]
  rfl

theorem run_insert_known (shape : b.header.malformedField? = none) (hid : b.header.id = .ok id)
    (h : desk.tree.has id = true) :
    (insert b).run.run desk = file desk (.ok ⟨desk.tree, .ok id, []⟩) := by
  rw [insert, shape]
  dsimp only
  rw [hid, run_bind_ok (run_lift _), run_bind_ok run_get]
  simp only [h, if_true]
  rw [file, List.append_nil]
  rfl

theorem run_insert_fresh (shape : b.header.malformedField? = none) (hid : b.header.id = .ok id)
    (fresh : desk.tree.has id = false) :
    (insert b).run.run desk = file desk
      (desk.tree.validity.check (desk.tree.parentContext? b.header.parent) b >>=
        desk.tree.answer id b) := by
  rw [insert, shape]
  dsimp only
  rw [hid, run_bind_ok (run_lift _), run_bind_ok run_get]
  simp only [fresh, Bool.false_eq_true, if_false]
  cases hcheck : desk.tree.validity.check (desk.tree.parentContext? b.header.parent) b with
  | error fault => rfl
  | ok verdict =>
      rw [run_bind_ok (run_lift _)]
      cases verdict with
      | ok post => rfl
      | error reason =>
          have hmessage := LogRecord.message_rejected desk.tree.validity.machine.causeValue id
            b.header.height reason
          change (refuse reason _).run.run desk = file desk (Except.map _ _)
          rw [refuse]
          cases htext : reason.describe desk.tree.validity.machine.causeValue with
          | ok text =>
              rw [htext] at hmessage
              rw [run_bind_ok (run_report_ok hmessage)]
              rfl
          | error fault =>
              rw [htext] at hmessage
              rw [run_bind_error (run_report_error hmessage)]
              rfl

theorem receipt_eq {w : Work S T E (Except (Rejection E) String)} {t : Tree S T E}
    {r? : Except Fault (Receipt S T E)} (h : w.run.run ⟨t, []⟩ = file ⟨t, []⟩ r?) :
    w.receipt t = r? := by
  rw [receipt, outcome, h]
  cases r? <;> rfl

end Work

namespace Tree

variable {S T E : Type} {t : Tree S T E} {b : Block T} {id : String}

theorem insert_malformed {field : Header.Field} (h : b.header.malformedField? = some field) :
    t.insert b = .ok ⟨t, .error (.malformedHeader field), [.malformed field]⟩ :=
  Work.receipt_eq (Work.run_insert_malformed h)

theorem insert_known (shape : b.header.malformedField? = none) (hid : b.header.id = .ok id)
    (h : t.has id = true) : t.insert b = .ok ⟨t, .ok id, []⟩ :=
  Work.receipt_eq (Work.run_insert_known shape hid h)

section Fresh

variable (shape : b.header.malformedField? = none) (hid : b.header.id = .ok id)
  (fresh : t.has id = false)

include shape hid fresh

theorem insert_fresh : t.insert b =
    t.validity.check (t.parentContext? b.header.parent) b >>= t.answer id b :=
  Work.receipt_eq (Work.run_insert_fresh shape hid fresh)

theorem insert_rejected {reason : Rejection E}
    (h : t.validity.check (t.parentContext? b.header.parent) b = .ok (.error reason))
    {text : String} (told : reason.describe t.validity.machine.causeValue = .ok text) :
    t.insert b = .ok ⟨t, .error reason, [.rejected id b.header.height reason]⟩ := by
  rw [insert_fresh shape hid fresh, h]
  exact map_eq_ok_iff.2 ⟨text, told, rfl⟩

theorem insert_orphan (horphan : t.parentContext? b.header.parent = none) :
    t.insert b = .ok ⟨t, .error (.unknownParent b.header.parent),
      [.rejected id b.header.height (.unknownParent b.header.parent)]⟩ := by
  refine insert_rejected shape hid fresh ?_ rfl
  rw [horphan, Validity.check, shape]

end Fresh

def base (t : Tree S T E) : Option String → String × Tree S T E
  | some id => (id, t)
  | none => t.ownHead

def draftUnder (t : Tree S T E) (parent : String) (body : List T) :
    Except Fault (Except (Rejection E) (Draft S T)) :=
  match t.header? parent, t.present? parent with
  | some header, some state =>
      (t.validity.machine.draftOn header state body).map (·.mapError .invalidTransition)
  | _, _ => .ok (.error (.unknownParent parent))

def markMined (draft : Draft S T) (nonce : Int) (r : Receipt S T E) : Receipt S T E :=
  match r.result with
  | .ok id => { r with log := r.log ++ [.mined id draft.header.height nonce] }
  | .error _ => r

def proceed (t : Tree S T E) (o : Mining.Options) :
    Except (Rejection E) (Draft S T) → Except Fault (Option (Receipt S T E))
  | .error reason => .ok (some ⟨t, .error reason, []⟩)
  | .ok draft => do
      match ← Mining.mine draft.header t.difficulty o with
      | none => return none
      | some nonce => (t.submit draft nonce).map some

theorem proceed_of_mined {o : Mining.Options} {draft : Draft S T} {nonce : Int}
    (h : Mining.mine draft.header t.difficulty o = .ok (some nonce)) :
    t.proceed o (.ok draft) = (t.submit draft nonce).map some := by
  rw [proceed, h]
  rfl

end Tree

namespace Work

variable {S T E : Type} {desk : Desk S T E}

theorem run_insert (b : Block T) : (insert b).run.run desk = file desk (desk.tree.insert b) := by
  cases shape : b.header.malformedField? with
  | some field => rw [run_insert_malformed shape, Tree.insert_malformed shape]
  | none =>
      obtain ⟨id, hid⟩ := Header.exists_id_eq_ok shape
      cases hhas : desk.tree.has id with
      | true => rw [run_insert_known shape hid hhas, Tree.insert_known shape hid hhas]
      | false => rw [run_insert_fresh shape hid hhas, Tree.insert_fresh shape hid hhas]

theorem run_submit_insert (draft : Draft S T) (nonce : Int) :
    (submit draft nonce).run.run desk =
      file desk ((desk.tree.insert (draft.sealWith nonce)).map (Tree.markMined draft nonce)) := by
  have hinsert : (insert (draft.sealWith nonce)).run.run desk = _ := run_insert _
  rw [submit]
  cases h : desk.tree.insert (draft.sealWith nonce) with
  | error fault =>
      rw [h] at hinsert
      rw [run_bind_error hinsert]
      rfl
  | ok r =>
      rw [h] at hinsert
      rw [run_bind_ok hinsert]
      obtain ⟨tree, result, log⟩ := r
      cases result with
      | error reason => rfl
      | ok id =>
          rw [Except.map, file, Tree.markMined]
          simp only [← List.append_assoc]
          rfl

theorem run_submit (draft : Draft S T) (nonce : Int) :
    (submit draft nonce).run.run desk = file desk (desk.tree.submit draft nonce) := by
  rw [run_submit_insert, Tree.submit, receipt_eq (run_submit_insert draft nonce)]

theorem run_bestHead : (bestHead : Work S T E String).run.run desk =
    (.ok desk.tree.ownHead.1, { desk with tree := desk.tree.ownHead.2 }) := rfl

theorem run_prepare_some (parent : String) (body : List T) :
    (prepare (some parent) body).run.run desk = (desk.tree.draftUnder parent body, desk) := by
  rw [prepare, run_bind_ok (run_pure parent), run_bind_ok run_get, Tree.draftUnder]
  dsimp only
  cases desk.tree.header? parent with
  | none => rfl
  | some header =>
      cases desk.tree.present? parent with
      | none => rfl
      | some state =>
          dsimp only
          rw [run_bind, run_lift]
          cases desk.tree.validity.machine.draftOn header state body <;> rfl

theorem run_prepare (parent? : Option String) (body : List T) :
    (prepare parent? body).run.run desk =
      (desk.tree.draftUnder (desk.tree.base parent?).1 body,
        { desk with tree := (desk.tree.base parent?).2 }) := by
  cases parent? with
  | some parent => exact run_prepare_some parent body
  | none => exact (run_bind_ok run_bestHead).trans (run_prepare_some _ body)

def fileIfAny (desk : Desk S T E) : Except Fault (Option (Receipt S T E)) →
    Except Fault (Option (Except (Rejection E) String)) × Desk S T E
  | .ok (some r) => (.ok (some r.result), ⟨r.tree, desk.log ++ r.log⟩)
  | .ok none => (.ok none, desk)
  | .error fault => (.error fault, desk)

theorem run_produce (parent? : Option String) (body : List T) (o : Mining.Options) :
    (produce parent? body o).run.run desk =
      fileIfAny { desk with tree := (desk.tree.base parent?).2 }
        (desk.tree.draftUnder (desk.tree.base parent?).1 body >>=
          (desk.tree.base parent?).2.proceed o) := by
  have hprepare : (prepare parent? body).run.run desk = _ := run_prepare parent? body
  rw [produce]
  generalize (desk.tree.base parent?).2 = u at *
  cases hdraft : desk.tree.draftUnder (desk.tree.base parent?).1 body with
  | error fault =>
      rw [hdraft] at hprepare
      exact run_bind_error hprepare
  | ok drafted =>
      rw [hdraft] at hprepare
      rw [run_bind_ok hprepare]
      change _ = fileIfAny _ (u.proceed o drafted)
      cases drafted with
      | error reason =>
          rw [Tree.proceed, fileIfAny, List.append_nil]
          rfl
      | ok draft =>
          dsimp only
          rw [run_bind_ok run_get]
          cases hmine : Mining.mine draft.header u.difficulty o with
          | error fault =>
              rw [Tree.proceed, hmine]
              rfl
          | ok nonce? =>
              rw [run_bind_ok (run_lift _)]
              cases nonce? with
              | none =>
                  rw [Tree.proceed, hmine]
                  rfl
              | some nonce =>
                  dsimp only
                  rw [run_bind, run_submit, Tree.proceed_of_mined hmine]
                  cases u.submit draft nonce <;> rfl

def recorded {α : Type} (w : Work S T E α) (t : Tree S T E) : List (LogRecord E) :=
  (w.run.run ⟨t, []⟩).2.log

section Filed

variable {w : Work S T E (Except (Rejection E) String)} {t : Tree S T E}
  {r? : Except Fault (Receipt S T E)}

theorem recorded_of_filed : w.run.run ⟨t, []⟩ = file ⟨t, []⟩ r? →
    w.recorded t = match r? with
      | .ok r => r.log
      | .error _ => [] := by
  intro h
  rw [recorded, h]
  cases r? <;> rfl

theorem leaves_of_filed : w.run.run ⟨t, []⟩ = file ⟨t, []⟩ r? →
    w.leaves t = match r? with
      | .ok r => r.tree
      | .error _ => t := by
  intro h
  rw [leaves, h]
  cases r? <;> rfl

end Filed

theorem recorded_insert (t : Tree S T E) (b : Block T) :
    (insert b).recorded t = match t.insert b with
      | .ok r => r.log
      | .error _ => [] :=
  recorded_of_filed (run_insert b)

theorem recorded_submit (t : Tree S T E) (draft : Draft S T) (nonce : Int) :
    (submit draft nonce).recorded t = match t.submit draft nonce with
      | .ok r => r.log
      | .error _ => [] :=
  recorded_of_filed (run_submit draft nonce)

theorem recorded_prepare (t : Tree S T E) (parent? : Option String) (body : List T) :
    (prepare parent? body).recorded t = [] := by
  rw [recorded, run_prepare]

theorem leaves_insert (t : Tree S T E) (b : Block T) :
    (insert b).leaves t = match t.insert b with
      | .ok r => r.tree
      | .error _ => t :=
  leaves_of_filed (run_insert b)

theorem leaves_submit (t : Tree S T E) (draft : Draft S T) (nonce : Int) :
    (submit draft nonce).leaves t = match t.submit draft nonce with
      | .ok r => r.tree
      | .error _ => t :=
  leaves_of_filed (run_submit draft nonce)

theorem leaves_prepare (t : Tree S T E) (parent? : Option String) (body : List T) :
    (prepare parent? body).leaves t = (t.base parent?).2 := by
  rw [leaves, run_prepare]

end Work

namespace Tree

variable {S T E : Type}

theorem markMined_eq (draft : Draft S T) (nonce : Int) (r : Receipt S T E) :
    markMined draft nonce r = { r with log := (markMined draft nonce r).log } := by
  obtain ⟨tree, result, log⟩ := r
  cases result <;> rfl

theorem submit_eq (t : Tree S T E) (draft : Draft S T) (nonce : Int) :
    t.submit draft nonce = (t.insert (draft.sealWith nonce)).map (markMined draft nonce) :=
  Work.receipt_eq (Work.run_submit_insert draft nonce)

theorem prepare_eq (t : Tree S T E) (parent? : Option String) (body : List T) :
    t.prepare parent? body =
      (t.draftUnder (t.base parent?).1 body).map fun drafted => ((t.base parent?).2, drafted) := by
  rw [prepare, Work.outcome, Work.run_prepare]
  cases t.draftUnder (t.base parent?).1 body <;> rfl

theorem produce_eq (t : Tree S T E) (parent? : Option String) (body : List T)
    (o : Mining.Options) : t.produce parent? body o =
      t.draftUnder (t.base parent?).1 body >>= (t.base parent?).2.proceed o := by
  rw [produce, Work.outcome, Work.run_produce]
  rcases t.draftUnder (t.base parent?).1 body >>= (t.base parent?).2.proceed o with
    fault | (_ | r) <;> rfl

end Tree

namespace Work

variable {S T E : Type} (t : Tree S T E) (parent? : Option String) (body : List T)
  (o : Mining.Options)

theorem leaves_produce :
    (produce parent? body o).leaves t = match t.produce parent? body o with
      | .ok (some r) => r.tree
      | _ => (t.base parent?).2 := by
  rw [leaves, run_produce, Tree.produce_eq]
  rcases t.draftUnder (t.base parent?).1 body >>= (t.base parent?).2.proceed o with
    fault | (_ | r) <;> rfl

theorem recorded_produce :
    (produce parent? body o).recorded t = match t.produce parent? body o with
      | .ok (some r) => r.log
      | _ => [] := by
  rw [recorded, run_produce, Tree.produce_eq]
  rcases t.draftUnder (t.base parent?).1 body >>= (t.base parent?).2.proceed o with
    fault | (_ | r) <;> rfl

end Work

end BlockTree
