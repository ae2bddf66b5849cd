import BlockTree.Proofs.Mining
import BlockTree.Proofs.SubChain
import BlockTree.Proofs.Weights

namespace BlockTree

variable {S T E : Type}

namespace Validity

variable {v : Validity S T E} {p : ParentContext S} {body : List T} {post : S}
  {bodyRoot stateRoot : String} {nonce : Int}

end Validity

namespace Tree

variable {settings : Settings S T E} {t u : Tree S T E} {parent? : Option String} {body : List T}

theorem exists_submit_eq {draft : Draft S T} {nonce : Int} {r : Receipt S T E}
    (h : t.insert (draft.sealWith nonce) = .ok r) :
    ∃ log, t.submit draft nonce = .ok { r with log } := by
  refine ⟨(markMined draft nonce r).log, ?_⟩
  rw [submit_eq, h]
  exact congrArg Except.ok (markMined_eq draft nonce r)

theorem produce_of_draft {draft : Draft S T} {o : Mining.Options} {nonce : Int}
    (hprepare : t.prepare parent? body = .ok (u, .ok draft))
    (hmine : Mining.mine draft.header u.difficulty o = .ok (some nonce)) :
    t.produce parent? body o = (u.submit draft nonce).map some := by
  obtain ⟨rfl, hdraft⟩ := prepare_eq_ok_iff.1 hprepare
  rw [produce_eq, hdraft]
  exact proceed_of_mined hmine

theorem produce_of_refusal {o : Mining.Options} {reason : Rejection E}
    (hprepare : t.prepare parent? body = .ok (u, .error reason)) :
    t.produce parent? body o = .ok (some ⟨u, .error reason, []⟩) := by
  obtain ⟨rfl, hdraft⟩ := prepare_eq_ok_iff.1 hprepare
  rw [produce_eq, hdraft]
  rfl

theorem Evolves.parentContext? (h : t.Evolves u) {x : String} {p : ParentContext S}
    (hp : t.parentContext? x = some p) : u.parentContext? x = some p := by
  cases h with
  | same tally head => exact hp
  | grown hb tally head => exact parentContext?_graft hb.fresh hp

end Tree

namespace Session

variable {settings : Settings S T E} {s : Session S T E}

theorem step_produce_of_none {parent? : Option String} {body : List T} {o : Mining.Options}
    (h : ∀ r, s.tree.produce parent? body o ≠ .ok (some r)) :
    s.step (.produce parent? body o) = { s with tree := (s.tree.base parent?).2 } := by
  rw [step, work, Work.leaves_produce]
  split
  · rename_i r hr
    exact absurd hr (h r)
  · rfl

end Session

namespace Sums

end Sums

end BlockTree
