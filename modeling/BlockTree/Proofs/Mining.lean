import BlockTree.Mining
import BlockTree.Proofs.Admission

namespace BlockTree

theorem Rlp.Item.nonneg_of_ofInt {n : Int} {item : Rlp.Item} (h : Rlp.Item.ofInt n = .ok item) :
    0 ≤ n := by
  unfold Rlp.Item.ofInt at h
  split at h
  · simp at h
  · omega

theorem Header.nonneg_of_id {h : Header} {id : String} (hid : h.id = .ok id) :
    0 ≤ h.height ∧ 0 ≤ h.nonce := by
  obtain ⟨_, hencode, _⟩ := id_eq_ok_iff.1 hid
  obtain ⟨_, hitem, _⟩ := bind_eq_ok_iff.1 hencode
  obtain ⟨_, _, hitem⟩ := bind_eq_ok_iff.1 hitem
  obtain ⟨_, _, hitem⟩ := bind_eq_ok_iff.1 hitem
  obtain ⟨_, _, hitem⟩ := bind_eq_ok_iff.1 hitem
  obtain ⟨_, hheight, hitem⟩ := bind_eq_ok_iff.1 hitem
  obtain ⟨_, hnonce, _⟩ := bind_eq_ok_iff.1 hitem
  exact ⟨Rlp.Item.nonneg_of_ofInt hheight, Rlp.Item.nonneg_of_ofInt hnonce⟩

namespace Mining

variable {h : UnsealedHeader} {d : Difficulty} {start nonce : Int}

theorem hits_eq_true_iff :
    hits h d nonce = .ok true ↔ ∃ id, (h.sealWith nonce).id = .ok id ∧ d.admits id = true :=
  bind_pure_eq_ok_iff

theorem hits_of_search {attempts : Nat} (hfound : search h d start attempts = .ok (some nonce)) :
    hits h d nonce = .ok true := by
  induction attempts generalizing start with
  | zero => simp [search] at hfound
  | succ attempts ih =>
      obtain ⟨hit, hhit, hfound⟩ := bind_eq_ok_iff.1 hfound
      cases hit with
      | false => exact ih hfound
      | true =>
          obtain rfl : start = nonce := by simpa [pure, Except.pure] using hfound
          exact hhit

theorem search_of_hits (hhits : hits h d start = .ok true) (attempts : Nat) :
    search h d start (attempts + 1) = .ok (some start) := by
  simp only [search, hhits, bind, Except.bind, if_true]
  rfl

end Mining

end BlockTree
