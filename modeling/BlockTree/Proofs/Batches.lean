import BlockTree.Proofs.LeastNonce

namespace BlockTree

namespace Mining

variable {h : UnsealedHeader} {d : Difficulty} {start : Int}

theorem batchOf_eq {x : Number} {batch : Int} (hbatch : x.toInt? = some batch) (hpos : 1 ≤ batch) :
    batchOf x = .ok batch.toNat := by
  rw [batchOf, hbatch]
  exact if_neg (Int.not_lt.2 hpos)

theorem mineWithin_eq_search (h : UnsealedHeader) (d : Difficulty) (batch : Nat) (next : Int)
    (batches : Nat) : mineWithin h d batch next batches = search h d next (batches * batch) := by
  induction batches generalizing next with
  | zero =>
      rw [Nat.zero_mul]
      rfl
  | succ batches ih =>
      rw [Nat.succ_mul, Nat.add_comm (batches * batch), search_add, ← ih]
      rfl

def orAborted (attempts : Int) (found : Except Fault (Option Int)) : Except Fault (Option Int) := do
  match ← found with
  | some nonce => return some nonce
  | none => .error (.miningAborted attempts)

theorem mineUntil_eq_search (h : UnsealedHeader) (d : Difficulty) (start : Int) (batch : Nat)
    (next : Int) (reads : Nat) :
    (mineUntil h d start batch next reads).map some =
      orAborted (next + (reads * batch : Nat) - start) (search h d next (reads * batch)) := by
  induction reads generalizing next with
  | zero =>
      rw [Nat.zero_mul, Int.ofNat_zero, Int.add_zero]
      rfl
  | succ reads ih =>
      have hnext : next + ((reads + 1) * batch : Nat) = next + batch + (reads * batch : Nat) := by
        rw [Nat.succ_mul]
        omega
      rw [hnext, Nat.succ_mul, Nat.add_comm (reads * batch), search_add, mineUntil]
      cases search h d next batch with
      | error fault => rfl
      | ok found =>
          cases found with
          | some nonce => rfl
          | none => exact ih (next + batch)

theorem mine_unsignalled {x : Number} {batch : Nat} (hbatch : batchOf x = .ok batch)
    (patience : Nat) :
    mine h d ⟨start, x, none, patience⟩ = search h d start (patience * batch) := by
  rw [← mineWithin_eq_search, mine, hbatch]
  rfl

theorem mine_signalled {x : Number} {batch : Nat} (hbatch : batchOf x = .ok batch)
    (reads patience : Nat) : mine h d ⟨start, x, some reads, patience⟩ =
      orAborted (reads * batch : Nat) (search h d start (reads * batch)) := by
  have hmine : mine h d ⟨start, x, some reads, patience⟩ =
      (mineUntil h d start batch start reads).map some := by
    rw [mine, hbatch]
    change (mineUntil h d start batch start reads >>= fun nonce => pure (some nonce)) = _
    cases mineUntil h d start batch start reads <;> rfl
  have hattempts : start + (reads * batch : Nat) - start = (reads * batch : Nat) := by omega
  rw [hmine, mineUntil_eq_search, hattempts]

theorem batches_find_least_nonce_or_abort_between (he : h.Encodable) (hstart : 0 ≤ start)
    {batchSize : Number} {batch : Int} (hbatch : batchSize.toInt? = some batch)
    (hpos : 1 ≤ batch) :
    (∀ nonce, nonce ∈ carrying h d ↔
      ∃ id, (h.sealWith nonce).id = .ok id ∧ Hex.toNat id ≤ d.threshold) ∧
    ((Set.Ici start ∩ carrying h d).Nonempty →
      ∃ least, IsLeast (Set.Ici start ∩ carrying h d) least ∧
        (∀ patience : Nat, mine h d ⟨start, batchSize, none, patience⟩ =
          .ok (if least < start + patience * batch then some least else none)) ∧
        ∀ reads patience : Nat, mine h d ⟨start, batchSize, some reads, patience⟩ =
          if least < start + reads * batch then .ok (some least)
          else .error (.miningAborted (reads * batch))) ∧
    (Set.Ici start ∩ carrying h d = ∅ →
      (∀ patience : Nat, mine h d ⟨start, batchSize, none, patience⟩ = .ok none) ∧
      ∀ reads patience : Nat, mine h d ⟨start, batchSize, some reads, patience⟩ =
        .error (.miningAborted (reads * batch))) := by
  have hsize := batchOf_eq hbatch hpos
  have hwindow : ∀ batches : Nat, ((batches * batch.toNat : Nat) : Int) = batches * batch := by
    intro batches
    rw [Int.natCast_mul, Int.toNat_of_nonneg (by omega)]
  refine ⟨fun nonce => Header.checkDigest_eq_ok_iff_le, fun hsome => ?_, fun hempty => ?_⟩
  · obtain ⟨least, hleast⟩ := exists_isLeast hsome
    refine ⟨least, hleast, fun patience => ?_, fun reads patience => ?_⟩
    · rw [mine_unsignalled hsize, search_of_isLeast he hstart hleast, hwindow]
    · rw [mine_signalled hsize, search_of_isLeast he hstart hleast, hwindow]
      split <;> rfl
  · refine ⟨fun patience => ?_, fun reads patience => ?_⟩
    · rw [mine_unsignalled hsize, search_of_empty he hstart hempty]
    · rw [mine_signalled hsize, search_of_empty he hstart hempty, hwindow]
      rfl

end Mining

theorem sums_batches_find_least_nonce_or_abort_between :
    Sums.draft.Encodable ∧ (0 : Int) ≤ 0 ∧ (Number.ofInt 2).toInt? = some 2 ∧ (1 : Int) ≤ 2 ∧
      IsLeast (Set.Ici 0 ∩ Mining.carrying Sums.draft Sums.hard) 2 ∧
      Mining.mine Sums.draft Sums.hard ⟨0, .ofInt 2, none, 2⟩ = .ok (some 2) ∧
      Mining.mine Sums.draft Sums.hard ⟨0, .ofInt 2, some 2, 0⟩ = .ok (some 2) ∧
      Mining.mine Sums.draft Sums.hard ⟨0, .ofInt 2, some 1, 0⟩ = .error (.miningAborted 2) := by
  have hsize : (Number.ofInt 2).toInt? = some 2 := by decide +kernel
  obtain ⟨_, hsome, _⟩ := Mining.batches_find_least_nonce_or_abort_between (d := Sums.hard)
    Sums.draft_encodable (Int.le_refl 0) hsize (by decide)
  obtain ⟨least, hleast, hunsignalled, hsignalled⟩ := hsome ⟨2, Sums.isLeast_draft.1⟩
  obtain rfl : least = 2 := hleast.unique Sums.isLeast_draft
  exact ⟨Sums.draft_encodable, Int.le_refl 0, hsize, by decide, Sums.isLeast_draft, hunsignalled 2,
    hsignalled 2 0, hsignalled 1 0⟩

end BlockTree
