import BlockTree.Proofs.SubChain

namespace BlockTree

variable {S T E : Type}

def SubChainFailure.raise (n : Nat) (failure : SubChainFailure E) : SubChainFailure E :=
  { failure with index := failure.index + n }

namespace Validity

variable {v : Validity S T E} {a b : Block T} {s post : S} {p q : ParentContext S}
  {xs ys : List (Block T)} {index : Int} {failure : SubChainFailure E}

theorem anchors_or_refused (v : Validity S T E) (a : Block T) (s : S) :
    (∃ p, v.Anchors a p ∧ p.state = s) ∨
      ∃ answer, (∀ post, answer ≠ .ok (.ok post)) ∧ ∀ xs, v.verifySubChain a s xs = answer := by
  unfold verifySubChain
  cases hroot : v.machine.stateRoot s with
  | error fault => exact .inr ⟨.error fault, by simp, fun _ => rfl⟩
  | ok root =>
      by_cases hsame : root = a.header.stateRoot
      · cases hid : a.header.id with
        | error fault =>
            refine .inr ⟨.error fault, by simp, ?_⟩
            intro xs
            simp [hsame, bind, Except.bind]
        | ok id => exact .inl ⟨⟨id, a.header.height, s⟩, ⟨hid, rfl, hsame ▸ hroot⟩, rfl⟩
      · refine .inr ⟨.ok (.error ⟨-1, .stateRootMismatch a.header.stateRoot root⟩), by simp, ?_⟩
        intro xs
        simp [hsame, bind, Except.bind, pure, Except.pure]

theorem verifyFrom_append_of_stop {answer : Except Fault (Except (SubChainFailure E) S)}
    (hno : ∀ post, answer ≠ .ok (.ok post)) (h : v.verifyFrom index p xs = answer)
    (ys : List (Block T)) : v.verifyFrom index p (xs ++ ys) = answer := by
  have hverified := v.verified_verifyFrom index p xs
  rw [h] at hverified
  cases hverified with
  | passed _ => exact absurd rfl (hno _)
  | failed hxs hextends hb =>
      rw [hxs, List.append_assoc, hextends.verifyFrom_append, List.cons_append, verifyFrom, hb]
      rfl
  | faulted hxs hextends hb =>
      rw [hxs, List.append_assoc, hextends.verifyFrom_append, List.cons_append, verifyFrom, hb]
      rfl

theorem verifyFrom_add (v : Validity S T E) (index : Int) (n : Nat) (p : ParentContext S)
    (xs : List (Block T)) :
    v.verifyFrom (index + n) p xs = (v.verifyFrom index p xs).map (·.mapError (·.raise n)) := by
  induction xs generalizing index p with
  | nil => rfl
  | cons b xs ih =>
      have hindex : index + n + 1 = index + 1 + n := by omega
      rw [verifyFrom, verifyFrom]
      cases v.check (some p) b with
      | error fault => rfl
      | ok verdict =>
          cases verdict with
          | error reason => rfl
          | ok post =>
              cases hid : b.header.id with
              | error fault => rfl
              | ok id =>
                  simp only [bind, Except.bind, hindex]
                  exact ih (index + 1) ⟨id, b.header.height, post⟩

theorem le_index_of_verifyFrom (h : v.verifyFrom index p xs = .ok (.error failure)) :
    index ≤ failure.index := by
  have hverified := v.verified_verifyFrom index p xs
  rw [h] at hverified
  cases hverified with
  | failed _ _ _ => exact Int.le_add_of_nonneg_right (Int.natCast_nonneg _)

theorem verifySubChain_append_of_stop {answer : Except Fault (Except (SubChainFailure E) S)}
    (hno : ∀ post, answer ≠ .ok (.ok post)) (h : v.verifySubChain a s xs = answer)
    (ys : List (Block T)) : v.verifySubChain a s (xs ++ ys) = answer := by
  rcases v.anchors_or_refused a s with ⟨p, ha, rfl⟩ | ⟨_, _, hall⟩
  · rw [ha.verifySubChain_eq] at h ⊢
    exact verifyFrom_append_of_stop hno h ys
  · rw [hall, ← h, hall]

theorem verifySubChain_eq_ok_iff :
    v.verifySubChain a s xs = .ok (.ok post) ↔
      ∃ p q, v.Anchors a p ∧ p.state = s ∧ v.Extends p xs q ∧ q.state = post := by
  constructor
  · intro h
    rcases v.anchors_or_refused a s with ⟨p, ha, rfl⟩ | ⟨_, hno, hall⟩
    · have hverified := v.verified_verifyFrom 0 p xs
      rw [← ha.verifySubChain_eq, h] at hverified
      cases hverified with
      | passed hextends => exact ⟨p, _, ha, rfl, hextends, rfl⟩
    · exact absurd ((hall xs).symm.trans h) (hno post)
  · rintro ⟨p, q, ha, rfl, hextends, rfl⟩
    exact (ha.verifySubChain_eq xs).trans (hextends.verifyFrom_eq 0)

end Validity

theorem sub_chain_verification_splits (v : Validity S T E) (anchor : Block T) (s : S)
    (xs ys : List (Block T)) :
    (∀ fault, v.verifySubChain anchor s xs = .error fault →
      v.verifySubChain anchor s (xs ++ ys) = .error fault) ∧
    (∀ failure, v.verifySubChain anchor s xs = .ok (.error failure) →
      v.verifySubChain anchor s (xs ++ ys) = .ok (.error failure)) ∧
    ∀ mid, v.verifySubChain anchor s xs = .ok (.ok mid) →
      v.verifySubChain anchor s (xs ++ ys) =
        (v.verifySubChain (xs.getLastD anchor) mid ys).map (·.mapError (·.raise xs.length)) ∧
      ∀ failure, v.verifySubChain (xs.getLastD anchor) mid ys = .ok (.error failure) →
        failure.index ≠ -1 := by
  refine ⟨?_, ?_, ?_⟩
  · intro fault h
    exact Validity.verifySubChain_append_of_stop (by simp) h ys
  · intro failure h
    exact Validity.verifySubChain_append_of_stop (by simp) h ys
  · intro mid h
    obtain ⟨p, q, ha, rfl, hextends, rfl⟩ := Validity.verifySubChain_eq_ok_iff.1 h
    have hlast := hextends.anchors ha
    rw [ha.verifySubChain_eq, hlast.verifySubChain_eq, hextends.verifyFrom_append, v.verifyFrom_add]
    refine ⟨rfl, fun failure hfailure => ?_⟩
    have hindex := Validity.le_index_of_verifyFrom hfailure
    omega

namespace Sums

theorem exists_anchor :
    ∃ g, settings.toValidity.Anchors g ⟨genesisId, 0, ⟨0, 1⟩⟩ := by
  obtain ⟨_, hfound⟩ := found_first
  obtain ⟨g, id, hg, hid, hfirst⟩ := Tree.found_eq_ok_iff.1 hfound
  obtain rfl : id = genesisId := congrArg Tree.genesisId hfirst
  obtain ⟨bodyRoot, stateRoot, _, hroot, rfl⟩ := Machine.genesisBlock_eq_ok_iff.1 hg
  exact ⟨_, hid, rfl, hroot⟩

theorem opening_anchors : settings.toValidity.Anchors opening ⟨openingId, 1, ⟨3, 3⟩⟩ :=
  opening_accepted.anchors ids.1

theorem verify_opening_again : settings.verifySubChain opening ⟨3, 3⟩ [second, opening] =
    .ok (.error ⟨1, .unknownParent genesisId⟩) := by
  have hsecond : settings.toValidity.Extends ⟨openingId, 1, ⟨3, 3⟩⟩ [second]
      ⟨secondId, 2, ⟨8, 15⟩⟩ := .cons second_accepted ids.2 (.nil _)
  have hne : secondId ≠ opening.header.parent := by decide
  refine (opening_anchors.verifySubChain_eq _).trans ?_
  refine (hsecond.verifyFrom_append 0 [opening]).trans ?_
  simp only [Validity.verifyFrom, Validity.check, opening_accepted.wellFormed, hne, ne_eq,
    not_false_eq_true, if_true]
  rfl

end Sums

theorem sums_sub_chain_verification_splits :
    ∃ g, Sums.settings.verifySubChain g ⟨0, 1⟩ [Sums.opening] = .ok (.ok ⟨3, 3⟩) ∧
      Sums.settings.verifySubChain Sums.opening ⟨3, 3⟩ [Sums.second, Sums.opening] =
        .ok (.error ⟨1, .unknownParent Sums.genesisId⟩) ∧
      Sums.settings.verifySubChain g ⟨0, 1⟩ ([Sums.opening] ++ [Sums.second, Sums.opening]) =
        .ok (.error ⟨2, .unknownParent Sums.genesisId⟩) := by
  obtain ⟨g, ha⟩ := Sums.exists_anchor
  have hpassed := (ha.verifySubChain_eq [Sums.opening]).trans
    (Validity.Extends.verifyFrom_eq (.cons Sums.opening_accepted Sums.ids.1 (.nil _)) 0)
  obtain ⟨_, _, hsplit⟩ := sub_chain_verification_splits Sums.settings.toValidity g ⟨0, 1⟩
    [Sums.opening] [Sums.second, Sums.opening]
  obtain ⟨hwhole, _⟩ := hsplit _ hpassed
  refine ⟨g, hpassed, Sums.verify_opening_again, hwhole.trans ?_⟩
  exact congrArg (Except.map _) Sums.verify_opening_again

end BlockTree
