import BlockTree.Proofs.MachineEncoding
import BlockTree.Proofs.Mining
import BlockTree.Proofs.Rearrangement
import BlockTree.Proofs.Replay

namespace BlockTree

variable {S T E : Type}

namespace Header

theorem encode_eq_iff {h k : Header} (hshape : h.malformedField? = none)
    (kshape : k.malformedField? = none) {b : Bytes} (hb : h.encode = .ok b)
    (hlen : b.length < Rlp.limit) : k.encode = .ok b ↔ h = k := by
  constructor
  · exact fun kb => eq_of_encode_eq hshape kshape hb kb hlen
  · rintro rfl
    exact hb

end Header

theorem UnsealedHeader.sealWith_inj {h : UnsealedHeader} {m n : Int} :
    h.sealWith m = h.sealWith n ↔ m = n := by
  simp [sealWith]

namespace Machine

variable {m : Machine S T E} {parent : Header} {s : S} {body : List T} {draft : Draft S T}

theorem draftOn_eq_ok_iff : m.draftOn parent s body = .ok (.ok draft) ↔
    ∃ post id bodyRoot stateRoot, m.run s body = .ok post ∧ parent.id = .ok id ∧
      m.bodyRoot body = .ok bodyRoot ∧ m.stateRoot post = .ok stateRoot ∧
      ⟨⟨id, parent.height + 1, bodyRoot, stateRoot⟩, body, post⟩ = draft := by
  unfold draftOn
  constructor
  · intro h
    split at h
    · cases h
    rename_i post hrun
    obtain ⟨id, hid, h⟩ := bind_eq_ok_iff.1 h
    obtain ⟨bodyRoot, hbody, h⟩ := bind_eq_ok_iff.1 h
    obtain ⟨stateRoot, hstate, h⟩ := bind_eq_ok_iff.1 h
    exact ⟨post, id, bodyRoot, stateRoot, hrun, hid, hbody, hstate, Except.ok.inj (Except.ok.inj h)⟩
  · rintro ⟨post, id, bodyRoot, stateRoot, hrun, hid, hbody, hstate, rfl⟩
    simp only [hrun, hid, hbody, hstate, bind, Except.bind, pure, Except.pure]

theorem wellFormed_sealed_iff (h : m.draftOn parent s body = .ok (.ok draft)) (nonce : Int) :
    (draft.sealWith nonce).header.malformedField? = none ↔ 0 ≤ nonce := by
  obtain ⟨_, _, _, _, _, hid, hbody, hstate, rfl⟩ := draftOn_eq_ok_iff.1 h
  rw [Header.wellFormed_iff]
  constructor
  · exact fun hshape => hshape.2.2.2
  · intro hnonce
    -- a header of negative height has no identifier
    have hheight := (Header.nonneg_of_id hid).1
    exact ⟨⟨Header.isDigest_of_id hid, Int.le_add_one hheight⟩, isDigest_of_bodyRoot hbody,
      isDigest_of_stateRoot hstate, hnonce⟩

end Machine

theorem header_encoding_total_and_injective :
    (∀ h : Header, h.malformedField? = none → ∃ b, h.encode = .ok b) ∧
    (∀ h k : Header, h.malformedField? = none → k.malformedField? = none →
      ∀ b, h.encode = .ok b → b.length < Rlp.limit → (k.encode = .ok b ↔ h = k)) ∧
    (∀ (h : UnsealedHeader) (m n : Int), (h.sealWith m).malformedField? = none →
      (h.sealWith n).malformedField? = none →
      ∀ b, (h.sealWith m).encode = .ok b → b.length < Rlp.limit →
        ((h.sealWith n).encode = .ok b ↔ m = n)) ∧
    (∀ {S T E : Type} (m : Machine S T E) (s : S) (b : Block T), m.genesisBlock s = .ok b →
      b.header.malformedField? = none) ∧
    ∀ {S T E : Type} (m : Machine S T E) (parent : Header) (s : S) (body : List T)
      (draft : Draft S T), m.draftOn parent s body = .ok (.ok draft) →
      ∀ nonce, (draft.sealWith nonce).header.malformedField? = none ↔ 0 ≤ nonce := by
  refine ⟨fun _ => Header.exists_encode_eq_ok, ?_, ?_, ?_, ?_⟩
  · intro h k hshape kshape b hb hlen
    exact Header.encode_eq_iff hshape kshape hb hlen
  · intro h m n mshape nshape b hb hlen
    rw [Header.encode_eq_iff mshape nshape hb hlen]
    exact UnsealedHeader.sealWith_inj
  · intro S T E m s b hb
    exact Machine.wellFormed_genesisBlock hb
  · intro S T E m parent s body draft h
    exact Machine.wellFormed_sealed_iff h

theorem Rlp.exists_short {code : Except Fault Bytes}
    (h : (code.toOption.map fun b => decide (b.length < limit)) = some true) :
    ∃ b, code = .ok b ∧ b.length < limit := by
  obtain ⟨b, hb, hlen⟩ := Option.map_eq_some_iff.1 h
  exact ⟨b, eq_ok_of_toOption hb, of_decide_eq_true hlen⟩

namespace Sums

theorem opening_encoding_short : ∃ b, opening.header.encode = .ok b ∧ b.length < Rlp.limit :=
  Rlp.exists_short (by decide +kernel)

theorem second_drafted : SumProduct.machine.draftOn opening.header ⟨3, 3⟩ second.body =
    .ok (.ok ⟨second.header.toUnsealedHeader, second.body, ⟨8, 15⟩⟩) :=
  Machine.draftOn_eq_ok_iff.2 ⟨_, _, _, _, second_accepted.run, ids.1, second_accepted.bodyRoot,
    second_accepted.stateRoot, rfl⟩

end Sums

theorem sums_header_encoding_total_and_injective :
    ∃ b, Sums.opening.header.encode = .ok b ∧ b.length < Rlp.limit ∧
      Sums.second.header.encode ≠ .ok b ∧ (Sums.opening.header.sealWith 1).encode ≠ .ok b ∧
      (∃ first, SumProduct.machine.genesisBlock ⟨0, 1⟩ = .ok first ∧
        first.header.malformedField? = none) ∧
      ∃ draft, SumProduct.machine.draftOn Sums.opening.header ⟨3, 3⟩ [5] = .ok (.ok draft) ∧
        (draft.sealWith 7).header.malformedField? = none := by
  obtain ⟨htotal, hinjective, hnonces, hfirst, hdrafts⟩ := header_encoding_total_and_injective
  have hshape := Sums.opening_accepted.wellFormed
  obtain ⟨b, hb, hlen⟩ := Sums.opening_encoding_short
  refine ⟨b, hb, hlen, ?_, ?_, ?_, _, Sums.second_drafted, ?_⟩
  · intro h
    have heq := (hinjective _ _ hshape Sums.second_accepted.wellFormed b hb hlen).1 h
    exact absurd (congrArg (fun h => h.height) heq) (by decide)
  · intro h
    have heq := (hnonces Sums.opening.header.toUnsealedHeader 0 1 hshape (by decide) b hb hlen).1 h
    exact absurd heq (by decide)
  · obtain ⟨first, hfound⟩ := Sums.found_first
    obtain ⟨b, _, hb, _⟩ := Tree.found_eq_ok_iff.1 hfound
    exact ⟨b, hb, hfirst _ _ _ hb⟩
  · exact (hdrafts _ _ _ _ _ Sums.second_drafted 7).2 (by decide)

namespace Currency

end Currency

namespace Genesis.Kind

variable {k : Kind} {s t : k.State} {x y : k.Extrinsic} {a b : Bytes}

end Genesis.Kind

namespace Shelf

end Shelf

end BlockTree
