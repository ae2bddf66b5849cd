import BlockTree.Block
import BlockTree.Proofs.Admission
import BlockTree.Proofs.SelfDelimiting

namespace BlockTree

namespace Hex

theorem digit?_digitChar : ∀ n < 16, digit? (Nat.digitChar n).toNat = some n := by
  decide

theorem charUnits_digitChar : ∀ n < 16,
    Text.charUnits (Nat.digitChar n) = [(Nat.digitChar n).toNat] := by
  decide

theorem byte_halves (x : UInt8) : x.toNat / 16 < 16 ∧ x.toNat % 16 < 16 ∧
    UInt8.ofNat (16 * (x.toNat / 16) + x.toNat % 16) = x := by
  have hlt := x.toNat_lt
  have hsum : 16 * (x.toNat / 16) + x.toNat % 16 = x.toNat := by omega
  rw [hsum]
  exact ⟨by omega, by omega, UInt8.ofNat_toNat⟩

theorem chars_cons (x : UInt8) (b : Bytes) : chars (x :: b) = byteChars x ++ chars b := rfl

theorem units_chars_cons (x : UInt8) (b : Bytes) :
    (chars (x :: b)).flatMap Text.charUnits =
      (Nat.digitChar (x.toNat / 16)).toNat :: (Nat.digitChar (x.toNat % 16)).toNat ::
        (chars b).flatMap Text.charUnits := by
  obtain ⟨hhigh, hlow, _⟩ := byte_halves x
  rw [chars_cons, byteChars, List.cons_append, List.cons_append, List.nil_append,
    List.flatMap_cons, List.flatMap_cons, charUnits_digitChar _ hhigh, charUnits_digitChar _ hlow]
  rfl

theorem decodePairs_chars (index : Nat) (b : Bytes) :
    decodePairs index ((chars b).flatMap Text.charUnits) = .ok b := by
  induction b generalizing index with
  | nil => rfl
  | cons x b ih =>
      obtain ⟨hhigh, hlow, hbyte⟩ := byte_halves x
      rw [units_chars_cons, decodePairs]
      simp only [digit?_digitChar _ hhigh, digit?_digitChar _ hlow, ih, hbyte, bind, Except.bind,
        pure, Except.pure]

theorem length_units_chars (b : Bytes) :
    ((chars b).flatMap Text.charUnits).length = 2 * b.length := by
  induction b with
  | nil => rfl
  | cons x b ih =>
      rw [units_chars_cons, List.length_cons, List.length_cons, ih, List.length_cons]
      omega

theorem decode_encode (b : Bytes) : decode (encode b) = .ok b := by
  have hunits : (Text.units (encode b)).drop 2 = (chars b).flatMap Text.charUnits := by
    have hmarker : Text.charUnits '0' = [48] ∧ Text.charUnits 'x' = [120] := by decide
    rw [Text.units, encode, String.toList_ofList, List.flatMap_cons, List.flatMap_cons, hmarker.1,
      hmarker.2]
    rfl
  have heven : ¬((chars b).flatMap Text.charUnits).length % 2 = 1 := by
    rw [length_units_chars]
    omega
  rw [decode, hunits, decodeUnits, if_neg heven, decodePairs_chars]

theorem encode_injective {a b : Bytes} (h : encode a = encode b) : a = b := by
  have ha := decode_encode a
  rw [h, decode_encode] at ha
  exact (Except.ok.inj ha).symm

theorem exists_digitChar_of_isLowerDigit {c : Char} (h : isLowerDigit c = true) :
    ∃ d, d < 16 ∧ Nat.digitChar d = c := by
  have hsmall : ∀ n < 103, isLowerDigit (Char.ofNat n) = true →
      ∃ d, d < 16 ∧ Nat.digitChar d = Char.ofNat n := by decide
  have hlt : c.toNat < 103 := by
    simp only [isLowerDigit, Bool.or_eq_true, Bool.and_eq_true, decide_eq_true_eq] at h
    rcases h with ⟨_, h⟩ | ⟨_, h⟩
    · have hle := UInt32.le_iff_toNat_le.1 (Char.le_def.1 h)
      exact Nat.lt_of_le_of_lt hle (by decide)
    · have hle := UInt32.le_iff_toNat_le.1 (Char.le_def.1 h)
      exact Nat.lt_of_le_of_lt hle (by decide)
  rw [← Char.ofNat_toNat c] at h ⊢
  exact hsmall _ hlt h

theorem exists_chars_eq {n : Nat} {cs : List Char} (hlen : cs.length = 2 * n)
    (h : cs.all isLowerDigit = true) : ∃ b, b.length = n ∧ chars b = cs := by
  induction n generalizing cs with
  | zero =>
      obtain rfl := List.length_eq_zero_iff.1 hlen
      exact ⟨[], rfl, rfl⟩
  | succ n ih =>
      match cs with
      | [] => simp at hlen
      | [c] =>
          simp only [List.length_singleton] at hlen
          omega
      | c :: d :: cs =>
          simp only [List.all_cons, Bool.and_eq_true] at h
          obtain ⟨hc, hd, hcs⟩ := h
          obtain ⟨x, hx, rfl⟩ := exists_digitChar_of_isLowerDigit hc
          obtain ⟨y, hy, rfl⟩ := exists_digitChar_of_isLowerDigit hd
          obtain ⟨b, hb, rfl⟩ := ih (by simp only [List.length_cons] at hlen; omega) hcs
          have hnat : (UInt8.ofNat (16 * x + y)).toNat = 16 * x + y := by
            rw [UInt8.toNat_ofNat']
            omega
          have hquot : (16 * x + y) / 16 = x := by omega
          have hrest : (16 * x + y) % 16 = y := by omega
          refine ⟨UInt8.ofNat (16 * x + y) :: b, by rw [List.length_cons, hb], ?_⟩
          rw [chars_cons, byteChars, hnat, hquot, hrest]
          rfl

theorem isDigest_iff (s : String) : isDigest s = true ↔ ∃ b, b.length = 32 ∧ s = encode b := by
  constructor
  · intro h
    unfold isDigest at h
    split at h
    · rename_i cs hcs
      simp only [Bool.and_eq_true, beq_iff_eq] at h
      obtain ⟨b, hb, rfl⟩ := exists_chars_eq (n := 32) h.1 h.2
      exact ⟨b, hb, by rw [encode, ← hcs, String.ofList_toList]⟩
    · simp at h
  · rintro ⟨b, hb, rfl⟩
    exact isDigest_encode hb

end Hex

namespace Header

structure Digests (h : Header) (parent bodyRoot stateRoot : Bytes) : Prop where
  parent_eq : h.parent = Hex.encode parent
  bodyRoot_eq : h.extrinsicsRoot = Hex.encode bodyRoot
  stateRoot_eq : h.stateRoot = Hex.encode stateRoot
  height_nonneg : 0 ≤ h.height
  nonce_nonneg : 0 ≤ h.nonce

theorem wellFormed_iff {h : Header} :
    h.malformedField? = none ↔ (Hex.isDigest h.parent = true ∧ 0 ≤ h.height) ∧
      Hex.isDigest h.extrinsicsRoot = true ∧ Hex.isDigest h.stateRoot = true ∧ 0 ≤ h.nonce := by
  rw [malformedField?_eq_none_iff]
  constructor
  · intro hfields
    exact ⟨⟨hfields .parent, of_decide_eq_true (hfields .height)⟩, hfields .extrinsicsRoot,
      hfields .stateRoot, of_decide_eq_true (hfields .nonce)⟩
  · rintro ⟨⟨hparent, hheight⟩, hbody, hstate, hnonce⟩ f
    cases f with
    | parent => exact hparent
    | height => exact decide_eq_true hheight
    | extrinsicsRoot => exact hbody
    | stateRoot => exact hstate
    | nonce => exact decide_eq_true hnonce

theorem exists_digests {h : Header} (hshape : h.malformedField? = none) :
    ∃ parent bodyRoot stateRoot, h.Digests parent bodyRoot stateRoot := by
  obtain ⟨⟨hparent, hheight⟩, hbody, hstate, hnonce⟩ := wellFormed_iff.1 hshape
  obtain ⟨parent, _, hparent⟩ := (Hex.isDigest_iff _).1 hparent
  obtain ⟨bodyRoot, _, hbody⟩ := (Hex.isDigest_iff _).1 hbody
  obtain ⟨stateRoot, _, hstate⟩ := (Hex.isDigest_iff _).1 hstate
  exact ⟨parent, bodyRoot, stateRoot, hparent, hbody, hstate, hheight, hnonce⟩

theorem Digests.item_eq {h : Header} {parent bodyRoot stateRoot : Bytes}
    (hd : h.Digests parent bodyRoot stateRoot) :
    h.item = .ok (.list [.bytes parent, .natural h.height.toNat, .bytes bodyRoot,
      .bytes stateRoot, .natural h.nonce.toNat]) := by
  have hheight := Int.not_lt.2 hd.height_nonneg
  have hnonce := Int.not_lt.2 hd.nonce_nonneg
  simp only [item, hd.parent_eq, hd.bodyRoot_eq, hd.stateRoot_eq, Hex.decode_encode,
    Rlp.Item.ofInt, if_neg hheight, if_neg hnonce, bind, Except.bind, pure, Except.pure]

theorem exists_encode_eq_ok {h : Header} (hshape : h.malformedField? = none) :
    ∃ b, h.encode = .ok b := by
  obtain ⟨_, _, _, hd⟩ := exists_digests hshape
  rw [encode, hd.item_eq]
  exact ⟨_, rfl⟩

theorem exists_id_eq_ok {h : Header} (hshape : h.malformedField? = none) :
    ∃ id, h.id = .ok id := by
  obtain ⟨b, hb⟩ := exists_encode_eq_ok hshape
  exact ⟨_, id_eq_ok_iff.2 ⟨b, hb, rfl⟩⟩

theorem Digests.eq_of_item_eq {h k : Header} {parent bodyRoot stateRoot : Bytes}
    {parent' bodyRoot' stateRoot' : Bytes} (hd : h.Digests parent bodyRoot stateRoot)
    (kd : k.Digests parent' bodyRoot' stateRoot') (heq : h.item = k.item) : h = k := by
  rw [hd.item_eq, kd.item_eq] at heq
  simp only [Except.ok.injEq, Rlp.Item.list.injEq, List.cons.injEq, Rlp.Item.bytes.injEq,
    Rlp.Item.natural, and_true] at heq
  obtain ⟨hparent, hheight, hbody, hstate, hnonce⟩ := heq
  have hparent' : h.parent = k.parent := by rw [hd.parent_eq, hparent, kd.parent_eq]
  have hbody' : h.extrinsicsRoot = k.extrinsicsRoot := by
    rw [hd.bodyRoot_eq, hbody, kd.bodyRoot_eq]
  have hstate' : h.stateRoot = k.stateRoot := by rw [hd.stateRoot_eq, hstate, kd.stateRoot_eq]
  have hheight' : h.height = k.height := by
    rw [← Int.toNat_of_nonneg hd.height_nonneg, Bytes.ofNat_injective hheight,
      Int.toNat_of_nonneg kd.height_nonneg]
  have hnonce' : h.nonce = k.nonce := by
    rw [← Int.toNat_of_nonneg hd.nonce_nonneg, Bytes.ofNat_injective hnonce,
      Int.toNat_of_nonneg kd.nonce_nonneg]
  obtain ⟨⟨p, n, b, s⟩, nonce⟩ := h
  obtain ⟨⟨p', n', b', s'⟩, nonce'⟩ := k
  cases hparent'
  cases hheight'
  cases hbody'
  cases hstate'
  cases hnonce'
  rfl

theorem eq_of_encode_eq {h k : Header} {b : Bytes} (hshape : h.malformedField? = none)
    (kshape : k.malformedField? = none) (hb : h.encode = .ok b) (kb : k.encode = .ok b)
    (hlen : b.length < Rlp.limit) : h = k := by
  obtain ⟨_, _, _, hd⟩ := exists_digests hshape
  obtain ⟨_, _, _, kd⟩ := exists_digests kshape
  refine hd.eq_of_item_eq kd ?_
  rw [encode, hd.item_eq] at hb
  rw [encode, kd.item_eq] at kb
  have hb' := Except.ok.inj hb
  have kb' := Except.ok.inj kb
  rw [hd.item_eq, kd.item_eq]
  refine congrArg Except.ok (Rlp.encode_injective ?_ (hb'.trans kb'.symm))
  rw [hb']
  exact hlen

theorem isDigest_of_id {h : Header} {id : String} (hid : h.id = .ok id) :
    Hex.isDigest id = true := by
  obtain ⟨b, _, rfl⟩ := id_eq_ok_iff.1 hid
  exact Hex.isDigest_encode (length_keccak256 b)

end Header

namespace Machine

variable {S T E : Type}

theorem isDigest_of_bodyRoot {m : Machine S T E} {body : List T} {root : String}
    (h : m.bodyRoot body = .ok root) : Hex.isDigest root = true := by
  obtain ⟨_, _, h⟩ := bind_eq_ok_iff.1 h
  cases h
  exact Hex.isDigest_encode (length_keccak256 _)

theorem isDigest_of_stateRoot {m : Machine S T E} {s : S} {root : String}
    (h : m.stateRoot s = .ok root) : Hex.isDigest root = true := by
  obtain ⟨b, _, rfl⟩ := stateRoot_eq_ok_iff.1 h
  exact Hex.isDigest_encode (length_keccak256 b)

theorem wellFormed_genesisBlock {m : Machine S T E} {s : S} {b : Block T}
    (h : m.genesisBlock s = .ok b) : b.header.malformedField? = none := by
  obtain ⟨bodyRoot, stateRoot, hbody, hstate, rfl⟩ := genesisBlock_eq_ok_iff.1 h
  exact Header.wellFormed_iff.2 ⟨⟨Hex.isDigest_encode List.length_replicate, Int.le_refl 0⟩,
    isDigest_of_bodyRoot hbody, isDigest_of_stateRoot hstate, Int.le_refl 0⟩

end Machine

end BlockTree
