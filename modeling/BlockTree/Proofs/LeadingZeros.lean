import BlockTree.Proofs.LeastNonce
import BlockTree.Proofs.Tallest

namespace BlockTree

namespace Bytes

def byteBits (x : UInt8) : List Bool :=
  [7, 6, 5, 4, 3, 2, 1, 0].map x.toNat.testBit

def bits (b : Bytes) : List Bool :=
  b.flatMap byteBits

def ofBits : List Bool → Nat
  | [] => 0
  | bit :: l => bit.toNat * Nat.pow 2 l.length + ofBits l

theorem bits_cons (x : UInt8) (b : Bytes) : bits (x :: b) = byteBits x ++ bits b :=
  List.flatMap_cons

theorem length_bits (b : Bytes) : (bits b).length = 8 * b.length := by
  induction b with
  | nil => rfl
  | cons x b ih =>
      rw [bits_cons, List.length_append, ih, List.length_cons, Nat.mul_succ, Nat.add_comm]
      rfl

theorem ofBits_append (l r : List Bool) :
    ofBits (l ++ r) = ofBits l * Nat.pow 2 r.length + ofBits r := by
  induction l with
  | nil => rw [List.nil_append, ofBits, Nat.zero_mul, Nat.zero_add]
  | cons bit l ih =>
      have hpow : Nat.pow 2 (l ++ r).length = Nat.pow 2 l.length * Nat.pow 2 r.length := by
        rw [List.length_append]
        exact Nat.pow_add 2 _ _
      rw [List.cons_append, ofBits, ih, hpow, ofBits, Nat.add_mul, Nat.mul_assoc, Nat.add_assoc]

theorem ofBits_lt (l : List Bool) : ofBits l < Nat.pow 2 l.length := by
  induction l with
  | nil => exact Nat.one_pos
  | cons bit l ih =>
      have hpow : Nat.pow 2 (bit :: l).length = Nat.pow 2 l.length * 2 := rfl
      have hbit := Nat.mul_le_mul_right (Nat.pow 2 l.length) (Bool.toNat_le bit)
      rw [ofBits, hpow]
      omega

theorem ofBits_eq_zero_iff {l : List Bool} : ofBits l = 0 ↔ l = List.replicate l.length false := by
  induction l with
  | nil => exact ⟨fun _ => rfl, fun _ => rfl⟩
  | cons bit l ih =>
      rw [ofBits, Nat.add_eq_zero_iff, ih, List.length_cons, List.replicate_succ, List.cons.injEq]
      cases bit <;> simp

theorem ofBits_lt_iff {l : List Bool} {n : Nat} (hn : n ≤ l.length) :
    ofBits l < Nat.pow 2 (l.length - n) ↔ l.take n = List.replicate n false := by
  have hsplit := ofBits_append (l.take n) (l.drop n)
  have hlow := ofBits_lt (l.drop n)
  have hzero := ofBits_eq_zero_iff (l := l.take n)
  rw [List.take_append_drop, List.length_drop] at hsplit
  rw [List.length_drop] at hlow
  rw [List.length_take, Nat.min_eq_left hn] at hzero
  rw [← hzero, hsplit]
  constructor
  · intro hlt
    by_contra hne
    have hhigh := Nat.le_mul_of_pos_left (Nat.pow 2 (l.length - n)) (Nat.pos_of_ne_zero hne)
    omega
  · intro h
    rw [h, Nat.zero_mul, Nat.zero_add]
    exact hlow

theorem ofBits_byteBits (x : UInt8) : ofBits (byteBits x) = x.toNat := by
  have hall : ∀ n < 256, ofBits ([7, 6, 5, 4, 3, 2, 1, 0].map n.testBit) = n := by decide +kernel
  exact hall x.toNat x.toNat_lt

theorem foldl_eq_ofBits (b : Bytes) (n : Nat) :
    b.foldl (fun n x => n * 256 + x.toNat) n = n * Nat.pow 2 (bits b).length + ofBits (bits b) := by
  induction b generalizing n with
  | nil => exact (Nat.mul_one n).symm
  | cons x b ih =>
      have hpow : Nat.pow 2 (bits (x :: b)).length = 256 * Nat.pow 2 (bits b).length := by
        rw [bits_cons, List.length_append]
        exact Nat.pow_add 2 8 _
      rw [List.foldl_cons, ih, hpow, bits_cons, ofBits_append, ofBits_byteBits, Nat.add_mul,
        Nat.mul_assoc, Nat.add_assoc]

theorem ofBits_bits (b : Bytes) : ofBits (bits b) = toNat b := by
  rw [toNat, foldl_eq_ofBits, Nat.zero_mul, Nat.zero_add]

end Bytes

namespace Hex

theorem foldl_chars (b : Bytes) (n : Nat) :
    (chars b).foldl (fun n c => n * 16 + (digit? c.toNat).getD 0) n =
      b.foldl (fun n x => n * 256 + x.toNat) n := by
  induction b generalizing n with
  | nil => rfl
  | cons x b ih =>
      obtain ⟨hhigh, hlow, _⟩ := byte_halves x
      have hbyte : (n * 16 + x.toNat / 16) * 16 + x.toNat % 16 = n * 256 + x.toNat := by omega
      rw [chars_cons, List.foldl_append, ih, byteChars, List.foldl_cons, List.foldl_cons,
        List.foldl_nil, digit?_digitChar _ hhigh, digit?_digitChar _ hlow, Option.getD_some,
        Option.getD_some, hbyte, List.foldl_cons]

theorem toNat_encode (b : Bytes) : toNat (encode b) = Bytes.toNat b := by
  unfold toNat encode
  rw [String.toList_ofList]
  exact foldl_chars b 0

end Hex

namespace Difficulty

theorem le_threshold_iff {d : Difficulty} {n : Nat} :
    n ≤ d.threshold ↔ n < Nat.pow 2 (256 - d.bits) := by
  have hpos : 0 < Nat.pow 2 (256 - d.bits) := Nat.pow_pos (by decide)
  unfold threshold
  omega

theorem threshold_anti {d easier : Difficulty} (h : easier.bits ≤ d.bits) :
    d.threshold ≤ easier.threshold :=
  Nat.sub_le_sub_right (Nat.pow_le_pow_right (by decide) (Nat.sub_le_sub_left h 256)) 1

theorem work_pos (d : Difficulty) : 0 < d.work :=
  Nat.pow_pos (by decide)

theorem toNat_le_threshold_iff (d : Difficulty) {digest : Bytes} (hlen : digest.length = 32) :
    Bytes.toNat digest ≤ d.threshold ↔
      (Bytes.bits digest).take d.bits = List.replicate d.bits false := by
  have hbits : (Bytes.bits digest).length = 256 := by rw [Bytes.length_bits, hlen]
  have hn : d.bits ≤ (Bytes.bits digest).length := by
    rw [hbits]
    exact Nat.le_trans d.le_max (by decide)
  rw [le_threshold_iff, ← Bytes.ofBits_bits, ← Bytes.ofBits_lt_iff hn, hbits]

end Difficulty

namespace Preference

variable {d : Difficulty} {id : String}

theorem work_le_achieved_iff :
    (d.work : Int) ≤ achievedWork.weight id d ↔ Hex.toNat id ≤ d.threshold := by
  refine ⟨fun h => ?_, fun h => work_le_achieved h⟩
  have hdiv : d.work ≤ Nat.pow 2 256 / (Hex.toNat id + 1) := Int.ofNat_le.1 h
  rw [Nat.le_div_iff_mul_le (Nat.succ_pos _), ← d.threshold_add_one_mul_work, Nat.mul_comm] at hdiv
  exact Nat.le_of_succ_le_succ (Nat.le_of_mul_le_mul_right hdiv d.work_pos)

end Preference

theorem difficulty_views_coincide {h : Header} (hshape : h.malformedField? = none)
    (d : Difficulty) :
    ∃ bytes id, h.encode = .ok bytes ∧ h.id = .ok id ∧ (keccak256 bytes).length = 32 ∧
      Hex.toNat id = Bytes.toNat (keccak256 bytes) ∧
      Preference.achievedWork.rule.weight id h d = (Nat.pow 2 256 / (Hex.toNat id + 1) : Nat) ∧
      (h.checkDigest d = .ok (.ok ()) ↔
        (Bytes.bits (keccak256 bytes)).take d.bits = List.replicate d.bits false) ∧
      (h.checkDigest d = .ok (.ok ()) ↔
        (d.work : Int) ≤ Preference.achievedWork.rule.weight id h d) ∧
      (h.checkDigest d = .ok (.ok ()) →
        (∀ easier : Difficulty, easier.bits ≤ d.bits → h.checkDigest easier = .ok (.ok ())) ∧
        1 ≤ Preference.achievedWork.rule.weight id h d) := by
  obtain ⟨bytes, hbytes⟩ := Header.exists_encode_eq_ok hshape
  have hid : h.id = .ok (Hex.encode (keccak256 bytes)) :=
    Header.id_eq_ok_iff.2 ⟨bytes, hbytes, rfl⟩
  have hlen := length_keccak256 bytes
  have hnat := Hex.toNat_encode (keccak256 bytes)
  have hcheck : ∀ e : Difficulty, h.checkDigest e = .ok (.ok ()) ↔
      Hex.toNat (Hex.encode (keccak256 bytes)) ≤ e.threshold := by
    intro e
    rw [Header.checkDigest_eq_ok_iff_le, hid]
    simp only [Except.ok.injEq, exists_eq_left']
  have hwork : h.checkDigest d = .ok (.ok ()) ↔
      (d.work : Int) ≤ Preference.achievedWork.rule.weight (Hex.encode (keccak256 bytes)) h d :=
    (hcheck d).trans Preference.work_le_achieved_iff.symm
  refine ⟨bytes, _, hbytes, hid, hlen, hnat, rfl, ?_, hwork,
    fun hvalid => ⟨fun easier heasier => ?_, ?_⟩⟩
  · rw [hcheck, hnat, d.toNat_le_threshold_iff hlen]
  · exact (hcheck easier).2 (Nat.le_trans ((hcheck d).1 hvalid) (Difficulty.threshold_anti heasier))
  · have hpos := d.work_pos
    have hle := hwork.1 hvalid
    omega

theorem sums_difficulty_views_coincide :
    (Sums.draft.sealWith 2).malformedField? = none ∧
      ∃ bytes id, (Sums.draft.sealWith 2).encode = .ok bytes ∧
        (Sums.draft.sealWith 2).id = .ok id ∧
        (Bytes.bits (keccak256 bytes)).take 11 = List.replicate 11 false ∧
        2048 ≤ Preference.achievedWork.rule.weight id (Sums.draft.sealWith 2) Sums.hard ∧
        (Sums.draft.sealWith 2).checkDigest ⟨5, by decide⟩ = .ok (.ok ()) := by
  have hshape : (Sums.draft.sealWith 2).malformedField? = none := by decide +kernel
  obtain ⟨bytes, id, hbytes, hid, _, _, _, hzeros, hwork, hvalid⟩ :=
    difficulty_views_coincide hshape Sums.hard
  have hcarries : (Sums.draft.sealWith 2).checkDigest Sums.hard = .ok (.ok ()) :=
    Sums.isLeast_draft.1.2
  exact ⟨hshape, bytes, id, hbytes, hid, hzeros.1 hcarries, hwork.1 hcarries,
    (hvalid hcarries).1 _ (by decide)⟩

end BlockTree
