import BlockTree.Rlp

namespace BlockTree

namespace Bytes

theorem length_ofNat_le {n k : Nat} (h : n < Nat.pow 256 k) : (ofNat n).length ≤ k := by
  induction k generalizing n with
  | zero =>
      obtain rfl : n = 0 := Nat.lt_one_iff.1 h
      simp
  | succ k ih =>
      by_cases hn : n = 0
      · subst hn
        simp
      · have hquot : n / 256 < Nat.pow 256 k := Nat.div_lt_of_lt_mul (Nat.mul_comm .. ▸ h)
        have hle := ih hquot
        rw [ofNat_pos hn, List.length_append, List.length_singleton]
        omega

theorem length_ofNat_pos {n : Nat} (h : n ≠ 0) : 0 < (ofNat n).length := by
  rw [ofNat_pos h, List.length_append, List.length_singleton]
  omega

theorem length_ofNat_mono {m n : Nat} (h : m ≤ n) : (ofNat m).length ≤ (ofNat n).length := by
  induction n using Nat.strongRecOn generalizing m with
  | ind n ih =>
      by_cases hm : m = 0
      · subst hm
        simp
      · have hn : n ≠ 0 := by omega
        have hquot := ih (n / 256) (by omega) (Nat.div_le_div_right (c := 256) h)
        rw [ofNat_pos hm, ofNat_pos hn, List.length_append, List.length_append]
        exact Nat.add_le_add_right hquot _

theorem eq_of_ofNat_eq {m n : Nat} (hm : m < 256) (hn : n < 256)
    (h : UInt8.ofNat m = UInt8.ofNat n) : m = n := by
  have hnat := congrArg UInt8.toNat h
  rwa [UInt8.toNat_ofNat', UInt8.toNat_ofNat', Nat.mod_eq_of_lt hm, Nat.mod_eq_of_lt hn] at hnat

end Bytes

namespace Rlp

def limit : Nat := 18446744073709551616

theorem length_size_le {n : Nat} (h : n < limit) : (Bytes.ofNat n).length ≤ 8 :=
  Bytes.length_ofNat_le h

theorem announce_short {offset n : Nat} (h : n < 56) :
    announce offset n = [UInt8.ofNat (offset + n)] := by
  rw [announce, if_pos h]

theorem announce_long {offset n : Nat} (h : ¬n < 56) :
    announce offset n =
      UInt8.ofNat (offset + 55 + (Bytes.ofNat n).length) :: Bytes.ofNat n := by
  rw [announce, if_neg h]

theorem length_announce_mono (offset : Nat) {m n : Nat} (h : m ≤ n) :
    (announce offset m).length ≤ (announce offset n).length := by
  by_cases hn : n < 56
  · rw [announce_short hn, announce_short (Nat.lt_of_le_of_lt h hn)]
    exact Nat.le_refl 1
  · rw [announce_long hn]
    by_cases hm : m < 56
    · rw [announce_short hm]
      exact Nat.succ_le_succ (Nat.zero_le _)
    · rw [announce_long hm]
      exact Nat.succ_le_succ (Bytes.length_ofNat_mono h)

theorem announced_inj {offset : Nat} {a b : Bytes}
    (h : announce offset a.length ++ a = announce offset b.length ++ b) : a = b := by
  have hlen := congrArg List.length h
  rw [List.length_append, List.length_append] at hlen
  have hab : a.length = b.length := by
    rcases Nat.le_total a.length b.length with hle | hle
    · have := length_announce_mono offset hle
      omega
    · have := length_announce_mono offset hle
      omega
  exact (List.append_inj' h hab).2

theorem exists_announce_eq_cons (offset : Nat) {n : Nat} (ho : offset ≤ 192) (hn : n < limit) :
    ∃ x tail, announce offset n = x :: tail ∧ offset ≤ x.toNat ∧ x.toNat < offset + 64 := by
  by_cases hshort : n < 56
  · refine ⟨_, [], announce_short hshort, ?_⟩
    rw [UInt8.toNat_ofNat']
    omega
  · have hsize := length_size_le hn
    refine ⟨_, _, announce_long hshort, ?_⟩
    rw [UInt8.toNat_ofNat']
    omega

theorem announce_append_inj {offset n m : Nat} {r s : Bytes} (ho : offset ≤ 192)
    (hn : n < limit) (hm : m < limit) (h : announce offset n ++ r = announce offset m ++ s) :
    n = m ∧ r = s := by
  have hnsize := length_size_le hn
  have hmsize := length_size_le hm
  by_cases hnshort : n < 56 <;> by_cases hmshort : m < 56
  · rw [announce_short hnshort, announce_short hmshort] at h
    obtain ⟨hx, htail⟩ := List.cons.inj h
    have hsum := Bytes.eq_of_ofNat_eq (by omega) (by omega) hx
    exact ⟨by omega, htail⟩
  · -- a short length has its first byte below those of the long ones
    rw [announce_short hnshort, announce_long hmshort] at h
    have hpos := Bytes.length_ofNat_pos (n := m) (by omega)
    have hsum := Bytes.eq_of_ofNat_eq (by omega) (by omega) (List.cons.inj h).1
    omega
  · rw [announce_long hnshort, announce_short hmshort] at h
    have hpos := Bytes.length_ofNat_pos (n := n) (by omega)
    have hsum := Bytes.eq_of_ofNat_eq (by omega) (by omega) (List.cons.inj h).1
    omega
  · rw [announce_long hnshort, announce_long hmshort] at h
    obtain ⟨hx, htail⟩ := List.cons.inj h
    have hsize := Bytes.eq_of_ofNat_eq (by omega) (by omega) hx
    obtain ⟨hnm, hrs⟩ := List.append_inj htail (by omega)
    exact ⟨Bytes.ofNat_injective hnm, hrs⟩

theorem encodeBytes_small {x : UInt8} (h : x < 128) : encodeBytes [x] = [x] := by
  rw [encodeBytes, if_pos h]

theorem encodeBytes_announced {b : Bytes} (h : ∀ x, b = [x] → ¬x < 128) :
    encodeBytes b = announce 128 b.length ++ b := by
  unfold encodeBytes
  split
  · rename_i x
    rw [if_neg (h x rfl)]
    rfl
  · rfl

theorem small_or_announced (b : Bytes) :
    (∃ x, x < 128 ∧ b = [x]) ∨ ∀ x, b = [x] → ¬x < 128 := by
  by_cases h : ∃ x, x < 128 ∧ b = [x]
  · exact .inl h
  · exact .inr fun x hb hx => h ⟨x, hx, hb⟩

theorem encodeBytes_injective {a b : Bytes} (h : encodeBytes a = encodeBytes b) : a = b := by
  have small_ne : ∀ {x : UInt8} {c : Bytes}, x < 128 → [x] ≠ announce 128 c.length ++ c := by
    intro x c hx heq
    -- an announcement that takes one byte with what it announces is that of nothing
    have hlen := congrArg List.length heq
    have hzero := length_announce_mono 128 (Nat.zero_le c.length)
    rw [announce_short (by decide)] at hzero
    rw [List.length_append, List.length_singleton] at hlen
    rw [List.length_singleton] at hzero
    obtain rfl : c = [] := List.length_eq_zero_iff.1 (by omega)
    rw [(List.cons.inj heq).1] at hx
    exact absurd hx (by decide)
  rcases small_or_announced a with ⟨x, hx, rfl⟩ | ha
  · rcases small_or_announced b with ⟨y, hy, rfl⟩ | hb
    · rwa [encodeBytes_small hx, encodeBytes_small hy] at h
    · rw [encodeBytes_small hx, encodeBytes_announced hb] at h
      exact absurd h (small_ne hx)
  · rcases small_or_announced b with ⟨y, hy, rfl⟩ | hb
    · rw [encodeBytes_small hy, encodeBytes_announced ha] at h
      exact absurd h.symm (small_ne hy)
    · rw [encodeBytes_announced ha, encodeBytes_announced hb] at h
      exact announced_inj h

theorem length_le_encodeBytes (b : Bytes) : b.length ≤ (encodeBytes b).length := by
  rcases small_or_announced b with ⟨x, hx, rfl⟩ | hb
  · exact Nat.le_of_eq (congrArg List.length (encodeBytes_small hx).symm)
  · rw [encodeBytes_announced hb, List.length_append]
    omega

theorem exists_encodeBytes_eq_cons {b : Bytes} (h : b.length < limit) :
    ∃ x tail, encodeBytes b = x :: tail ∧ x.toNat < 192 := by
  rcases small_or_announced b with ⟨x, hx, rfl⟩ | hb
  · have hlt := UInt8.lt_iff_toNat_lt.1 hx
    exact ⟨x, [], encodeBytes_small hx, Nat.lt_trans hlt (by decide)⟩
  · obtain ⟨x, tail, hcons, _, hlt⟩ := exists_announce_eq_cons 128 (by decide) h
    exact ⟨x, tail ++ b, by rw [encodeBytes_announced hb, hcons, List.cons_append], hlt⟩

theorem small_ne_announced {x : UInt8} {b r s : Bytes} (hx : x < 128) (hb : b.length < limit) :
    [x] ++ r ≠ announce 128 b.length ++ b ++ s := by
  intro h
  obtain ⟨y, tail, hcons, hle, _⟩ := exists_announce_eq_cons 128 (by decide) hb
  rw [hcons] at h
  have hlt := UInt8.lt_iff_toNat_lt.1 hx
  rw [(List.cons.inj h).1] at hlt
  exact absurd (Nat.lt_of_lt_of_le hlt hle) (Nat.lt_irrefl _)

theorem encodeBytes_append_inj {a b r s : Bytes} (ha : a.length < limit) (hb : b.length < limit)
    (h : encodeBytes a ++ r = encodeBytes b ++ s) : a = b ∧ r = s := by
  rcases small_or_announced a with ⟨x, hx, rfl⟩ | ha'
  · rcases small_or_announced b with ⟨y, hy, rfl⟩ | hb'
    · rw [encodeBytes_small hx, encodeBytes_small hy] at h
      obtain ⟨hxy, hrs⟩ := List.cons.inj h
      exact ⟨congrArg (fun z => [z]) hxy, hrs⟩
    · rw [encodeBytes_small hx, encodeBytes_announced hb'] at h
      exact absurd h (small_ne_announced hx hb)
  · rcases small_or_announced b with ⟨y, hy, rfl⟩ | hb'
    · rw [encodeBytes_small hy, encodeBytes_announced ha'] at h
      exact absurd h.symm (small_ne_announced hy ha)
    · rw [encodeBytes_announced ha', encodeBytes_announced hb', List.append_assoc,
        List.append_assoc] at h
      obtain ⟨hlen, htail⟩ := announce_append_inj (by decide) ha hb h
      exact List.append_inj htail hlen

theorem encode_list (xs : List Item) :
    encode (.list xs) = announce 192 (encodeAll xs).length ++ encodeAll xs := by
  rw [encode]

theorem encode_bytes (b : Bytes) : encode (.bytes b) = encodeBytes b := by
  rw [encode]

theorem encodeAll_cons (x : Item) (xs : List Item) :
    encodeAll (x :: xs) = encode x ++ encodeAll xs := by
  rw [encodeAll]

theorem encode_ne_nil {x : Item} (h : (encode x).length < limit) : encode x ≠ [] := by
  cases x with
  | bytes b =>
      rw [encode_bytes] at h ⊢
      obtain ⟨y, tail, hcons, _⟩ :=
        exists_encodeBytes_eq_cons (Nat.lt_of_le_of_lt (length_le_encodeBytes b) h)
      simp [hcons]
  | list xs =>
      rw [encode_list] at h ⊢
      rw [List.length_append] at h
      obtain ⟨y, tail, hcons, _⟩ := exists_announce_eq_cons 192
        (n := (encodeAll xs).length) (by decide) (by omega)
      simp [hcons]

theorem encodeBytes_append_ne_list {b r s : Bytes} {xs : List Item} (hb : b.length < limit)
    (hxs : (encodeAll xs).length < limit) :
    encodeBytes b ++ r ≠ announce 192 (encodeAll xs).length ++ encodeAll xs ++ s := by
  intro h
  -- the first byte of a string lies below those of all lists
  obtain ⟨x, tail, hx, hlt⟩ := exists_encodeBytes_eq_cons hb
  obtain ⟨y, tail', hy, hle, _⟩ := exists_announce_eq_cons 192 (by decide) hxs
  rw [hx, hy] at h
  rw [(List.cons.inj h).1] at hlt
  omega

mutual

theorem encode_append_inj (x y : Item) {r s : Bytes} (hx : (encode x).length < limit)
    (hy : (encode y).length < limit) (h : encode x ++ r = encode y ++ s) : x = y ∧ r = s := by
  match x, y with
  | .bytes a, .bytes b =>
      rw [encode_bytes] at hx hy h
      rw [encode_bytes] at h
      have ha := Nat.lt_of_le_of_lt (length_le_encodeBytes a) hx
      have hb := Nat.lt_of_le_of_lt (length_le_encodeBytes b) hy
      obtain ⟨rfl, hrs⟩ := encodeBytes_append_inj ha hb h
      exact ⟨rfl, hrs⟩
  | .bytes a, .list ys =>
      rw [encode_bytes] at hx h
      rw [encode_list] at hy h
      rw [List.length_append] at hy
      have ha := Nat.lt_of_le_of_lt (length_le_encodeBytes a) hx
      exact absurd h (encodeBytes_append_ne_list ha (by omega))
  | .list xs, .bytes b =>
      rw [encode_bytes] at hy h
      rw [encode_list] at hx h
      rw [List.length_append] at hx
      have hb := Nat.lt_of_le_of_lt (length_le_encodeBytes b) hy
      exact absurd h.symm (encodeBytes_append_ne_list hb (by omega))
  | .list xs, .list ys =>
      rw [encode_list] at hx hy h
      rw [encode_list] at h
      rw [List.length_append] at hx hy
      rw [List.append_assoc, List.append_assoc] at h
      have hxs : (encodeAll xs).length < limit := by omega
      have hys : (encodeAll ys).length < limit := by omega
      obtain ⟨hlen, htail⟩ := announce_append_inj (by decide) hxs hys h
      obtain ⟨hbody, hrs⟩ := List.append_inj htail hlen
      exact ⟨congrArg Item.list (encodeAll_inj xs ys hxs hys hbody), hrs⟩

theorem encodeAll_inj (xs ys : List Item) (hxs : (encodeAll xs).length < limit)
    (hys : (encodeAll ys).length < limit) (h : encodeAll xs = encodeAll ys) : xs = ys := by
  match xs, ys with
  | [], [] => rfl
  | [], y :: ys =>
      rw [encodeAll_cons, List.length_append] at hys
      rw [encodeAll_cons, encodeAll] at h
      exact absurd (List.append_eq_nil_iff.1 h.symm).1 (encode_ne_nil (by omega))
  | x :: xs, [] =>
      rw [encodeAll_cons, List.length_append] at hxs
      rw [encodeAll_cons, encodeAll] at h
      exact absurd (List.append_eq_nil_iff.1 h).1 (encode_ne_nil (by omega))
  | x :: xs, y :: ys =>
      rw [encodeAll_cons, List.length_append] at hxs hys
      rw [encodeAll_cons, encodeAll_cons] at h
      obtain ⟨rfl, hrest⟩ := encode_append_inj x y (by omega) (by omega) h
      rw [encodeAll_inj xs ys (by omega) (by omega) hrest]

end

theorem encode_injective {x y : Item} (hx : (encode x).length < limit)
    (h : encode x = encode y) : x = y := by
  have hy := hx
  rw [h] at hy
  exact (encode_append_inj x y (r := []) (s := []) hx hy (by rw [h])).1

end Rlp

end BlockTree
