import BlockTree.Commitment
import BlockTree.Proofs.Admission
import BlockTree.Proofs.HeaderEncoding

namespace BlockTree

def CollisionFree (strings : List Bytes) : Prop :=
  ∀ a ∈ strings, ∀ b ∈ strings, keccak256 a = keccak256 b → a = b

theorem CollisionFree.restrict {xs ys xs' ys' : List Bytes} (h : CollisionFree (xs' ++ ys'))
    (hxs : xs ⊆ xs') (hys : ys ⊆ ys') : CollisionFree (xs ++ ys) := by
  have hsub : ∀ {a}, a ∈ xs ++ ys → a ∈ xs' ++ ys' := by
    intro a ha
    rcases List.mem_append.1 ha with ha | ha
    · exact List.mem_append_left _ (hxs ha)
    · exact List.mem_append_right _ (hys ha)
  exact fun a ha b hb => h a (hsub ha) b (hsub hb)

theorem eq_of_keccak256_eq {strings : List Bytes} (h : (strings.map keccak256).Nodup) {a b : Bytes}
    (ha : a ∈ strings) (hb : b ∈ strings) (hab : keccak256 a = keccak256 b) : a = b := by
  induction strings with
  | nil => simp at ha
  | cons x xs ih =>
      rw [List.map_cons, List.nodup_cons] at h
      rcases List.mem_cons.1 ha with hax | ha
      · rcases List.mem_cons.1 hb with hbx | hb
        · rw [hax, hbx]
        · rw [hax] at hab
          exact absurd (List.mem_map.2 ⟨b, hb, hab.symm⟩) h.1
      · rcases List.mem_cons.1 hb with hbx | hb
        · rw [hbx] at hab
          exact absurd (List.mem_map.2 ⟨a, ha, hab⟩) h.1
        · exact ih h.2 ha hb

theorem CollisionFree.of_nodup {strings : List Bytes}
    (h : (strings.eraseDups.map keccak256).Nodup) : CollisionFree strings :=
  fun _ ha _ hb => eq_of_keccak256_eq h (List.mem_eraseDups.2 ha) (List.mem_eraseDups.2 hb)

namespace Commitment

def pairs : List Bytes → List Bytes
  | [] => []
  | [x] => [x ++ x]
  | x :: y :: rest => (x ++ y) :: pairs rest

theorem pairUp_eq (leaves : List Bytes) : pairUp leaves = (pairs leaves).map keccak256 := by
  fun_induction pairs leaves with
  | case1 => rfl
  | case2 x => rfl
  | case3 x y rest ih => rw [pairUp, ih, List.map_cons]

def nodes : List Bytes → List Bytes
  | [] => [[]]
  | [_] => []
  | x :: y :: rest => pairs (x :: y :: rest) ++ nodes (pairUp (x :: y :: rest))
termination_by leaves => leaves.length
decreasing_by rw [length_pairUp]; simp only [List.length_cons]; omega

def encodings (body : List Value) : List Bytes :=
  body.filterMap fun x => x.encode.toOption

def hashed (body : List Value) : List Bytes :=
  let bytes := encodings body
  let digests := bytes.map keccak256
  bytes ++ nodes digests ++ [rootPreimage digests.length (merkleRoot digests)]

theorem pairs_injective {xs ys : List Bytes} (hlen : xs.length = ys.length)
    (hxs : ∀ x ∈ xs, x.length = 32) (hys : ∀ y ∈ ys, y.length = 32) (h : pairs xs = pairs ys) :
    xs = ys := by
  fun_induction pairs xs generalizing ys with
  | case1 => exact (List.length_eq_zero_iff.1 hlen.symm).symm
  | case2 x =>
      obtain ⟨y, rfl⟩ := List.length_eq_one_iff.1 hlen.symm
      have hx : x.length = 32 := hxs x (by simp)
      have hy : y.length = 32 := hys y (by simp)
      obtain ⟨hxy, _⟩ := List.append_inj (List.cons.inj h).1 (hx.trans hy.symm)
      rw [hxy]
  | case3 x x' rest ih =>
      match ys with
      | [] => simp at hlen
      | [_] => simp at hlen
      | y :: y' :: rest' =>
          have hx : x.length = 32 := hxs x (by simp)
          have hy : y.length = 32 := hys y (by simp)
          obtain ⟨hhead, htail⟩ := List.cons.inj h
          obtain ⟨hxy, hxy'⟩ := List.append_inj hhead (hx.trans hy.symm)
          have hlen' : rest.length = rest'.length := by simpa using hlen
          rw [hxy, hxy', ih hlen' (fun z hz => hxs z (by simp [hz]))
            (fun z hz => hys z (by simp [hz])) htail]

theorem map_keccak256_inj {xs ys : List Bytes} (hfree : CollisionFree (xs ++ ys))
    (h : xs.map keccak256 = ys.map keccak256) : xs = ys := by
  induction xs generalizing ys with
  | nil => exact (List.map_eq_nil_iff.1 h.symm).symm
  | cons x xs ih =>
      cases ys with
      | nil => simp at h
      | cons y ys =>
          rw [List.map_cons, List.map_cons] at h
          obtain ⟨hhead, htail⟩ := List.cons.inj h
          have hxy := hfree x (by simp) y (by simp) hhead
          have hrest : CollisionFree (xs ++ ys) :=
            hfree.restrict (List.subset_cons_self ..) (List.subset_cons_self ..)
          rw [hxy, ih hrest htail]

theorem length_of_mem_digests {strings : List Bytes} {x : Bytes}
    (h : x ∈ strings.map keccak256) : x.length = 32 := by
  obtain ⟨y, _, rfl⟩ := List.mem_map.1 h
  exact length_keccak256 y

theorem merkleRoot_injective {xs ys : List Bytes} (hlen : xs.length = ys.length)
    (hxs : ∀ x ∈ xs, x.length = 32) (hys : ∀ y ∈ ys, y.length = 32)
    (hfree : CollisionFree (nodes xs ++ nodes ys)) (h : merkleRoot xs = merkleRoot ys) :
    xs = ys := by
  fun_induction merkleRoot xs generalizing ys with
  | case1 => exact (List.length_eq_zero_iff.1 hlen.symm).symm
  | case2 x =>
      obtain ⟨y, rfl⟩ := List.length_eq_one_iff.1 hlen.symm
      rw [merkleRoot] at h
      rw [h]
  | case3 x x' rest ih =>
      match ys with
      | [] => simp at hlen
      | [_] => simp at hlen
      | y :: y' :: rest' =>
          rw [merkleRoot] at h
          rw [nodes, nodes] at hfree
          have hup : (pairUp (x :: x' :: rest)).length = (pairUp (y :: y' :: rest')).length := by
            rw [length_pairUp, length_pairUp, hlen]
          -- the nodes of the levels above are equal first, and from them those of this level
          have hdigest : ∀ leaves, ∀ z ∈ pairUp leaves, z.length = 32 := by
            intro leaves z hz
            rw [pairUp_eq] at hz
            exact length_of_mem_digests hz
          have habove := ih hup (hdigest _) (hdigest _)
            (hfree.restrict (List.subset_append_right ..) (List.subset_append_right ..)) h
          rw [pairUp_eq, pairUp_eq] at habove
          have hpairs := map_keccak256_inj
            (hfree.restrict (List.subset_append_left ..) (List.subset_append_left ..)) habove
          exact pairs_injective hlen hxs hys hpairs

theorem length_merkleRoot {leaves : List Bytes} (h : ∀ x ∈ leaves, x.length = 32) :
    (merkleRoot leaves).length = 32 := by
  fun_induction merkleRoot leaves with
  | case1 => exact length_keccak256 []
  | case2 x => exact h x (by simp)
  | case3 x y rest ih =>
      apply ih
      intro z hz
      rw [pairUp_eq] at hz
      exact length_of_mem_digests hz

theorem rootPreimage_injective {m n : Nat} {r s : Bytes} (hr : r.length = 32) (hs : s.length = 32)
    (h : rootPreimage m r = rootPreimage n s) : m = n ∧ r = s := by
  have hdigest : ∀ {b : Bytes}, b.length = 32 → (Rlp.encodeBytes b).length = 33 := by
    intro b hb
    have hlong : ∀ x, b = [x] → ¬x < 128 := by
      rintro x rfl
      simp at hb
    rw [Rlp.encodeBytes_announced hlong, List.length_append, hb]
    rfl
  rw [rootPreimage, rootPreimage, Rlp.encode_list, Rlp.encode_list] at h
  have hbody := Rlp.announced_inj h
  simp only [Rlp.encodeAll, Rlp.encode_bytes, List.append_nil] at hbody
  obtain ⟨hcount, hroot⟩ := List.append_inj' hbody ((hdigest hr).trans (hdigest hs).symm)
  exact ⟨Bytes.ofNat_injective (Rlp.encodeBytes_injective hcount), Rlp.encodeBytes_injective hroot⟩

theorem encodings_of_leaves {body : List Value} {digests : List Bytes}
    (h : leaves body = .ok digests) :
    body.map Value.encode = (encodings body).map .ok ∧
      digests = (encodings body).map keccak256 := by
  induction body generalizing digests with
  | nil =>
      cases h
      exact ⟨rfl, rfl⟩
  | cons x xs ih =>
      rw [leaves, bind_eq_ok_iff] at h
      obtain ⟨bytes, hx, h⟩ := h
      obtain ⟨rest, hrest, h⟩ := bind_eq_ok_iff.1 h
      cases h
      obtain ⟨hencode, hdigests⟩ := ih hrest
      have hcons : encodings (x :: xs) = bytes :: encodings xs := by
        rw [encodings, List.filterMap_cons, hx]
        rfl
      rw [hcons]
      exact ⟨by rw [List.map_cons, hx, hencode, List.map_cons],
        by rw [hdigests, List.map_cons]⟩

theorem exists_leaves_of_bodyRoot {body : List Value} {root : String}
    (h : bodyRoot body = .ok root) :
    body.map Value.encode = (encodings body).map .ok ∧
      root = rootOfLeaves ((encodings body).map keccak256) := by
  obtain ⟨digests, hdigests, h⟩ := bind_eq_ok_iff.1 h
  obtain ⟨hencode, rfl⟩ := encodings_of_leaves hdigests
  exact ⟨hencode, (Except.ok.inj h).symm⟩

theorem encodings_subset_hashed (body : List Value) : encodings body ⊆ hashed body :=
  fun _ h => List.mem_append_left _ (List.mem_append_left _ h)

theorem nodes_subset_hashed (body : List Value) :
    nodes ((encodings body).map keccak256) ⊆ hashed body :=
  fun _ h => List.mem_append_left _ (List.mem_append_right _ h)

theorem rootPreimage_mem_hashed (body : List Value) :
    rootPreimage ((encodings body).map keccak256).length
      (merkleRoot ((encodings body).map keccak256)) ∈ hashed body :=
  List.mem_append_right _ (List.mem_singleton_self _)

theorem map_encode_eq_of_bodyRoot_eq {xs ys : List Value} {root : String}
    (hxs : bodyRoot xs = .ok root) (hys : bodyRoot ys = .ok root)
    (hfree : CollisionFree (hashed xs ++ hashed ys)) :
    xs.map Value.encode = ys.map Value.encode := by
  obtain ⟨hencode, hroot⟩ := exists_leaves_of_bodyRoot hxs
  obtain ⟨hencode', hroot'⟩ := exists_leaves_of_bodyRoot hys
  have hpreimage := hfree _ (List.mem_append_left _ (rootPreimage_mem_hashed xs)) _
    (List.mem_append_right _ (rootPreimage_mem_hashed ys))
    (Hex.encode_injective (hroot.symm.trans hroot'))
  obtain ⟨hcount, hmerkle⟩ := rootPreimage_injective
    (length_merkleRoot fun _ => length_of_mem_digests)
    (length_merkleRoot fun _ => length_of_mem_digests) hpreimage
  have hdigests := merkleRoot_injective hcount (fun _ => length_of_mem_digests)
    (fun _ => length_of_mem_digests)
    (hfree.restrict (nodes_subset_hashed xs) (nodes_subset_hashed ys)) hmerkle
  have hbytes := map_keccak256_inj
    (hfree.restrict (encodings_subset_hashed xs) (encodings_subset_hashed ys)) hdigests
  rw [hencode, hencode', hbytes]

theorem bodyRoot_eq_of_map_encode_eq {xs ys : List Value}
    (h : xs.map Value.encode = ys.map Value.encode) : bodyRoot xs = bodyRoot ys := by
  have hleaves : leaves xs = leaves ys := by
    induction xs generalizing ys with
    | nil => rw [List.map_eq_nil_iff.1 h.symm]
    | cons x xs ih =>
        cases ys with
        | nil => simp at h
        | cons y ys =>
            obtain ⟨hhead, htail⟩ := List.cons.inj h
            rw [leaves, leaves, hhead, ih htail]
  rw [bodyRoot, bodyRoot, hleaves]

theorem merkleRoot_doubled (a b c : Bytes) : merkleRoot [a, b, c] = merkleRoot [a, b, c, c] := by
  rw [merkleRoot, merkleRoot]
  rfl

theorem bodyRoot_eq_iff_same_encodings {xs ys : List Value} {root root' : String}
    (hxs : bodyRoot xs = .ok root) (hys : bodyRoot ys = .ok root')
    (hfree : CollisionFree (hashed xs ++ hashed ys)) :
    root = root' ↔ xs.length = ys.length ∧
      ∀ i (hx : i < xs.length) (hy : i < ys.length), xs[i].encode = ys[i].encode := by
  constructor
  · rintro rfl
    have hmap := map_encode_eq_of_bodyRoot_eq hxs hys hfree
    have hlen : xs.length = ys.length := by simpa using congrArg List.length hmap
    refine ⟨hlen, fun i hx hy => ?_⟩
    have hi := List.getElem_of_eq hmap (i := i) (by simpa using hx)
    simpa using hi
  · rintro ⟨hlen, hsame⟩
    have hmap : xs.map Value.encode = ys.map Value.encode :=
      List.ext_getElem (by simpa using hlen) fun i hx hy => by
        simpa using hsame i (by simpa using hx) (by simpa using hy)
    rw [bodyRoot_eq_of_map_encode_eq hmap, hys] at hxs
    exact (Except.ok.inj hxs).symm

theorem doubled_last_extrinsic_changes_root :
    let xs : List Value := [.integer 1, .text "b", .integer 3]
    let ys : List Value := [.integer 1, .text "b", .integer 3, .integer 3]
    merkleRoot ((encodings xs).map keccak256) = merkleRoot ((encodings ys).map keccak256) ∧
    ∃ root root', bodyRoot xs = .ok root ∧ bodyRoot ys = .ok root' ∧
      CollisionFree (hashed xs ++ hashed ys) ∧ root ≠ root' := by
  intro xs ys
  have hfree : CollisionFree (hashed xs ++ hashed ys) := .of_nodup (by decide +kernel)
  refine ⟨?_, _, _, rfl, rfl, hfree, fun hroot => ?_⟩
  · exact merkleRoot_doubled _ _ _
  · have hlen := ((bodyRoot_eq_iff_same_encodings rfl rfl hfree).1 hroot).1
    exact absurd hlen (by decide)

end Commitment

end BlockTree
