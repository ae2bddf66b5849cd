import BlockTree.Proofs.Mining
import BlockTree.Proofs.Replay
import Mathlib

namespace BlockTree

def UnsealedHeader.Encodable (h : UnsealedHeader) : Prop :=
  ∃ nonce bytes, (h.sealWith nonce).encode = .ok bytes

theorem UnsealedHeader.Encodable.exists_id {h : UnsealedHeader} (he : h.Encodable) {nonce : Int}
    (hn : 0 ≤ nonce) : ∃ id, (h.sealWith nonce).id = .ok id := by
  obtain ⟨_, _, hencode⟩ := he
  obtain ⟨_, hitem, _⟩ := bind_eq_ok_iff.1 hencode
  -- all fields but the nonce are the same under both seals
  obtain ⟨parent, (hparent : Hex.decode h.parent = _), hitem⟩ := bind_eq_ok_iff.1 hitem
  obtain ⟨bodyRoot, (hbody : Hex.decode h.extrinsicsRoot = _), hitem⟩ := bind_eq_ok_iff.1 hitem
  obtain ⟨stateRoot, (hstate : Hex.decode h.stateRoot = _), hitem⟩ := bind_eq_ok_iff.1 hitem
  obtain ⟨height, (hheight : Rlp.Item.ofInt h.height = _), _⟩ := bind_eq_ok_iff.1 hitem
  have hnonce : Rlp.Item.ofInt nonce = .ok (.natural nonce.toNat) := if_neg (Int.not_lt.2 hn)
  have hresealed : (h.sealWith nonce).item = .ok (.list [.bytes parent, height, .bytes bodyRoot,
      .bytes stateRoot, .natural nonce.toNat]) := by
    simp only [Header.item, sealWith, hparent, hbody, hstate, hheight, hnonce, bind, Except.bind,
      pure, Except.pure]
  exact ⟨_, Header.id_eq_ok_iff.2 ⟨_, bind_pure_eq_ok_iff.2 ⟨_, hresealed, rfl⟩, rfl⟩⟩

theorem Header.checkDigest_eq_ok_iff_le {h : Header} {d : Difficulty} :
    h.checkDigest d = .ok (.ok ()) ↔ ∃ id, h.id = .ok id ∧ Hex.toNat id ≤ d.threshold := by
  simp only [checkDigest_eq_ok_iff, Difficulty.admits, decide_eq_true_eq]

theorem Header.carries_eq_true_iff {h : Header} {d : Difficulty} :
    h.carries d = .ok true ↔ h.checkDigest d = .ok (.ok ()) := by
  rw [carries, bind_pure_eq_ok_iff]
  constructor
  · rintro ⟨verdict, hverdict, hok⟩
    cases verdict with
    | ok => exact hverdict
    | error _ => cases hok
  · intro h
    exact ⟨_, h, rfl⟩

namespace Mining

variable {h : UnsealedHeader} {d : Difficulty} {start nonce : Int}

def carrying (h : UnsealedHeader) (d : Difficulty) : Set Int :=
  {nonce | (h.sealWith nonce).checkDigest d = .ok (.ok ())}

theorem hits_eq_true_iff_mem : hits h d nonce = .ok true ↔ nonce ∈ carrying h d :=
  hits_eq_true_iff.trans (Header.checkDigest_eq_ok_iff ..).symm

theorem hits_eq_false_of_notMem (he : h.Encodable) (hn : 0 ≤ nonce) (hno : nonce ∉ carrying h d) :
    hits h d nonce = .ok false := by
  obtain ⟨id, hid⟩ := he.exists_id hn
  have hhits : hits h d nonce = .ok (d.admits id) := by
    rw [hits, hid]
    rfl
  rw [hhits]
  cases hadmits : d.admits id with
  | false => rfl
  | true => exact absurd (hits_eq_true_iff_mem.1 (hadmits ▸ hhits)) hno

structure LeastOf (nonces : Set Int) (found : Option Int) : Prop where
  some_iff : ∀ n, found = some n ↔ IsLeast nonces n
  none_iff : found = none ↔ nonces = ∅

namespace LeastOf

variable {nonces : Set Int} {found : Option Int} {stop : Int}

theorem nothing : LeastOf ∅ none where
  some_iff n := by simp [IsLeast]
  none_iff := by simp

theorem of_isLeast (hn : IsLeast nonces nonce) : LeastOf nonces (some nonce) where
  some_iff n := by
    rw [Option.some_inj]
    exact ⟨fun heq => heq ▸ hn, hn.unique⟩
  none_iff := by
    have hne : nonces ≠ ∅ := Set.Nonempty.ne_empty ⟨nonce, hn.1⟩
    simp [hne]

theorem eq_of_isLeast (hfound : LeastOf (Set.Ico start stop ∩ nonces) found)
    (hn : IsLeast (Set.Ici start ∩ nonces) nonce) :
    found = if nonce < stop then some nonce else none := by
  obtain ⟨⟨hstart, hmem⟩, hleast⟩ := hn
  split
  · rename_i hstop
    exact (hfound.some_iff nonce).2 ⟨⟨⟨hstart, hstop⟩, hmem⟩, fun n h => hleast ⟨h.1.1, h.2⟩⟩
  · rename_i hstop
    refine hfound.none_iff.2 (Set.eq_empty_of_forall_notMem fun n h => ?_)
    have hle : nonce ≤ n := hleast ⟨h.1.1, h.2⟩
    exact hstop (Int.lt_of_le_of_lt hle h.1.2)

theorem eq_none_of_empty (hfound : LeastOf (Set.Ico start stop ∩ nonces) found)
    (hempty : Set.Ici start ∩ nonces = ∅) : found = none := by
  refine hfound.none_iff.2 (Set.eq_empty_of_forall_notMem fun n h => ?_)
  have hmem : n ∈ Set.Ici start ∩ nonces := ⟨h.1.1, h.2⟩
  rw [hempty] at hmem
  exact hmem

theorem step (hfound : LeastOf (Set.Ico (start + 1) stop ∩ nonces) found)
    (hno : start ∉ nonces) : LeastOf (Set.Ico start stop ∩ nonces) found := by
  have hwindow : Set.Ico start stop ∩ nonces = Set.Ico (start + 1) stop ∩ nonces := by
    ext n
    constructor
    · rintro ⟨⟨hlow, hhigh⟩, hn⟩
      have hne : n ≠ start := fun heq => hno (heq ▸ hn)
      exact ⟨⟨by omega, hhigh⟩, hn⟩
    · rintro ⟨⟨hlow, hhigh⟩, hn⟩
      exact ⟨⟨by omega, hhigh⟩, hn⟩
  rw [hwindow]
  exact hfound

end LeastOf

theorem exists_isLeast {nonces : Set Int} (h : (Set.Ici start ∩ nonces).Nonempty) :
    ∃ least, IsLeast (Set.Ici start ∩ nonces) least :=
  Int.exists_least_of_bdd ⟨start, fun _ hn => hn.1⟩ h

theorem search_spec (he : h.Encodable) (hstart : 0 ≤ start) (attempts : Nat) :
    ∃ found, search h d start attempts = .ok found ∧
      LeastOf (Set.Ico start (start + attempts) ∩ carrying h d) found := by
  induction attempts generalizing start with
  | zero =>
      refine ⟨none, rfl, ?_⟩
      rw [Int.ofNat_zero, Int.add_zero, Set.Ico_self, Set.empty_inter]
      exact .nothing
  | succ attempts ih =>
      by_cases hmem : start ∈ carrying h d
      · refine ⟨some start, search_of_hits (hits_eq_true_iff_mem.2 hmem) attempts, ?_⟩
        exact .of_isLeast ⟨⟨⟨Int.le_refl _, by omega⟩, hmem⟩, fun n hn => hn.1.1⟩
      · have hnext : 0 ≤ start + 1 := by omega
        obtain ⟨found, hfound, hleast⟩ := ih hnext
        refine ⟨found, ?_, .step ?_ hmem⟩
        · rw [search, hits_eq_false_of_notMem he hstart hmem]
          exact hfound
        · rw [Int.natCast_add, Int.natCast_one, Int.add_comm (attempts : Int), ← Int.add_assoc]
          exact hleast

theorem search_of_isLeast (he : h.Encodable) (hstart : 0 ≤ start)
    (hn : IsLeast (Set.Ici start ∩ carrying h d) nonce) (attempts : Nat) :
    search h d start attempts = .ok (if nonce < start + attempts then some nonce else none) := by
  obtain ⟨found, hfound, hspec⟩ := search_spec (d := d) he hstart attempts
  rw [hfound, hspec.eq_of_isLeast hn]

theorem search_of_empty (he : h.Encodable) (hstart : 0 ≤ start)
    (hempty : Set.Ici start ∩ carrying h d = ∅) (attempts : Nat) :
    search h d start attempts = .ok none := by
  obtain ⟨found, hfound, hspec⟩ := search_spec (d := d) he hstart attempts
  rw [hfound, hspec.eq_none_of_empty hempty]

def orElse (first second : Except Fault (Option Int)) : Except Fault (Option Int) := do
  match ← first with
  | some nonce => return some nonce
  | none => second

theorem search_add (h : UnsealedHeader) (d : Difficulty) (start : Int) (a b : Nat) :
    search h d start (a + b) = orElse (search h d start a) (search h d (start + a) b) := by
  induction a generalizing start with
  | zero =>
      rw [Nat.zero_add, Int.ofNat_zero, Int.add_zero]
      rfl
  | succ a ih =>
      have hnext : start + (a + 1 : Nat) = start + 1 + a := by omega
      rw [Nat.add_right_comm, hnext, search, search]
      cases hits h d start with
      | error fault => rfl
      | ok hit =>
          cases hit with
          | true => rfl
          | false => exact ih (start + 1)

theorem Ico_toNat (start window : Int) :
    Set.Ico start (start + window.toNat) = Set.Ico start (start + window) := by
  ext n
  simp only [Set.mem_Ico]
  omega

theorem carries_of_hits (hhits : hits h d nonce = .ok true) :
    (h.sealWith nonce).carries d = .ok true :=
  Header.carries_eq_true_iff.2 (hits_eq_true_iff_mem.1 hhits)

theorem searches_find_least_nonce (he : h.Encodable) (hstart : 0 ≤ start) :
    (∀ window patience, ∃ found, mineFrom h d start (some window) patience = .ok found ∧
      LeastOf (Set.Ico start (start + window) ∩ carrying h d) found) ∧
    ((Set.Ici start ∩ carrying h d).Nonempty →
      ∃ least, IsLeast (Set.Ici start ∩ carrying h d) least ∧ ∀ patience,
        mineFrom h d start none patience =
          .ok (if least < start + patience then some least else none)) ∧
    (Set.Ici start ∩ carrying h d = ∅ → ∀ patience,
      mineFrom h d start none patience = .ok none) ∧
    (∀ patience, mineFirst h d patience = mineFrom h d 0 none patience) ∧
    (∀ nonce window? patience, mineFrom h d start window? patience = .ok (some nonce) ∨
        mineFirst h d patience = .ok (some nonce) → (h.sealWith nonce).carries d = .ok true) ∧
    ∀ a b patience, 0 ≤ a → 0 ≤ b → mineFrom h d start (some (a + b)) patience =
      orElse (mineFrom h d start (some a) patience) (mineFrom h d (start + a) (some b) patience) := by
  refine ⟨fun window patience => ?_, fun hsome => ?_,
    fun hempty patience => search_of_empty he hstart hempty patience, fun patience => rfl, ?_,
    fun a b patience ha hb => ?_⟩
  · obtain ⟨found, hfound, hspec⟩ := search_spec (d := d) he hstart window.toNat
    rw [Ico_toNat] at hspec
    exact ⟨found, hfound, hspec⟩
  · obtain ⟨least, hleast⟩ := exists_isLeast hsome
    exact ⟨least, hleast, fun patience => search_of_isLeast he hstart hleast patience⟩
  · rintro nonce window? patience (hfound | hfound)
    · exact carries_of_hits (hits_of_search hfound)
    · exact carries_of_hits (hits_of_search hfound)
  · have hsplit := search_add h d start a.toNat b.toNat
    rw [Int.toNat_of_nonneg ha, ← Int.toNat_add ha hb] at hsplit
    exact hsplit

end Mining

namespace Sums

open Mining

def hard : Difficulty :=
  ⟨11, by decide⟩

def draft : UnsealedHeader :=
  second.header.toUnsealedHeader

theorem draft_encodable : draft.Encodable := by
  obtain ⟨b, hb, _⟩ := Header.id_eq_ok_iff.1 ids.2
  exact ⟨0, b, hb⟩

theorem search_draft : search draft hard 0 3 = .ok (some 2) :=
  eq_ok_of_toOption (by decide +kernel)

theorem isLeast_draft : IsLeast (Set.Ici 0 ∩ carrying draft hard) 2 := by
  obtain ⟨found, hfound, hspec⟩ := search_spec (d := hard) draft_encodable (Int.le_refl 0) 3
  obtain rfl := Except.ok.inj (search_draft.symm.trans hfound)
  obtain ⟨⟨⟨hlow, _⟩, hmem⟩, hleast⟩ := (hspec.some_iff 2).1 rfl
  refine ⟨⟨hlow, hmem⟩, fun n hn => ?_⟩
  by_cases hsmall : n < 3
  · exact hleast ⟨⟨hn.1, hsmall⟩, hn.2⟩
  · omega

end Sums

theorem sums_searches_find_least_nonce :
    Sums.draft.Encodable ∧ (0 : Int) ≤ 0 ∧
      Mining.mineFrom Sums.draft Sums.hard 0 (some 2) = .ok none ∧
      Mining.mineFrom Sums.draft Sums.hard 0 (some 3) = .ok (some 2) ∧
      Mining.mineFrom Sums.draft Sums.hard 0 none 3 = .ok (some 2) ∧
      Mining.mineFirst Sums.draft Sums.hard 3 = .ok (some 2) ∧
      (Sums.draft.sealWith 2).carries Sums.hard = .ok true := by
  obtain ⟨hwindow, hsome, _, hfirst, hcarries, _⟩ :=
    Mining.searches_find_least_nonce (d := Sums.hard) Sums.draft_encodable (Int.le_refl 0)
  obtain ⟨least, hleast, hall⟩ := hsome ⟨2, Sums.isLeast_draft.1⟩
  obtain rfl : least = 2 := hleast.unique Sums.isLeast_draft
  obtain ⟨found, hfound, hspec⟩ := hwindow 2 Mining.maxPatience
  obtain rfl : found = none := hspec.eq_of_isLeast Sums.isLeast_draft
  exact ⟨Sums.draft_encodable, Int.le_refl 0, hfound, Sums.search_draft, hall 3,
    (hfirst 3).trans (hall 3), hcarries 2 none 3 (.inl (hall 3))⟩

end BlockTree
