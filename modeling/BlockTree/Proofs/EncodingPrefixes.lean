import BlockTree.Proofs.ValueEncoding
import Mathlib.Data.List.Forall2
import Mathlib.Data.List.Induction

namespace BlockTree

namespace Bytes

structure Shortest (b : Bytes) (n : Nat) : Prop where
  toNat_eq : toNat b = n
  head_ne : b.head? ≠ some 0

theorem head?_ofNat_ne (n : Nat) : (ofNat n).head? ≠ some 0 := by
  induction n using Nat.strongRecOn with
  | ind n ih =>
      by_cases hn : n = 0
      · subst hn
        simp
      · rw [ofNat_pos hn, List.head?_append]
        cases hhead : (ofNat (n / 256)).head? with
        | some x =>
            have hquot := ih (n / 256) (by omega)
            rwa [hhead] at hquot
        | none =>
            -- nothing is left above the last byte, which is then the number itself
            have hzero := congrArg toNat (List.head?_eq_none_iff.1 hhead)
            rw [toNat_ofNat] at hzero
            change n / 256 = 0 at hzero
            intro hlast
            have hbyte : UInt8.ofNat (n % 256) = UInt8.ofNat 0 := Option.some.inj hlast
            have hmod := eq_of_ofNat_eq (by omega) (by decide) hbyte
            omega

theorem ofNat_toNat {b : Bytes} (h : b.head? ≠ some 0) : ofNat (toNat b) = b := by
  induction b using List.reverseRec with
  | nil => exact ofNat_zero
  | append_singleton b x ih =>
      have hx := x.toNat_lt
      have hfront : b.head? ≠ some 0 := by
        intro hb
        rw [List.head?_append, hb] at h
        exact h rfl
      rw [toNat_append_singleton]
      by_cases hzero : toNat b * 256 + x.toNat = 0
      · -- a string of zeros in front of a zero would start with a zero
        have hb := ih hfront
        rw [show toNat b = 0 by omega, ofNat_zero] at hb
        have hx0 : x = 0 := UInt8.toNat.inj (show x.toNat = 0 by omega)
        rw [← hb, hx0] at h
        exact absurd rfl h
      · have hquot : (toNat b * 256 + x.toNat) / 256 = toNat b := by omega
        have hmod : (toNat b * 256 + x.toNat) % 256 = x.toNat := by omega
        rw [ofNat_pos hzero, hquot, hmod, ih hfront, UInt8.ofNat_toNat]

theorem shortest_iff {b : Bytes} {n : Nat} : b.Shortest n ↔ ofNat n = b := by
  constructor
  · rintro ⟨rfl, hhead⟩
    exact ofNat_toNat hhead
  · rintro rfl
    exact ⟨toNat_ofNat n, head?_ofNat_ne n⟩

end Bytes

namespace Term

inductive Becomes : Term → Rlp.Item → Prop where
  | null : Becomes .null (.bytes [])
  | natural {n : Nat} {b : Bytes} (h : b.Shortest n) : Becomes (.natural n) (.bytes b)
  | bytes (b : Bytes) : Becomes (.bytes b) (.bytes b)
  | list {ts : List Term} {xs : List Rlp.Item} (h : List.Forall₂ Becomes ts xs) :
      Becomes (.list ts) (.list xs)

mutual

theorem becomes_iff : ∀ {t : Term} {x : Rlp.Item}, t.Becomes x ↔ t.item = x
  | .null, x => by
      rw [item]
      constructor
      · rintro ⟨⟩
        rfl
      · rintro rfl
        exact .null
  | .natural n, x => by
      rw [item]
      constructor
      · rintro ⟨⟩
        rename_i b h
        rw [Bytes.shortest_iff.1 h]
      · rintro rfl
        exact .natural (Bytes.shortest_iff.2 rfl)
  | .bytes b, x => by
      rw [item]
      constructor
      · rintro ⟨⟩
        rfl
      · rintro rfl
        exact .bytes b
  | .list ts, x => by
      rw [item]
      constructor
      · rintro ⟨⟩
        rename_i xs h
        rw [forall₂_becomes_iff.1 h]
      · rintro rfl
        exact .list (forall₂_becomes_iff.2 rfl)

theorem forall₂_becomes_iff : ∀ {ts : List Term} {xs : List Rlp.Item},
    List.Forall₂ Becomes ts xs ↔ items ts = xs
  | [], xs => by
      rw [items, List.forall₂_nil_left_iff, eq_comm]
  | t :: ts, xs => by
      rw [items, List.forall₂_cons_left_iff]
      constructor
      · rintro ⟨x, rest, hx, hrest, rfl⟩
        rw [becomes_iff.1 hx, forall₂_becomes_iff.1 hrest]
      · rintro rfl
        exact ⟨_, _, becomes_iff.2 rfl, forall₂_becomes_iff.2 rfl, rfl⟩

end

theorem exists_becomes_iff {s t : Term} :
    (∃ x, s.Becomes x ∧ t.Becomes x) ↔ s.item = t.item := by
  simp only [becomes_iff]
  exact ⟨fun ⟨_, hs, ht⟩ => hs.trans ht.symm, fun h => ⟨_, h, rfl⟩⟩

theorem encode_prefix_iff {s t : Term} (hs : s.encode.length < Rlp.limit)
    (ht : t.encode.length < Rlp.limit) : s.encode <+: t.encode ↔ s.item = t.item := by
  constructor
  · rintro ⟨rest, hrest⟩
    refine (Rlp.encode_append_inj s.item t.item (r := rest) (s := []) hs ht ?_).1
    rw [List.append_nil]
    exact hrest
  · intro h
    have hcode : s.encode = t.encode := congrArg Rlp.encode h
    exact hcode ▸ List.prefix_rfl

end Term

theorem encoding_begins_another_iff_same_tree {v w : Value} {a b : Bytes} (hv : v.encode = .ok a)
    (hw : w.encode = .ok b) (ha : a.length < Rlp.limit) (hb : b.length < Rlp.limit) :
    (∃ s t, v.canonical = .ok s ∧ w.canonical = .ok t ∧
      (a <+: b ↔ ∃ tree, s.Becomes tree ∧ t.Becomes tree)) ∧ (a <+: b → a = b) := by
  obtain ⟨s, hs, rfl⟩ := Value.encode_eq_ok_iff.1 hv
  obtain ⟨t, ht, rfl⟩ := Value.encode_eq_ok_iff.1 hw
  have hbegins := Term.encode_prefix_iff ha hb
  refine ⟨⟨s, t, hs, ht, hbegins.trans Term.exists_becomes_iff.symm⟩, fun h => ?_⟩
  exact congrArg Rlp.encode (hbegins.1 h)

namespace Value

def sample : Value :=
  .list [.null, .record [("b", .absent), ("a", .bool true)], .text "ab"]

def sampleRespelled : Value :=
  .list [.integer 0, .record [("a", .integer 1)], .bytes [97, 98]]

theorem encode_samples :
    sample.encode = .ok [200, 128, 195, 194, 97, 1, 130, 97, 98] ∧
      sampleRespelled.encode = .ok [200, 128, 195, 194, 97, 1, 130, 97, 98] ∧
      (list [integer 0]).encode = .ok [193, 128] := by
  have h : sample.encode.toOption = some [200, 128, 195, 194, 97, 1, 130, 97, 98] ∧
      sampleRespelled.encode.toOption = some [200, 128, 195, 194, 97, 1, 130, 97, 98] ∧
      (list [integer 0]).encode.toOption = some [193, 128] := by decide +kernel
  exact ⟨eq_ok_of_toOption h.1, eq_ok_of_toOption h.2.1, eq_ok_of_toOption h.2.2⟩

end Value

theorem sample_encoding_begins_respelled :
    ∃ a b, Value.sample.encode = .ok a ∧ (Value.list [.integer 0]).encode = .ok b ∧
      (∃ s t tree, Value.sample.canonical = .ok s ∧ Value.sampleRespelled.canonical = .ok t ∧
        s.Becomes tree ∧ t.Becomes tree) ∧
      ∃ s t, Value.sample.canonical = .ok s ∧ (Value.list [.integer 0]).canonical = .ok t ∧
        ¬∃ tree, s.Becomes tree ∧ t.Becomes tree := by
  obtain ⟨hsample, hrespelled, hzero⟩ := Value.encode_samples
  refine ⟨_, _, hsample, hzero, ?_, ?_⟩
  · obtain ⟨⟨s, t, hs, ht, h⟩, _⟩ :=
      encoding_begins_another_iff_same_tree hsample hrespelled (by decide) (by decide)
    obtain ⟨tree, htrees⟩ := h.1 List.prefix_rfl
    exact ⟨s, t, tree, hs, ht, htrees⟩
  · obtain ⟨⟨s, t, hs, ht, h⟩, _⟩ :=
      encoding_begins_another_iff_same_tree hsample hzero (by decide) (by decide)
    exact ⟨s, t, hs, ht, h.not.1 (by decide)⟩

end BlockTree
