import BlockTree.Proofs.Rounding
import BlockTree.Proofs.SharedContainers

namespace BlockTree

namespace Number

def Is (x : Number) (k : Int) : Prop :=
  match x with
  | .finite negative m e => signed negative m * pow2 e = k * pow2 (-e)
  | _ => False

def IsSafeNatural (x : Number) : Prop :=
  ∃ k : Nat, k ≤ maxSafe ∧ x.Is k

example : (finite true 0 0).IsSafeNatural := ⟨0, by decide, rfl⟩

theorem exists_quotient_of_is {negative : Bool} {m : Nat} {e k : Int}
    (h : (finite negative m e).Is k) : ∃ q : Nat, m = q * pow2 (-e) := by
  rcases Int.le_total 0 e with he | he
  · obtain ⟨j, rfl⟩ := Int.eq_ofNat_of_zero_le he
    exact ⟨m, by rw [pow2_neg_natCast, Nat.mul_one]⟩
  · obtain ⟨j, hj⟩ := Int.eq_ofNat_of_zero_le (Int.neg_nonneg_of_nonpos he)
    obtain rfl : e = -(j : Int) := by omega
    have habs := congrArg Int.natAbs h
    refine ⟨k.natAbs, ?_⟩
    rw [pow2_neg_natCast, Int.natAbs_mul, Int.natAbs_mul, Int.natAbs_natCast, Int.natAbs_natCast,
      Nat.mul_one] at habs
    rw [← habs]
    cases negative <;> simp [signed]

theorem is_iff_toInt? {x : Number} {k : Int} : x.Is k ↔ x.toInt? = some k := by
  cases x with
  | nan => simp [Is, toInt?]
  | infinite negative => simp [Is, toInt?]
  | finite negative m e =>
      have hscale : (pow2 (-e) : Int) ≠ 0 := Int.natCast_ne_zero.2 (Nat.ne_of_gt (pow2_pos _))
      constructor
      · intro h
        obtain ⟨q, rfl⟩ := exists_quotient_of_is h
        rw [Is, signed_mul, Int.mul_right_comm] at h
        have hk := Int.eq_of_mul_eq_mul_right hscale h
        simp only [toInt?, Nat.mul_mod_left, if_true, Nat.mul_div_cancel _ (pow2_pos _), ← hk]
        cases negative <;> simp [signed]
      · intro h
        obtain ⟨q, rfl, rfl⟩ := exists_quotient_of_toInt? h
        rw [Is, signed_mul, Int.mul_right_comm]

theorem safeNat?_eq_none_iff {x : Number} : x.safeNat? = none ↔ ¬x.IsSafeNatural := by
  simp only [IsSafeNatural, is_iff_toInt?, safeNat?]
  cases x.toInt? with
  | none => simp
  | some n =>
      simp only [Option.some.injEq, ite_eq_right_iff, reduceCtorEq, imp_false, not_iff_not]
      constructor
      · rintro ⟨hlow, hhigh⟩
        exact ⟨n.toNat, by omega, by omega⟩
      · rintro ⟨k, hk, rfl⟩
        omega

end Number

namespace Value

inductive Unfit : Value → Prop where
  | integer {n : Int} (h : n < 0) : Unfit (.integer n)
  | number {x : Number} (h : ¬x.IsSafeNatural) : Unfit (.number x)
  | symbol : Unfit .symbol
  | function (answer : Except String Value) : Unfit (.function answer)

def parts : Value → List Value
  | .list items => items
  | .record fields => fields.map Prod.snd
  | .dict entries => entries.flatMap fun e => [e.1, e.2]
  | .set members => members
  | _ => []

abbrev Contains : Value → Value → Prop :=
  Relation.ReflTransGen fun v w => w ∈ v.parts

def Flawed (v : Value) : Prop :=
  ∃ w, v.Contains w ∧ (w.Unfit ∨ ∃ depth, w = .enclosing depth)

theorem exists_flaw_iff_of_isPlain {v : Value} (h : v.isPlain = true) :
    (∃ fault, v.Flaw fault) ↔ v.Unfit := by
  constructor
  · rintro ⟨fault, hflaw⟩
    cases hflaw with
    | integer hn => exact .integer hn
    | number hx => exact .number (Number.safeNat?_eq_none_iff.1 hx)
    | symbol => exact .symbol
    | function answer => exact .function answer
    | _ => cases h
  · rintro (⟨hn⟩ | ⟨hx⟩ | _ | ⟨answer⟩)
    · exact ⟨_, .integer hn⟩
    · exact ⟨_, .number (Number.safeNat?_eq_none_iff.2 hx)⟩
    · exact ⟨_, .symbol⟩
    · exact ⟨_, .function answer⟩

theorem flaw_of_part {v w : Value} {fault : Fault} (hw : w ∈ v.parts) (h : w.Flaw fault) :
    v.Flaw fault := by
  cases v with
  | list items => exact .item hw h
  | set members => exact .member hw h
  | record fields =>
      obtain ⟨⟨k, w⟩, hk, rfl⟩ := List.mem_map.1 hw
      exact .field hk h
  | dict entries =>
      obtain ⟨⟨k, x⟩, hk, hw⟩ := List.mem_flatMap.1 hw
      rcases List.mem_pair.1 hw with rfl | rfl
      · exact .key hk h
      · exact .entry hk h
  | _ => cases hw

theorem Flawed.of_part {v w : Value} (hw : w ∈ v.parts) (h : w.Flawed) : v.Flawed := by
  obtain ⟨x, hx, hunfit⟩ := h
  exact ⟨x, hx.head hw, hunfit⟩

theorem exists_flaw_iff {v : Value} : (∃ fault, v.Flaw fault) ↔ v.Flawed := by
  constructor
  · rintro ⟨fault, h⟩
    induction h with
    | integer hn => exact ⟨_, .refl, .inl (.integer hn)⟩
    | number hx => exact ⟨_, .refl, .inl (.number (Number.safeNat?_eq_none_iff.1 hx))⟩
    | symbol => exact ⟨_, .refl, .inl .symbol⟩
    | function answer => exact ⟨_, .refl, .inl (.function answer)⟩
    | enclosing depth => exact ⟨_, .refl, .inr ⟨depth, rfl⟩⟩
    | item hv _ ih => exact ih.of_part hv
    | member hv _ ih => exact ih.of_part hv
    | field hv _ ih => exact ih.of_part (List.mem_map_of_mem (f := Prod.snd) hv)
    | key hv _ ih => exact ih.of_part (List.mem_flatMap.2 ⟨_, hv, .head _⟩)
    | entry hv _ ih => exact ih.of_part (List.mem_flatMap.2 ⟨_, hv, .tail _ (.head _)⟩)
  · rintro ⟨w, hw, hunfit⟩
    induction hw using Relation.ReflTransGen.head_induction_on with
    | refl =>
        rcases hunfit with hunfit | ⟨depth, rfl⟩
        · refine (exists_flaw_iff_of_isPlain ?_).2 hunfit
          cases hunfit <;> rfl
        · exact ⟨_, .enclosing depth⟩
    | head hpart _ ih =>
        obtain ⟨fault, h⟩ := ih
        exact ⟨fault, flaw_of_part hpart h⟩

theorem exists_encode_error_iff {v : Value} :
    (∃ fault, v.encode = .error fault) ↔ ∃ fault, v.Flaw fault := by
  constructor
  · rintro ⟨fault, h⟩
    exact ⟨fault, flaw_of_canonical (encode_eq_error_iff.1 h)⟩
  · rintro ⟨fault, h⟩
    obtain ⟨reported, hreported⟩ := canonical_of_flaw h
    exact ⟨reported, encode_eq_error_iff.2 hreported⟩

end Value

variable {n : Nat}

theorem Container.flaw_value_iff {f : Slot n → Value} {c : Container n} {fault : Fault} :
    (c.value f).Flaw fault ↔ ∃ s ∈ c.slots, (f s).Flaw fault := by
  cases c with
  | list items => simp [value, slots]
  | set members => simp [value, slots]
  | record fields =>
      rw [value, Value.flaw_record_iff, slots]
      simp only [List.mem_map, exists_exists_and_eq_and]
  | dict entries =>
      rw [value, Value.flaw_dict_iff, slots]
      constructor
      · rintro ⟨_, hentry, hflaw⟩
        obtain ⟨e, he, rfl⟩ := List.mem_map.1 hentry
        rcases hflaw with hflaw | hflaw
        · exact ⟨e.1, List.mem_flatMap.2 ⟨e, he, .head _⟩, hflaw⟩
        · exact ⟨e.2, List.mem_flatMap.2 ⟨e, he, .tail _ (.head _)⟩, hflaw⟩
      · rintro ⟨s, hs, hflaw⟩
        obtain ⟨e, he, hs⟩ := List.mem_flatMap.1 hs
        refine ⟨_, List.mem_map_of_mem he, ?_⟩
        rcases List.mem_pair.1 hs with rfl | rfl
        · exact .inl hflaw
        · exact .inr hflaw

namespace Store

variable {store : Store n}

inductive Holds (store : Store n) : Slot n → Slot n → Prop where
  | slot {a : Fin n} {s : Slot n} (h : s ∈ (store a).slots) : Holds store (.container a) s

inductive Flawed (store : Store n) (s : Slot n) : Prop where
  | unfit {v : Value} {h : v.isPlain = true} (hv : Relation.ReflTransGen store.Holds s (.plain v h))
      (hunfit : v.Unfit)
  | loop {a : Fin n} (ha : Relation.ReflTransGen store.Holds s (.container a))
      (hloop : Relation.TransGen store.Holds (.container a) (.container a))

theorem Flawed.of_slot {a : Fin n} {s : Slot n} (hs : s ∈ (store a).slots) (h : store.Flawed s) :
    store.Flawed (.container a) := by
  cases h with
  | unfit hv hunfit => exact .unfit (hv.head (.slot hs)) hunfit
  | loop ha hloop => exact .loop (ha.head (.slot hs)) hloop

theorem eq_of_plain_holds {v : Value} {h : v.isPlain = true} {s : Slot n}
    (hs : Relation.ReflTransGen store.Holds (.plain v h) s) : s = .plain v h := by
  rcases hs.cases_head with heq | ⟨_, ⟨⟩, _⟩
  exact heq.symm

theorem flaw_writtenOut_iff (store : Store n) (around : List (Fin n)) (s : Slot n) :
    (∃ fault, (store.writtenOut around s).Flaw fault) ↔ store.Flawed s ∨
      ∃ a ∈ around, Relation.ReflTransGen store.Holds s (.container a) := by
  induction around, s using store.walk_induction with
  | plain around v h =>
      rw [writtenOut_plain, Value.exists_flaw_iff_of_isPlain h]
      constructor
      · exact fun hunfit => .inl (.unfit .refl hunfit)
      · rintro ((⟨hv, hunfit⟩ | ⟨ha, _⟩) | ⟨a, _, ha⟩)
        · cases eq_of_plain_holds hv
          exact hunfit
        · cases eq_of_plain_holds ha
        · cases eq_of_plain_holds ha
  | enclosing around a ha =>
      rw [writtenOut_of_mem store ha]
      exact ⟨fun _ => .inr ⟨a, ha, .refl⟩, fun _ => ⟨_, .enclosing _⟩⟩
  | enter around a ha ih =>
      have hparts : (∃ fault, (store.writtenOut around (.container a)).Flaw fault) ↔
          ∃ s ∈ (store a).slots, store.Flawed s ∨
            ∃ b ∈ a :: around, Relation.ReflTransGen store.Holds s (.container b) := by
        rw [writtenOut_of_notMem store ha]
        constructor
        · rintro ⟨fault, h⟩
          obtain ⟨s, hs, hflaw⟩ := Container.flaw_value_iff.1 h
          exact ⟨s, hs, (ih s hs).1 ⟨fault, hflaw⟩⟩
        · rintro ⟨s, hs, h⟩
          obtain ⟨fault, hflaw⟩ := (ih s hs).2 h
          exact ⟨fault, Container.flaw_value_iff.2 ⟨s, hs, hflaw⟩⟩
      rw [hparts]
      constructor
      · rintro ⟨s, hs, hflawed | ⟨b, hb, hmet⟩⟩
        · exact .inl (hflawed.of_slot hs)
        · rcases List.mem_cons.1 hb with rfl | hb
          · exact .inl (.loop .refl (.head' (.slot hs) hmet))
          · exact .inr ⟨b, hb, hmet.head (.slot hs)⟩
      · rintro ((⟨hv, hunfit⟩ | ⟨hb, hloop⟩) | ⟨b, hb, hmet⟩)
        · obtain heq | ⟨s, ⟨hs⟩, hv⟩ := hv.cases_head
          · cases heq
          · exact ⟨s, hs, .inl (.unfit hv hunfit)⟩
        · obtain heq | ⟨s, ⟨hs⟩, hb⟩ := hb.cases_head
          · cases heq
            obtain ⟨s, ⟨hs⟩, hmet⟩ := Relation.TransGen.head'_iff.1 hloop
            exact ⟨s, hs, .inr ⟨a, .head _, hmet⟩⟩
          · exact ⟨s, hs, .inl (.loop hb hloop)⟩
        · obtain heq | ⟨s, ⟨hs⟩, hmet⟩ := hmet.cases_head
          · cases heq
            exact absurd hb ha
          · exact ⟨s, hs, .inr ⟨b, .tail _ hb, hmet⟩⟩

end Store

theorem encoding_refused_iff_flawed :
    (∀ v : Value, ((∃ fault, v.encode = .error fault) ↔ v.Flawed) ∧
      ∀ fault, v.encode = .error fault → fault.kind = .encoding) ∧
    ∀ {n : Nat} (store : Store n) (s : Slot n) (depth : Nat), n ≤ depth → ∃ result,
      (store.encode depth s).Yields ∅ result ∧ result = (store.writtenOut [] s).encode ∧
        ((∃ fault, result = .error fault) ↔ store.Flawed s) ∧
        ∀ fault, result = .error fault → fault.kind = .encoding := by
  refine ⟨fun v => ⟨?_, fun _ => Value.kind_of_encode⟩, ?_⟩
  · exact Value.exists_encode_error_iff.trans Value.exists_flaw_iff
  · intro n store s depth hdepth
    refine ⟨_, store.yields_encode s hdepth, rfl, ?_, fun _ => Value.kind_of_encode⟩
    rw [Value.exists_encode_error_iff, Store.flaw_writtenOut_iff]
    simp

namespace Store

def twice : Store 2 := fun a =>
  if a = 0 then .list [.container 1, .container 1]
  else .record [("x", .plain (.integer 1) rfl)]

def selfish : Store 1 := fun _ =>
  .record [("a", .plain (.integer 1) rfl), ("self", .container 0)]

theorem flawed_selfish : selfish.Flawed (.container 0) :=
  .loop .refl (.single (.slot (.tail _ (.head _))))

theorem encode_twice : ((twice.encode 2 (.container 0)).run.run ∅).1.toOption =
    some [200, 195, 194, 120, 1, 195, 194, 120, 1] := by
  decide +kernel

end Store

theorem selfish_refused_and_twice_encoded :
    (∃ fault, (Store.selfish.encode 1 (.container 0)).Yields ∅ (.error fault) ∧
      fault.kind = .encoding) ∧
    (∃ b, (Store.twice.encode 2 (.container 0)).Yields ∅ (.ok b)) ∧
    ¬Store.twice.Flawed (.container 0) := by
  obtain ⟨_, hrefused⟩ := encoding_refused_iff_flawed
  obtain ⟨result, hyields, -, hiff, hkind⟩ := hrefused Store.selfish (.container 0) 1 (by decide)
  obtain ⟨fault, rfl⟩ := hiff.2 Store.flawed_selfish
  refine ⟨⟨fault, hyields, hkind fault rfl⟩, ?_⟩
  obtain ⟨result, hyields, -, hiff, -⟩ := hrefused Store.twice (.container 0) 2 (by decide)
  have hcode := Store.encode_twice
  rw [hyields] at hcode
  cases result with
  | error fault => cases hcode
  | ok b => exact ⟨⟨b, hyields⟩, hiff.not.1 (by simp)⟩

end BlockTree
