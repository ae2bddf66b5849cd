import BlockTree.Proofs.MachineEncoding
import BlockTree.Proofs.Refusals

namespace BlockTree

def OneLine (cs : List Char) : Prop :=
  ∀ c ∈ cs, 32 ≤ c.toNat

instance (cs : List Char) : Decidable (OneLine cs) :=
  decidable_of_iff (cs.all (fun c => decide (32 ≤ c.toNat)) = true) (by simp [OneLine])

namespace OneLine

variable {cs ds : List Char} {c : Char}

theorem cons (hcs : OneLine cs) (hc : 32 ≤ c.toNat) : OneLine (c :: cs) :=
  List.forall_mem_cons.2 ⟨hc, hcs⟩

theorem append (hcs : OneLine cs) (hds : OneLine ds) : OneLine (cs ++ ds) :=
  List.forall_mem_append.2 ⟨hcs, hds⟩

theorem of_subset (hds : OneLine ds) (h : cs ⊆ ds) : OneLine cs :=
  fun c hc => hds c (h hc)

theorem toDigits (n : Nat) : OneLine (Nat.toDigits 10 n) := by
  intro c hc
  have hdigit := Char.isDigit_iff_toNat.1 (Nat.isDigit_of_mem_toDigits (by decide) (by decide) hc)
  exact Nat.le_trans (by decide) hdigit.1

theorem zeros (n : Int) : OneLine (Decimal.zeros n) := by
  intro c hc
  rw [List.eq_of_mem_replicate hc]
  decide

theorem layout (d : Decimal) : OneLine d.layout := by
  have hdigits := toDigits d.digits
  have hexponent : ∀ (e : Int), OneLine ('e' :: (if e < 0 then '-' else '+') ::
      Nat.toDigits 10 e.natAbs) := by
    intro e
    refine ((toDigits _).cons ?_).cons (by decide)
    split <;> decide
  unfold Decimal.layout
  simp only
  split
  · exact hdigits.append (zeros _)
  split
  · exact (hdigits.of_subset (List.take_subset _ _)).append
      ((hdigits.of_subset (List.drop_subset _ _)).cons (by decide))
  split
  · exact (((zeros _).append hdigits).cons (by decide)).cons (by decide)
  split
  · rename_i c heq
    rw [heq] at hdigits
    exact (hexponent _).cons (hdigits c (.head _))
  · rename_i c rest _ heq
    rw [heq] at hdigits
    have hrest := hdigits.of_subset (List.subset_cons_self _ _)
    exact ((hrest.append (hexponent _)).cons (by decide)).cons (hdigits c (.head _))
  · exact hexponent _

theorem number_text (negative : Bool) (m : Nat) (e : Int) :
    OneLine (Number.finite negative m e).text.toList := by
  rw [Number.text]
  split
  · decide
  · rw [String.toList_ofList]
    refine append ?_ (layout _)
    cases negative <;> decide

end OneLine

namespace Json

theorem oneLine_escape_control : ∀ n < 32, OneLine (escape (Char.ofNat n)) := by
  decide

theorem oneLine_escape (c : Char) : OneLine (escape c) := by
  by_cases hc : 32 ≤ c.toNat
  · unfold escape
    split
    · decide
    split
    · decide
    · exact .cons nofun hc
  · rw [← Char.ofNat_toNat c]
    exact oneLine_escape_control _ (Nat.not_le.1 hc)

theorem oneLine_quoted (s : String) : OneLine (quoted s) := by
  refine .append (.cons ?_ (by decide)) (by decide)
  intro d hd
  obtain ⟨c, _, hd⟩ := List.mem_flatMap.1 hd
  exact oneLine_escape c d hd

theorem oneLine_numberChars (x : Number) : OneLine (numberChars x) := by
  cases x with
  | finite negative m e => exact OneLine.number_text negative m e
  | nan => decide
  | infinite negative => exact (by decide : OneLine "null".toList)

mutual

theorem oneLine_chars : ∀ j : Json, OneLine j.chars
  | .null => by rw [chars]; decide
  | .bool b => by cases b <;> rw [chars] <;> decide
  | .number x => by
      rw [chars]
      exact oneLine_numberChars x
  | .text s => by
      rw [chars]
      exact oneLine_quoted s
  | .array [] => by rw [chars]; decide
  | .array (x :: xs) => by
      rw [chars]
      exact ((oneLine_chars x).cons (by decide)).append (oneLine_itemChars xs)
  | .object [] => by rw [chars]; decide
  | .object ((k, x) :: fs) => by
      rw [chars]
      exact ((oneLine_quoted k).cons (by decide)).append ((oneLine_chars x).cons (by decide))
        |>.append (oneLine_fieldChars fs)

theorem oneLine_itemChars : ∀ xs : List Json, OneLine (itemChars xs)
  | [] => by rw [itemChars]; decide
  | x :: xs => by
      rw [itemChars]
      exact ((oneLine_chars x).cons (by decide)).append (oneLine_itemChars xs)

theorem oneLine_fieldChars : ∀ fs : List (String × Json), OneLine (fieldChars fs)
  | [] => by rw [fieldChars]; decide
  | (k, x) :: fs => by
      rw [fieldChars]
      exact ((oneLine_quoted k).cons (by decide)).append ((oneLine_chars x).cons (by decide))
        |>.append (oneLine_fieldChars fs)

end

end Json

namespace Value

def answer? : Value → Option (Except String Value)
  | .function answer => some answer
  | _ => none

def method? : List (String × Value) → Option (Except String Value)
  | [] => none
  | (k, v) :: fs => if k = "toJSON" then v.answer? else method? fs

-- no document can be made, whether or not the value is asked: the walk comes upon a container that
-- it is in, an integer as an object, or a method that throws
inductive Untold : Bool → Value → Prop where
  | enclosing {ask : Bool} (depth : Nat) : Untold ask (.enclosing depth)
  | boxed {ask : Bool} (n : Int) : Untold ask (.boxed n)
  | item {ask : Bool} {items : List Value} {v : Value} (hv : v ∈ items) (h : Untold true v) :
      Untold ask (.list items)
  | field {ask : Bool} {fields : List (String × Value)} {k : String} {v : Value}
      (hsilent : ask = true → method? fields = none) (hv : (k, v) ∈ fields) (h : Untold true v) :
      Untold ask (.record fields)
  | throws {fields : List (String × Value)} {message : String}
      (hmethod : method? fields = some (.error message)) : Untold true (.record fields)
  | answered {fields : List (String × Value)} {v : Value} (hmethod : method? fields = some (.ok v))
      (h : Untold false v) : Untold true (.record fields)

def heard : Except String Value → Except Fault (Option Json)
  | .ok v => document false v
  | .error message => .error (.thrown message)

theorem answered?_eq (v : Value) : answered? v = v.answer?.map heard := by
  cases v with
  | function answer => cases answer <;> rw [answered?] <;> rfl
  | _ => rw [answered?] <;> first | rfl | nofun

theorem told?_eq (fields : List (String × Value)) : told? fields = (method? fields).map heard := by
  induction fields with
  | nil => rw [told?]; rfl
  | cons f fields ih =>
      rw [told?, method?]
      split
      · exact answered?_eq f.2
      · exact ih

theorem documentItems_eq_map (vs : List Value) : documentItems vs = vs.map (document true) := by
  induction vs with
  | nil => rw [documentItems]; rfl
  | cons v vs ih => rw [documentItems, ih, List.map_cons]

theorem documentFields_eq_map (fs : List (String × Value)) :
    documentFields fs = fs.map fun f => (f.1, document true f.2) := by
  induction fs with
  | nil => rw [documentFields]; rfl
  | cons f fs ih => rw [documentFields, ih, List.map_cons]

theorem error_mem_of_gather {fields : List (String × Except Fault (Option Json))} {fault : Fault}
    (h : gather fields = .error fault) : ∃ k, (k, .error fault) ∈ fields := by
  obtain ⟨⟨k, d⟩, hmem, hd⟩ := List.mem_map.1 (error_mem_of_collect (bind_pure_eq_error_iff.1 h))
  obtain rfl : d = .error fault := map_eq_error_iff.1 hd
  exact ⟨k, hmem⟩

theorem gather_of_error_mem {fields : List (String × Except Fault (Option Json))} {k : String}
    {fault : Fault} (h : (k, .error fault) ∈ fields) :
    ∃ reported, gather fields = .error reported := by
  have hmem : .error fault ∈ fields.map fun f => f.2.map (Prod.mk f.1) :=
    List.mem_map.2 ⟨_, h, rfl⟩
  obtain ⟨reported, hreported⟩ := collect_of_error_mem hmem
  exact ⟨reported, bind_pure_eq_error_iff.2 hreported⟩

mutual

theorem untold_of_document : ∀ {ask : Bool} {v : Value} {fault : Fault},
    document ask v = .error fault → Untold ask v
  | _, .null, _, h | _, .absent, _, h | _, .bool _, _, h | _, .integer _, _, h | _, .text _, _, h
  | _, .bytes _, _, h | _, .symbol, _, h | _, .function _, _, h | _, .failure _, _, h
  | _, .dict _, _, h | _, .set _, _, h => by
      rw [document] at h
      cases h
  | _, .number x, _, h => by cases x <;> simp [document] at h
  | _, .enclosing depth, _, _ => .enclosing depth
  | _, .boxed n, _, _ => .boxed n
  | ask, .list items, fault, h => by
      rw [document] at h
      obtain ⟨v, hv, huntold⟩ :=
        untold_of_documentItems (error_mem_of_collect (bind_pure_eq_error_iff.1 h))
      exact .item hv huntold
  | ask, .record fields, fault, h => by
      rw [document] at h
      split at h
      · rename_i hasked
        cases ask with
        | false => cases hasked
        | true =>
            subst h
            rcases untold_of_told hasked with ⟨message, hmethod⟩ | ⟨v, hmethod, huntold⟩
            · exact .throws hmethod
            · exact .answered hmethod huntold
      · rename_i hasked
        obtain ⟨k, hmem⟩ := error_mem_of_gather (bind_pure_eq_error_iff.1 h)
        obtain ⟨v, hv, huntold⟩ := untold_of_documentFields (Sorting.mem_sort.1 hmem)
        refine .field (fun hask => ?_) hv huntold
        rw [if_pos hask, told?_eq] at hasked
        exact Option.map_eq_none_iff.1 hasked

theorem untold_of_documentItems : ∀ {vs : List Value} {fault : Fault},
    .error fault ∈ documentItems vs → ∃ v, v ∈ vs ∧ Untold true v
  | [], _, h => by simp [documentItems] at h
  | v :: vs, fault, h => by
      rw [documentItems, List.mem_cons] at h
      rcases h with h | h
      · exact ⟨v, .head _, untold_of_document h.symm⟩
      · obtain ⟨w, hw, huntold⟩ := untold_of_documentItems h
        exact ⟨w, .tail _ hw, huntold⟩

theorem untold_of_documentFields : ∀ {fs : List (String × Value)} {k : String} {fault : Fault},
    (k, .error fault) ∈ documentFields fs → ∃ v, (k, v) ∈ fs ∧ Untold true v
  | [], _, _, h => by simp [documentFields] at h
  | (k', v) :: fs, k, fault, h => by
      rw [documentFields, List.mem_cons] at h
      rcases h with h | h
      · obtain ⟨rfl, hv⟩ := Prod.mk.inj h
        exact ⟨v, .head _, untold_of_document hv.symm⟩
      · obtain ⟨w, hw, huntold⟩ := untold_of_documentFields h
        exact ⟨w, .tail _ hw, huntold⟩

theorem untold_of_told : ∀ {fs : List (String × Value)} {fault : Fault},
    told? fs = some (.error fault) → (∃ message, method? fs = some (.error message)) ∨
      ∃ v, method? fs = some (.ok v) ∧ Untold false v
  | [], _, h => by simp [told?] at h
  | (k, v) :: fs, fault, h => by
      rw [told?] at h
      rw [method?]
      split at h
      · rename_i hk
        rw [if_pos hk]
        exact untold_of_answered h
      · rename_i hk
        rw [if_neg hk]
        exact untold_of_told h

theorem untold_of_answered : ∀ {v : Value} {fault : Fault},
    answered? v = some (.error fault) → (∃ message, v.answer? = some (.error message)) ∨
      ∃ w, v.answer? = some (.ok w) ∧ Untold false w
  | .function (.ok w), fault, h => by
      rw [answered?] at h
      exact .inr ⟨w, rfl, untold_of_document (Option.some.inj h)⟩
  | .function (.error message), _, _ => .inl ⟨message, rfl⟩
  | .null, _, h | .absent, _, h | .bool _, _, h | .number _, _, h | .integer _, _, h
  | .text _, _, h | .bytes _, _, h | .symbol, _, h | .boxed _, _, h | .failure _, _, h
  | .list _, _, h | .record _, _, h | .dict _, _, h | .set _, _, h | .enclosing _, _, h => by
      simp [answered?] at h

end

theorem exists_document_error {ask : Bool} {v : Value} (h : Untold ask v) :
    ∃ fault, document ask v = .error fault := by
  induction h with
  | enclosing depth => exact ⟨_, by rw [document]⟩
  | boxed n => exact ⟨_, by rw [document]⟩
  | item hv _ ih =>
      obtain ⟨fault, hfault⟩ := ih
      rw [document, documentItems_eq_map]
      obtain ⟨reported, hreported⟩ := collect_of_error_mem (List.mem_map.2 ⟨_, hv, hfault⟩)
      exact ⟨reported, bind_pure_eq_error_iff.2 hreported⟩
  | @field ask fields k v hsilent hv _ ih =>
      obtain ⟨fault, hfault⟩ := ih
      have hasked : (if ask then told? fields else none) = none := by
        cases ask with
        | false => rfl
        | true => rw [if_pos rfl, told?_eq, hsilent rfl]; rfl
      have hmem : (k, .error fault) ∈ fields.map fun f => (f.1, document true f.2) :=
        List.mem_map.2 ⟨(k, v), hv, congrArg (Prod.mk k) hfault⟩
      rw [document, hasked, documentFields_eq_map]
      obtain ⟨reported, hreported⟩ := gather_of_error_mem (Sorting.mem_sort.2 hmem)
      exact ⟨reported, bind_pure_eq_error_iff.2 hreported⟩
  | throws hmethod =>
      rw [document, if_pos rfl, told?_eq, hmethod]
      exact ⟨_, rfl⟩
  | answered hmethod _ ih =>
      rw [document, if_pos rfl, told?_eq, hmethod]
      exact ih

theorem exists_document_error_iff {ask : Bool} {v : Value} :
    (∃ fault, document ask v = .error fault) ↔ Untold ask v :=
  ⟨fun ⟨_, h⟩ => untold_of_document h, exists_document_error⟩

-- nothing in the value has a say in how it is shown
def Inert (v : Value) : Prop :=
  ∀ w, v.Contains w → (∀ n, w ≠ .boxed n) ∧ ∀ fields, w = .record fields → method? fields = none

namespace Inert

variable {v w : Value}

theorem of_part (h : v.Inert) (hw : w ∈ v.parts) : w.Inert :=
  fun x hx => h x (hx.head hw)

end Inert

theorem display_eq {v : Value} (h : ∀ message, v ≠ .failure message) :
    v.display = (do
      let j? ← v.document true
      return (match j? with
        | some j => j.render
        | none => "undefined")) := by
  cases v with
  | failure message => exact absurd rfl (h message)
  | _ => rfl

theorem exists_display_error_iff {v : Value} (h : ∀ message, v ≠ .failure message) :
    (∃ fault, v.display = .error fault) ↔ Untold true v := by
  rw [← exists_document_error_iff, display_eq h]
  exact exists_congr fun _ => bind_pure_eq_error_iff

theorem method?_eq_none {fields : List (String × Value)} (h : ∀ f ∈ fields, f.2.answer? = none) :
    method? fields = none := by
  induction fields with
  | nil => rfl
  | cons f fields ih =>
      obtain ⟨k, v⟩ := f
      rw [method?]
      split
      · exact h (k, v) (.head _)
      · exact ih fun g hg => h g (.tail _ hg)

theorem exists_display_record {fields : List (String × Value)}
    (h : ∀ f ∈ fields, (∃ s, f.2 = .text s) ∨ ∃ n, f.2 = .integer n) :
    ∃ text, (record fields).display = .ok text := by
  have hmethod : method? fields = none := by
    refine method?_eq_none fun f hf => ?_
    rcases h f hf with ⟨s, hs⟩ | ⟨n, hn⟩
    · rw [hs, answer?]
      nofun
    · rw [hn, answer?]
      nofun
  cases htext : (record fields).display with
  | ok text => exact ⟨text, rfl⟩
  | error fault =>
      have hrecord : ∀ message, record fields ≠ failure message := fun _ heq => nomatch heq
      cases (exists_display_error_iff hrecord).1 ⟨fault, htext⟩ with
      | field _ hv hu =>
          rcases h _ hv with ⟨s, rfl⟩ | ⟨n, rfl⟩ <;> cases hu
      | throws hthrows | answered hthrows =>
          rw [hmethod] at hthrows
          cases hthrows

end Value

namespace Rejection

variable {E : Type}

theorem describe_invalidTransition (causeValue : E → Value) (failure : TransitionFailure E) :
    (invalidTransition failure).describe causeValue =
      (causeValue failure.cause).display.map
        ("extrinsic " ++ toString failure.index ++ " failed: " ++ ·) := by
  change Except.bind _ _ = _
  cases (causeValue failure.cause).display <;> rfl

end Rejection

namespace Machine

variable {S T E : Type}

def CausesTold (m : Machine S T E) : Prop :=
  ∀ cause, ∃ text, (m.causeValue cause).display = .ok text

theorem CausesTold.exists_describe {m : Machine S T E} (h : m.CausesTold) (reason : Rejection E) :
    ∃ text, reason.describe m.causeValue = .ok text := by
  cases reason with
  | invalidTransition failure =>
      obtain ⟨text, htext⟩ := h failure.cause
      rw [Rejection.describe_invalidTransition, htext]
      exact ⟨_, rfl⟩
  | _ => exact ⟨_, rfl⟩

end Machine

theorem Genesis.Kind.causesTold (k : Kind) : k.machine.CausesTold := by
  cases k with
  | lightSwitch | twoSwitches | atm => exact nofun
  | currency =>
      rintro (_ | account | ⟨account, available, requested⟩) <;>
        exact Value.exists_display_record (by simp)
  | cash =>
      rintro (_ | _ | serial | serial | ⟨expected, actual⟩ | _ | ⟨spent, received⟩) <;>
        exact Value.exists_display_record (by simp)
  | sumProduct =>
      rintro ⟨value⟩
      exact Value.exists_display_record (by simp)

end BlockTree
