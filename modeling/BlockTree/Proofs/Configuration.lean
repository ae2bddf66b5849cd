import BlockTree.Proofs.Numerals
import BlockTree.Proofs.Reading
import BlockTree.Proofs.Rounding
import Mathlib.Data.List.Forall2

namespace BlockTree

namespace Reading

variable {α : Type}

inductive Decides (r : Reading α) (Means : α → Prop) : Prop
  | right (a : α) (means : Means a) (eq : r = hold a)
  | wrong (p : Problem) (none : ∀ a, ¬ Means a) (issues : r.issues = [⟨[], p⟩])

theorem decides_misfit {expected : String} {j : Json} {Means : α → Prop}
    (h : ∀ a, ¬ Means a) : (misfit expected j).Decides Means :=
  .wrong _ h rfl

theorem decides_choice {name : α → String} {options : List α} (hall : ∀ a, a ∈ options)
    (j : Json) : (choice name options j).Decides fun a => j = .text (name a) := by
  cases j with
  | text s =>
      simp only [choice]
      split
      · rename_i a hfound
        have hname : name a = s := by simpa using List.find?_some hfound
        exact .right a (congrArg Json.text hname.symm) rfl
      · rename_i hfound
        refine decides_misfit fun a ha => ?_
        have hne := List.find?_eq_none.1 hfound a (hall a)
        exact hne (decide_eq_true (Json.text.inj ha).symm)
  | _ => exact decides_misfit fun a => by simp

theorem Decides.means {r : Reading α} {Means : α → Prop} (h : r.Decides Means) {a : α}
    (ha : r.result = .ok a) : Means a := by
  cases h with
  | right b means eq =>
      obtain rfl := (result_hold b a).1 (eq ▸ ha)
      exact means
  | wrong p _ issues => simp [(result_eq_ok_iff.1 ha).2] at issues

theorem issues_of_result {r : Reading α} {issues : List Issue} (h : r.result = .error issues) :
    issues = r.issues := by
  obtain ⟨value, is⟩ := r
  cases value <;> cases is <;> simp_all [result]

theorem defaultField_cases (key : String) (fields : List (String × Json)) {default : Json}
    {read : Json → Reading α} {Means : Json → α → Prop} (h : ∀ j, (read j).Decides (Means j))
    (hdefault : ∃ a, Means default a) :
    (∃ a, Means ((Assoc.get? key fields).getD default) a ∧
        defaultField key default read fields = hold a) ∨
      ∃ j p, Assoc.get? key fields = some j ∧ (∀ a, ¬ Means j a) ∧
        (defaultField key default read fields).issues = [⟨[key], p⟩] := by
  cases h ((Assoc.get? key fields).getD default) with
  | right a means eq =>
      refine .inl ⟨a, means, ?_⟩
      rw [defaultField, eq]
      rfl
  | wrong p none issues =>
      cases hget : Assoc.get? key fields with
      | none =>
          obtain ⟨a, ha⟩ := hdefault
          exact absurd (hget ▸ ha) (none a)
      | some j =>
          rw [hget] at none issues
          refine .inr ⟨j, p, rfl, none, ?_⟩
          rw [defaultField, hget]
          simp only [under, issues]
          rfl

theorem means_of_defaultField {key : String} {default : Json} {read : Json → Reading α}
    {fields : List (String × Json)} {Means : Json → α → Prop} (h : ∀ j, (read j).Decides (Means j))
    {a : α} (ha : (defaultField key default read fields).result = .ok a) :
    Means ((Assoc.get? key fields).getD default) a :=
  (h _).means (result_under.1 ha)

theorem exists_result_of_defaultField {key : String} {default : Json} {read : Json → Reading α}
    {fields : List (String × Json)} {Means : Json → α → Prop} (h : ∀ j, (read j).Decides (Means j))
    (hdefault : ∃ a, Means default a) (hissues : (defaultField key default read fields).issues = []) :
    ∃ a, (defaultField key default read fields).result = .ok a := by
  rcases defaultField_cases key fields h hdefault with
    ⟨a, _, heq⟩ | ⟨_, p, _, _, hwrong⟩
  · exact ⟨a, by rw [heq, result_hold]⟩
  · rw [hissues] at hwrong
    simp at hwrong

end Reading

namespace Config

open Reading

def MeansNumber (Allowed : Nat → Prop) (j : Json) (x : Number) : Prop :=
  ∃ s n, j = .text s ∧ Spells s n ∧ Allowed n ∧ x = .ofDecimal false n 0

theorem decides_require {Allowed : Nat → Prop} {holds : Number → Bool} {problem : Number → Problem}
    (h : ∀ n, holds (.ofDecimal false n 0) = true ↔ Allowed n) (j : Json) :
    ((readDigits j).require holds problem).Decides (MeansNumber Allowed j) := by
  cases j with
  | text s =>
      cases hdigits : isDigits s with
      | true =>
          have hread : readDigits (.text s) = hold (.ofDecimal false (digitsValue s) 0) := by
            simp only [readDigits, Reading.text, require, hold, hdigits, if_true]
            rfl
          rw [hread]
          cases hholds : holds (.ofDecimal false (digitsValue s) 0) with
          | true =>
              refine .right _ ⟨s, _, rfl, spells_digitsValue hdigits, (h _).1 hholds, rfl⟩ ?_
              simp only [require, hold, hholds, if_true]
          | false =>
              refine .wrong (problem (.ofDecimal false (digitsValue s) 0)) ?_ ?_
              · rintro x ⟨s', n, hs, hn, hallowed, _⟩
                obtain rfl := Json.text.inj hs
                obtain rfl := hn.unique (spells_digitsValue hdigits)
                exact absurd ((h _).2 hallowed) (by simp [hholds])
              · simp [require, hold, hholds]
      | false =>
          have hread : (readDigits (.text s)).require holds problem =
              ⟨none, [⟨[], .notNonNegative⟩]⟩ := by
            simp [readDigits, Reading.text, require, hold, hdigits, convert]
          refine .wrong .notNonNegative ?_ (by rw [hread])
          rintro x ⟨s', n, hs, hn, _⟩
          obtain rfl := Json.text.inj hs
          exact absurd (spells_iff.1 hn).1 (by simp [hdigits])
  | _ =>
      refine .wrong (.wrongType "string" _) ?_ rfl
      rintro x ⟨s, n, hs, _⟩
      simp at hs

theorem decides_difficulty (j : Json) :
    (readDifficulty j).Decides (MeansNumber (· ≤ 255) j) := by
  refine decides_require (fun n => ?_) j
  have habove : (Number.ofDecimal false n 0).above 255 = decide (255 < n) :=
    Number.above_ofDecimal n (k := 255) (by decide)
  simp [habove]

theorem decides_batch (j : Json) : (readBatch j).Decides (MeansNumber (1 ≤ ·) j) := by
  refine decides_require (fun n => ?_) j
  have hbelow : (Number.ofDecimal false n 0).below 1 = decide (n < 1) :=
    Number.below_ofDecimal n (k := 1) (by decide)
  simp [hbelow, Nat.one_le_iff_ne_zero]

theorem decides_level (j : Json) : (readLevel j).Decides fun l => j = .text l.name :=
  decides_choice (fun l => by cases l <;> decide) j

theorem decides_pretty (j : Json) :
    (readPretty j).Decides fun b => j = .text (if b then "true" else "false") :=
  decides_choice (by decide) j

inductive Key where
  | level
  | pretty
  | difficulty
  | batch
  deriving DecidableEq, Repr

namespace Key

def name : Key → String
  | level => "LOG_LEVEL"
  | pretty => "LOG_PRETTY"
  | difficulty => "CHAIN_DIFFICULTY"
  | batch => "MINE_BATCH"

def all : List Key :=
  [level, pretty, difficulty, batch]

def Takes : Key → Json → Prop
  | level, j => ∃ l : LogLevel, j = .text l.name
  | pretty, j => j = .text "true" ∨ j = .text "false"
  | difficulty, j => ∃ s n, j = .text s ∧ Spells s n ∧ n ≤ 255
  | batch, j => ∃ s n, j = .text s ∧ Spells s n ∧ 1 ≤ n

def Bad (k : Key) (fields : List (String × Json)) : Prop :=
  ∃ j, Assoc.get? k.name fields = some j ∧ ¬ k.Takes j

def issues (fields : List (String × Json)) : Key → List Issue
  | level => (defaultField "LOG_LEVEL" (.text "info") readLevel fields).issues
  | pretty => (defaultField "LOG_PRETTY" (.text "false") readPretty fields).issues
  | difficulty => (defaultField "CHAIN_DIFFICULTY" (.text "16") readDifficulty fields).issues
  | batch => (defaultField "MINE_BATCH" (.text "1000") readBatch fields).issues

end Key

theorem issues_ofFields (fields : List (String × Json)) :
    (ofFields fields).issues = Key.all.flatMap (Key.issues fields) := by
  simp [ofFields, combine, Key.all, Key.issues]

theorem exists_meansNumber_iff {Allowed : Nat → Prop} {j : Json} :
    (∃ x, MeansNumber Allowed j x) ↔ ∃ s n, j = .text s ∧ Spells s n ∧ Allowed n := by
  constructor
  · rintro ⟨x, s, n, hs, hn, hallowed, _⟩
    exact ⟨s, n, hs, hn, hallowed⟩
  · rintro ⟨s, n, hs, hn, hallowed⟩
    exact ⟨_, s, n, hs, hn, hallowed, rfl⟩

theorem difficulty_default : ∃ x, MeansNumber (· ≤ 255) (.text "16") x :=
  exists_meansNumber_iff.2 ⟨"16", 16, rfl, ⟨0, by decide⟩, by decide⟩

theorem batch_default : ∃ x, MeansNumber (1 ≤ ·) (.text "1000") x :=
  exists_meansNumber_iff.2 ⟨"1000", 1000, rfl, ⟨0, by decide⟩, by decide⟩

namespace Key

variable {fields : List (String × Json)}

theorem judged_of_decides {α : Type} (k : Key) {default : Json} {read : Json → Reading α}
    {Means : Json → α → Prop} (h : ∀ j, (read j).Decides (Means j)) (hdefault : ∃ a, Means default a)
    (htakes : ∀ j, k.Takes j ↔ ∃ a, Means j a) :
    (¬ k.Bad fields ∧ (defaultField k.name default read fields).issues = []) ∨
      (k.Bad fields ∧
        ∃ p, (defaultField k.name default read fields).issues = [⟨[k.name], p⟩]) := by
  rcases defaultField_cases k.name fields h hdefault with
    ⟨a, ha, heq⟩ | ⟨j, p, hj, hnone, hissues⟩
  · refine .inl ⟨?_, congrArg Reading.issues heq⟩
    rintro ⟨j, hj, hnot⟩
    rw [hj] at ha
    exact hnot ((htakes j).2 ⟨a, ha⟩)
  · refine .inr ⟨⟨j, hj, fun htaken => ?_⟩, p, hissues⟩
    obtain ⟨a, ha⟩ := (htakes j).1 htaken
    exact hnone a ha

theorem judged (k : Key) (fields : List (String × Json)) :
    (¬ k.Bad fields ∧ k.issues fields = []) ∨
      (k.Bad fields ∧ ∃ p, k.issues fields = [⟨[k.name], p⟩]) := by
  cases k
  case level => exact judged_of_decides level decides_level ⟨.info, rfl⟩ fun j => Iff.rfl
  case pretty =>
    refine judged_of_decides pretty decides_pretty ⟨false, rfl⟩ fun j => ?_
    rw [Bool.exists_bool]
    exact or_comm
  case difficulty =>
    exact judged_of_decides difficulty decides_difficulty difficulty_default
      fun j => exists_meansNumber_iff.symm
  case batch =>
    exact judged_of_decides batch decides_batch batch_default
      fun j => exists_meansNumber_iff.symm

theorem exists_bad (fields : List (String × Json)) (keys : List Key) :
    ∃ bad : List Key, bad.Sublist keys ∧ (∀ k ∈ keys, k ∈ bad ↔ k.Bad fields) ∧
      List.Forall₂ (fun k i => i.path = [k.name]) bad (keys.flatMap (issues fields)) := by
  induction keys with
  | nil => exact ⟨[], .slnil, by simp, .nil⟩
  | cons key keys ih =>
      obtain ⟨bad, hsub, hbad, hissues⟩ := ih
      have hrest : ∀ k ∈ bad, k.Bad fields := fun k hk => (hbad k (hsub.subset hk)).1 hk
      rcases key.judged fields with ⟨hgood, hnone⟩ | ⟨hkey, p, hone⟩
      · refine ⟨bad, hsub.cons _, fun k hk => ?_, ?_⟩
        · rcases List.mem_cons.1 hk with rfl | hk
          · exact ⟨hrest k, fun h => absurd h hgood⟩
          · exact hbad k hk
        · rw [List.flatMap_cons, hnone]
          exact hissues
      · refine ⟨key :: bad, hsub.cons_cons _, fun k hk => ?_, ?_⟩
        · rcases List.mem_cons.1 hk with rfl | hk
          · exact ⟨fun _ => hkey, fun _ => .head _⟩
          · rw [List.mem_cons, ← hbad k hk]
            exact ⟨fun h => h.elim (fun heq => (hbad k hk).2 (heq ▸ hkey)) id, .inr⟩
        · rw [List.flatMap_cons, hone]
          exact .cons rfl hissues

theorem mem_all (k : Key) : k ∈ all := by
  cases k <;> decide

end Key

theorem exists_config {fields : List (String × Json)} (h : (ofFields fields).issues = []) :
    ∃ c, load (.object fields) = .ok c := by
  obtain ⟨⟨hlevel, hpretty⟩, hdifficulty, hbatch⟩ :
      (_ ∧ _) ∧ _ ∧ _ := by simpa only [ofFields, combine, List.append_eq_nil_iff] using h
  obtain ⟨level, hlevel⟩ := exists_result_of_defaultField decides_level ⟨.info, rfl⟩ hlevel
  obtain ⟨pretty, hpretty⟩ := exists_result_of_defaultField decides_pretty ⟨false, rfl⟩ hpretty
  obtain ⟨difficulty, hdifficulty⟩ :=
    exists_result_of_defaultField decides_difficulty difficulty_default hdifficulty
  obtain ⟨batch, hbatch⟩ := exists_result_of_defaultField decides_batch batch_default hbatch
  exact ⟨_, result_combine.2 ⟨_, _, result_combine.2 ⟨level, pretty, hlevel, hpretty, rfl⟩,
    result_combine.2 ⟨difficulty, batch, hdifficulty, hbatch, rfl⟩, rfl⟩⟩

theorem issues_name_bad_keys (fields : List (String × Json)) :
    ((∃ c, load (.object fields) = .ok c) ↔
      ∀ (k : Key) (j : Json), Assoc.get? k.name fields = some j → k.Takes j) ∧
    ∀ issues, load (.object fields) = .error issues →
      ∃ bad : List Key, bad.Sublist Key.all ∧ (∀ k : Key, k ∈ bad ↔ k.Bad fields) ∧
        List.Forall₂ (fun k i => i.path = [k.name] ∧ i.text = k.name ++ ": " ++ i.problem.message)
          bad issues := by
  obtain ⟨bad, hsub, hbad, hissues⟩ := Key.exists_bad fields Key.all
  rw [← issues_ofFields] at hissues
  refine ⟨⟨?_, fun hgood => ?_⟩, fun issues herror => ?_⟩
  · rintro ⟨c, hc⟩ k j hj
    have hnone : (ofFields fields).issues = [] := (result_eq_ok_iff.1 hc).2
    rw [hnone] at hissues
    obtain rfl := List.forall₂_nil_right_iff.1 hissues
    by_contra hnot
    exact absurd ((hbad k k.mem_all).2 ⟨j, hj, hnot⟩) (by simp)
  · have hnone : bad = [] := by
      refine List.eq_nil_iff_forall_not_mem.2 fun k hk => ?_
      obtain ⟨j, hj, hnot⟩ := (hbad k k.mem_all).1 hk
      exact hnot (hgood k j hj)
    rw [hnone, List.forall₂_nil_left_iff] at hissues
    exact exists_config hissues
  · obtain rfl := issues_of_result herror
    refine ⟨bad, hsub, fun k => hbad k k.mem_all, hissues.imp fun k i hpath => ⟨hpath, ?_⟩⟩
    rw [Issue.text, hpath]
    rfl

end Config

end BlockTree
