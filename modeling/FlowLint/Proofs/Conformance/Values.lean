import FlowLint.Grammar.ErrorHandling
import FlowLint.Proofs.Conformance.Objects
import FlowLint.Proofs.Grammar.Language

/-!
What the constraints on single values say. Each of them is one sort of values of the language.
-/

namespace FlowLint

open Workflow

/-- Of a container a plain constraint looks at the type alone. -/
def Constraint.isPlain : Constraint → Bool
  | .anything | .text _ _ | .number _ | .boolean | .timestamp => true
  | _                                                         => false

namespace Json

/-! ### Bounds -/

/-- To compare with a small integer, a float is as good as the number it stands for. -/
theorem not_lt_ofInt_iff (n : Number) {a : ℤ} (small : a.natAbs < 2 ^ 53) :
    n.toBinary64.lt (.ofInt a) = false ↔ a ≤ n.exact := by
  rw [← Bool.not_eq_true, n.toBinary64_lt_ofInt_iff small, not_lt]

theorem not_ofInt_lt_iff (n : Number) {a : ℤ} (small : a.natAbs < 2 ^ 53) :
    (Binary64.ofInt a).lt n.toBinary64 = false ↔ n.exact ≤ a := by
  rw [← Bool.not_eq_true, n.ofInt_lt_toBinary64_iff small, not_lt]

/-- A rule on numbers asks for an integer, for a least and for a most, each if it says so. -/
theorem violated_eq_nil_iff (r : NumberRule) (n : Number) : r.violated n = [] ↔
    (r.whole → ∃ k : ℤ, n.exact = k) ∧ (∀ least ∈ r.least, n.toBinary64.lt least = false) ∧
      ∀ most ∈ r.most, most.lt n.toBinary64 = false := by
  rw [← n.isWhole_toBinary64_iff]
  obtain ⟨whole, least, most⟩ := r
  simp only [NumberRule.violated, List.append_eq_nil_iff, and_assoc]
  refine and_congr ?_ (and_congr ?_ ?_)
  · cases whole <;> cases n.toBinary64.isWhole <;> simp
  · cases least <;> simp
  · cases most <;> simp

variable [Formats] {v : Json}

/-- A plain constraint is checked in one place, that of the value. -/
theorem violations_plain {c : Constraint} (h : c.isPlain) (p : Path) :
    violations v c p = (c.violatedBy v).map (⟨p, ·⟩) := by
  cases c with
  | list => cases h
  | positions => cases h
  | record => cases h
  | choiceRule => cases h
  | _ => cases v <;> rfl

theorem meets_plain_iff {c : Constraint} (h : c.isPlain) : v.Meets c ↔ c.violatedBy v = [] := by
  rw [Meets, violations_plain h, List.map_eq_nil_iff]

/-! ### Texts -/

/-- Any value will do. -/
@[simp] theorem meets_anything : v.Meets .anything := (meets_plain_iff rfl).2 rfl

@[simp] theorem meets_oneOf_iff {names : List String} :
    v.Meets (.oneOf names) ↔ IsOneOf names v := by
  rw [Constraint.oneOf, meets_plain_iff rfl]
  cases v with
  | string s => simp [Constraint.violatedBy, IsOneOf]
  | _ => simp [Constraint.violatedBy, IsOneOf]

theorem TextFormat.plain_violated_iff (s : String) :
    TextFormat.plain.violated s = [] ↔ s ≠ "" := by
  rw [TextFormat.violated]
  by_cases h : s = ""
  · simp [h]
  · simp [h]

@[simp] theorem meets_anyText_iff : v.Meets .anyText ↔ IsText v := by
  rw [Constraint.anyText, meets_plain_iff rfl]
  cases v with
  | string s => simp [Constraint.violatedBy, IsText, TextFormat.plain_violated_iff]
  | _ => simp [Constraint.violatedBy, IsText]

/-- Whether a text that is not empty is a URI is for the given formats to say. -/
@[simp] theorem meets_uri_iff : v.Meets (.text none .uri) ↔ IsUri v := by
  rw [meets_plain_iff rfl]
  cases v with
  | string s =>
    rw [Constraint.violatedBy, TextFormat.violated]
    by_cases h : s = ""
    · simp [h, IsUri]
    · by_cases valid : Formats.isUri s
      · simp [h, valid, IsUri]
      · simp [h, valid, IsUri]
  | _ => simp [Constraint.violatedBy, IsUri]

@[simp] theorem meets_boolean_iff : v.Meets .boolean ↔ IsFlag v := by
  rw [meets_plain_iff rfl]
  cases v <;> simp [Constraint.violatedBy, IsFlag]

theorem isValid_iff_saysTime (s : String) : Format.Timestamp.isValid s ↔ SaysTime s := by
  simp [Format.Timestamp.isValid, SaysTime]

/-- Any number will do, and of the texts those that say a time. -/
theorem isTimestamp_iff : v.isTimestamp ↔ IsTimestamp v := by
  cases v <;> simp [IsTimestamp, IsNumber, Json.isTimestamp, isValid_iff_saysTime]

@[simp] theorem meets_timestamp_iff : v.Meets .timestamp ↔ IsTimestamp v := by
  rw [← isTimestamp_iff, meets_plain_iff rfl, Constraint.violatedBy]
  split <;> simp_all

/-! ### Numbers -/

/-- Whatever is asked of a number, nothing else is one. -/
theorem meets_number_iff {r : NumberRule} :
    v.Meets (.number r) ↔ ∃ n, v = .number n ∧ r.violated n = [] := by
  rw [meets_plain_iff rfl]
  cases v <;> simp [Constraint.violatedBy]

@[simp] theorem meets_anyNumber_iff : v.Meets (.number ⟨false, none, none⟩) ↔ IsNumber v := by
  rw [meets_number_iff]
  simp [NumberRule.violated, IsNumber]

@[simp] theorem meets_positive_iff : v.Meets .positive ↔ IsPositive v := by
  rw [Constraint.positive, meets_number_iff]
  refine exists_congr fun n => and_congr_right' ?_
  simp [violated_eq_nil_iff, not_lt_ofInt_iff n (a := 1) (by decide)]

/-- A bound is compared as a float, which is exact as long as it is small. -/
theorem meets_integerFrom_iff {least : ℤ} (small : least.natAbs < 2 ^ 53) :
    v.Meets (.number ⟨true, some (.ofInt least), none⟩) ↔ IsIntegerFrom least v := by
  rw [meets_number_iff]
  refine exists_congr fun n => and_congr_right' ?_
  simp only [violated_eq_nil_iff, forall_const, Option.mem_def, Option.some.injEq, forall_eq',
    not_lt_ofInt_iff n small, reduceCtorEq, false_implies, implies_true, and_true]
  constructor
  · rintro ⟨⟨k, hk⟩, h⟩
    rw [hk, Int.cast_le] at h
    exact ⟨k, hk, h⟩
  · rintro ⟨k, hk, h⟩
    rw [hk, Int.cast_le]
    exact ⟨⟨k, rfl⟩, h⟩

theorem meets_count_iff {least : ℤ} (small : least.natAbs < 2 ^ 53) :
    v.Meets (.count least) ↔ IsCount least v := by
  rw [Constraint.count, Constraint.maxCount, meets_number_iff]
  refine exists_congr fun n => and_congr_right' ?_
  simp only [violated_eq_nil_iff, forall_const, Option.mem_some_iff, forall_eq',
    not_lt_ofInt_iff n small, not_ofInt_lt_iff n (a := 99999998) (by decide)]
  constructor
  · rintro ⟨⟨k, hk⟩, low, high⟩
    rw [hk, Int.cast_le] at low high
    exact ⟨k, hk, low, high⟩
  · rintro ⟨k, hk, low, high⟩
    rw [hk, Int.cast_le, Int.cast_le]
    exact ⟨⟨k, rfl⟩, low, high⟩

end Json

end FlowLint
