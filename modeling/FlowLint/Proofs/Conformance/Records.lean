import FlowLint.Proofs.Conformance.Values
import Mathlib.Data.List.Nodup

/-!
Records. Where no name repeats, an object passes the check of a shape if each of its members is one
that a field admits and none that a field requires is missing.
-/

namespace FlowLint

open Workflow

namespace Field

variable (name : String) (r : Constraint) (condition : Bool) (k : String) (v : Json)

/-- The field lets a member of that name have that value. -/
def Admits [Formats] (f : Field Constraint) (k : String) (v : Json) : Prop :=
  f.name = k ∧
    match f.demand with
    | .optional rule => v.Meets rule
    | .required rule => v.Meets rule
    | .forbidden     => False

def IsRequired (f : Field Constraint) : Prop :=
  match f.demand with
  | .required _ => True
  | _           => False

@[simp] theorem name_optional : (optional name r).name = name := rfl

@[simp] theorem name_required : (required name r).name = name := rfl

@[simp] theorem name_optionalIf : (optionalIf condition name r).name = name := by
  cases condition <;> rfl

@[simp] theorem name_requiredIf : (requiredIf condition name r).name = name := by
  cases condition <;> rfl

section

variable [Formats]

@[simp] theorem admits_optional : (optional name r).Admits k v ↔ name = k ∧ v.Meets r := Iff.rfl

@[simp] theorem admits_required : (required name r).Admits k v ↔ name = k ∧ v.Meets r := Iff.rfl

@[simp] theorem admits_optionalIf :
    (optionalIf condition name r).Admits k v ↔ condition ∧ name = k ∧ v.Meets r := by
  cases condition <;> simp [optionalIf, Admits, forbidden, optional]

@[simp] theorem admits_requiredIf :
    (requiredIf condition name r).Admits k v ↔ condition ∧ name = k ∧ v.Meets r := by
  cases condition <;> simp [requiredIf, Admits, forbidden, required]

end

@[simp] theorem isRequired_optional : ¬ (optional name r).IsRequired := not_false

@[simp] theorem isRequired_required : (required name r).IsRequired := trivial

@[simp] theorem isRequired_optionalIf : ¬ (optionalIf condition name r).IsRequired := by
  cases condition <;> exact not_false

@[simp] theorem isRequired_requiredIf : (requiredIf condition name r).IsRequired ↔ condition := by
  cases condition <;> simp [requiredIf, IsRequired, forbidden, required]

end Field

namespace Json

variable {ms : List (String × Json)} {s : Shape Constraint}

variable [Formats]

/-- What a field asks, told by the members of its name. -/
theorem holds_iff (f : Field Constraint) : f.Holds Meets ms ↔
    (f.IsRequired → f.name ∈ names ms) ∧ ∀ v, ms.lookup f.name = some v → f.Admits f.name v := by
  simp only [Field.Holds, Field.IsRequired, Field.Admits, true_and]
  cases f.demand with
  | optional rule => exact ⟨fun h => ⟨False.elim, h⟩, fun h => h.2⟩
  | required rule =>
    constructor
    · rintro ⟨v, hv, meets⟩
      refine ⟨fun _ => exists_lookup_iff.1 ⟨v, hv⟩, fun w hw => ?_⟩
      cases hv.symm.trans hw
      exact meets
    · rintro ⟨there, meets⟩
      obtain ⟨v, hv⟩ := exists_lookup_iff.2 (there trivial)
      exact ⟨v, hv, meets v hv⟩
  | forbidden =>
    rw [← exists_lookup_iff, not_exists]
    exact ⟨fun h => ⟨False.elim, h⟩, fun h => h.2⟩

/-- Fields of different names, asked one by one, say the same as members, looked at one by one. -/
theorem meets_object_iff (distinct : (names ms).Nodup) {c : Constraint} (hs : c.shape? = some s)
    (fields : (s.fields.map Field.name).Nodup) : (Json.object ms).Meets c ↔
      (∀ m ∈ ms, ∃ f ∈ s.fields, f.Admits m.1 m.2) ∧
        (∀ f ∈ s.fields, f.IsRequired → f.name ∈ names ms) ∧
          ∀ r ∈ s.peers, r.Holds (names ms) := by
  rw [Meets, violations_object_eq_nil_iff ms hs]
  simp only [violations_eq_nil_iff]
  -- A field finds its member by the name, so the two views meet where names do not repeat.
  constructor
  · rintro ⟨each, declared, peers⟩
    refine ⟨fun m hm => ?_, fun f hf => ((holds_iff f).1 (each f hf)).1, peers⟩
    obtain ⟨f, hf, same⟩ := List.any_eq_true.1 (declared m.1 (List.mem_map_of_mem hm))
    obtain same : f.name = m.1 := by simpa using same
    have there : ms.lookup f.name = some m.2 := by
      rw [same]
      exact lookup_of_mem distinct hm
    have admits := ((holds_iff f).1 (each f hf)).2 m.2 there
    rw [same] at admits
    exact ⟨f, hf, admits⟩
  · rintro ⟨each, required, peers⟩
    refine ⟨fun f hf => (holds_iff f).2 ⟨required f hf, fun v hv => ?_⟩, fun k hk => ?_, peers⟩
    · obtain ⟨f', hf', admits⟩ := each _ (mem_of_lookup hv)
      obtain rfl := List.inj_on_of_nodup_map fields hf' hf admits.1
      exact admits
    · obtain ⟨m, hm, rfl⟩ := List.mem_map.1 hk
      obtain ⟨f, hf, admits⟩ := each m hm
      exact List.any_eq_true.2 ⟨f, hf, by simpa using admits.1⟩

/-- What a shape requires is there and passes. -/
theorem exists_lookup_of_required {name : String} {r : Constraint}
    (field : .required name r ∈ s.fields) (meets : (Json.object ms).Meets (.record s)) :
    ∃ v, ms.lookup name = some v ∧ v.Meets r := by
  obtain ⟨v, hv, passes⟩ := ((violations_object_eq_nil_iff ms rfl []).1 meets).1 _ field
  exact ⟨v, hv, (violations_eq_nil_iff _).1 passes⟩

/-- Only objects pass the check of a shape. -/
theorem exists_object_of_meets {v : Json} {c : Constraint} (h : v.Meets c)
    (hs : c.shape? = some s) : ∃ ms, v = .object ms := by
  cases v with
  | object ms => exact ⟨ms, rfl⟩
  | _ =>
    cases c with
    | record => cases h
    | choiceRule => cases h
    | _ => cases hs

/-- What is no object neither passes nor is of a sort that consists of objects. -/
theorem meets_iff_of_not_object {v : Json} {c : Constraint} (hs : c.shape? = some s)
    (other : ∀ ms, v ≠ .object ms) {P : Prop} (no : ¬ P) : v.Meets c ↔ P := by
  refine ⟨fun meets => ?_, fun h => absurd h no⟩
  obtain ⟨ms, e⟩ := exists_object_of_meets meets hs
  exact absurd e (other ms)

/-- A shape without rules among the members is a sort of records. -/
theorem meets_record_iff {v : Json} (h : v.NoRepeats) {fields : List (Field Constraint)}
    (distinct : (fields.map Field.name).Nodup) {Member : String → Json → Prop}
    {needed : List String}
    (members : ∀ k w, w.NoRepeats → ((∃ f ∈ fields, f.Admits k w) ↔ Member k w))
    (needs : ∀ (P : String → Prop), (∀ f ∈ fields, f.IsRequired → P f.name) ↔ ∀ k ∈ needed, P k) :
    v.Meets (.record ⟨fields, []⟩) ↔ IsRecord Member needed v := by
  cases h with
  | object names' below =>
    rw [meets_object_iff names' rfl distinct, needs]
    constructor
    · rintro ⟨each, there, -⟩
      exact ⟨_, rfl, fun m hm => (members _ _ (below m hm)).1 (each m hm), there⟩
    · rintro ⟨ms, e, each, there⟩
      cases e
      exact ⟨fun m hm => (members _ _ (below m hm)).2 (each m hm), there, nofun⟩
  | _ =>
    refine meets_iff_of_not_object rfl (by nofun) ?_
    rintro ⟨_, e, -⟩
    cases e

end Json

end FlowLint
