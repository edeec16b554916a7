import FlowLint.Format.Standard
import FlowLint.Proofs.Conformance.Agenda

/-!
Choice rules spelled out beforehand. A constraint may hold choice rules, which are spelled out only
where a value asks for it. To spell them out so many deep and to admit anything below makes no
difference to a value that is less deep, though no such constraint does for all values.
-/

namespace FlowLint

/-! ### Filling in -/

mutual

/-- The constraint with `r` in place of each choice rule in it. -/
def Constraint.filledWith : Constraint → Constraint → Constraint
  | .list none atLeast,        _ => .list none atLeast
  | .list (some item) atLeast, r => .list (some (item.filledWith r)) atLeast
  | .positions items atLeast,  r => .positions (Constraint.allFilledWith items r) atLeast
  | .record ⟨fields, peers⟩,   r => .record ⟨Field.allFilledWith fields r, peers⟩
  | .choiceRule,               r => r
  | c,                         _ => c
termination_by structural c => c

def Constraint.allFilledWith : List Constraint → Constraint → List Constraint
  | [],      _ => []
  | c :: cs, r => c.filledWith r :: Constraint.allFilledWith cs r
termination_by structural cs => cs

def Field.allFilledWith : List (Field Constraint) → Constraint → List (Field Constraint)
  | [],                   _ => []
  | ⟨name, demand⟩ :: fs, r => ⟨name, demand.filledWith r⟩ :: Field.allFilledWith fs r
termination_by structural fs => fs

def Demand.filledWith : Demand Constraint → Constraint → Demand Constraint
  | .optional rule, r => .optional (rule.filledWith r)
  | .required rule, r => .required (rule.filledWith r)
  | .forbidden,     _ => .forbidden
termination_by structural d => d

end

def Field.filledWith (f : Field Constraint) (r : Constraint) : Field Constraint :=
  ⟨f.name, f.demand.filledWith r⟩

theorem Constraint.allFilledWith_eq_map (r : Constraint) :
    ∀ cs, allFilledWith cs r = cs.map (·.filledWith r)
  | []      => rfl
  | c :: cs => congrArg (c.filledWith r :: ·) (allFilledWith_eq_map r cs)

theorem Field.allFilledWith_eq_map (r : Constraint) :
    ∀ fs, allFilledWith fs r = fs.map (·.filledWith r)
  | []      => rfl
  | f :: fs => congrArg (f.filledWith r :: ·) (allFilledWith_eq_map r fs)

/-- The value is found the same with `r` in place of choice rules. -/
def Json.Unaffected [Formats] (v : Json) (r : Constraint) : Prop :=
  ∀ c p, violations v (c.filledWith r) p = violations v c p

section

variable {r : Constraint}

theorem positionViolations_filledWith [Formats] {vs : List Json} (each : ∀ v ∈ vs, v.Unaffected r) :
    ∀ (cs : List Constraint) (p : Path) (i : Nat),
      positionViolations vs (cs.map (·.filledWith r)) p i = positionViolations vs cs p i := by
  induction vs with
  | nil => exact fun _ _ _ => rfl
  | cons v vs ih =>
    obtain ⟨first, others⟩ := List.forall_mem_cons.1 each
    intro cs p i
    cases cs with
    | nil => rfl
    | cons c cs => rw [List.map_cons, positionViolations, positionViolations, first, ih others]

theorem Field.violatedBy_filledWith [Formats] {ms : List (String × Json)}
    (each : ∀ m ∈ ms, m.2.Unaffected r) (p : Path) (f : Field Constraint) :
    (f.filledWith r).violatedBy ms p = f.violatedBy ms p := by
  obtain ⟨name, demand⟩ := f
  rw [violatedBy, violatedBy, filledWith]
  cases there : ms.lookup name with
  | none => cases demand <;> rfl
  | some v =>
    have value : v.Unaffected r := each (name, v) (mem_of_lookup there)
    cases demand with
    | optional rule => exact value rule _
    | required rule => exact value rule _
    | forbidden => rfl

theorem Shape.undeclared_filledWith (s : Shape Constraint) (names : List String) (p : Path) :
    (Shape.mk (s.fields.map (·.filledWith r)) s.peers).undeclared names p =
      s.undeclared names p := by
  simp only [undeclared, declares, List.any_map]
  rfl

variable [Formats]

/-- Apart from a choice rule itself, filling in makes a difference to parts of the value at most. -/
theorem violations_filledWith {v : Json} {c : Constraint} (spelled : c ≠ .choiceRule)
    (below : ∀ w : Json, w.depth < v.depth → w.Unaffected r) (p : Path) :
    violations v (c.filledWith r) p = violations v c p := by
  cases v with
  | array vs =>
    have each : ∀ v ∈ vs, v.Unaffected r := fun v hv => below v (Json.depth_lt_itemsDepth hv)
    cases c with
    | list item atLeast =>
      cases item with
      | none => rfl
      | some c =>
        have items := positionViolations_filledWith each (vs.map fun _ => c) p 0
        rw [List.map_map] at items
        rw [Constraint.filledWith, violations, violations, itemViolations_eq, itemViolations_eq]
        exact congrArg (· ++ _) items
    | positions cs atLeast =>
      rw [Constraint.filledWith, Constraint.allFilledWith_eq_map, violations, violations,
        positionViolations_filledWith each]
    | choiceRule => contradiction
    | _ => rfl
  | object ms =>
    have each : ∀ m ∈ ms, m.2.Unaffected r := fun m hm =>
      below m.2 (Json.depth_lt_membersDepth hm)
    cases c with
    | record s =>
      have fields : (s.fields.map (·.filledWith r)).flatMap (·.violatedBy ms p) =
          s.fields.flatMap (·.violatedBy ms p) := by
        rw [List.flatMap_map]
        exact congrArg (s.fields.flatMap ·) (funext (Field.violatedBy_filledWith each p))
      rw [Constraint.filledWith, Field.allFilledWith_eq_map, violations_object ms rfl,
        violations_object ms rfl, fields, s.undeclared_filledWith]
    | choiceRule => contradiction
    | list item atLeast => cases item <;> rfl
    | _ => rfl
  | _ =>
    cases c with
    | choiceRule => contradiction
    | list item atLeast => cases item <;> rfl
    | _ => rfl

end

namespace ChoiceRule

/-! ### Unrolling -/

/-- The rule within a rule with the rules in it spelled out, so many deep. Below them anything is
    admitted. -/
def unrolled : Nat → Constraint
  | 0     => .anything
  | n + 1 => (Constraint.record nestedShape).filledWith (unrolled n)

/-- What is less deep than the unrolling never gets to its end. Either the rule is spelled out,
    which takes one off the unrolling and leads to parts of the value, or a part is next anyway. -/
theorem unaffected_unrolled [Formats] (v : Json) :
    ∀ n, v.depth < n → v.Unaffected (unrolled n) := by
  induction v using Json.depth_induction with
  | h v below =>
    intro n deep c p
    by_cases rule : c = .choiceRule
    · subst rule
      obtain ⟨m, rfl⟩ := Nat.exists_eq_add_of_lt deep
      have parts : ∀ w : Json, w.depth < v.depth → w.Unaffected (unrolled (v.depth + m)) :=
        fun w hw => below w hw _ (by omega)
      rw [violations_choiceRule]
      exact violations_filledWith (c := .record nestedShape) nofun parts p
    · exact violations_filledWith rule (fun w hw => below w hw n (by omega)) p

/-- The denial of a denial and so on of something that is no rule. -/
def denial : Nat → Json
  | 0     => .null
  | n + 1 => .object [("Not", denial n)]

theorem depth_denial (n : Nat) : (denial n).depth = n := by
  induction n with
  | zero => rfl
  | succ n ih => simp [denial, Json.depth, Json.membersDepth, ih]

section

variable [Formats]

/-- A denial is a rule all right, so all that can be wrong is what it denies. -/
theorem violations_denied (v : Json) (r : Constraint) (p : Path) :
    violations (.object [("Not", v)]) ((Constraint.record nestedShape).filledWith r) p =
      violations v r (p.member "Not") := by
  have fields : (commonFields.map (·.filledWith r)).flatMap (·.violatedBy [("Not", v)] p) =
      violations v r (p.member "Not") := by
    simp [commonFields, comparators, Field.filledWith, Field.optional, Demand.filledWith,
      Constraint.filledWith, Field.violatedBy, lookup_cons_ite]
  have undeclared : nestedShape.undeclared ["Not"] p = [] := rfl
  have peers : nestedShape.peers.flatMap (·.violatedBy ["Not"] p) = [] := rfl
  rw [Constraint.filledWith, Field.allFilledWith_eq_map, violations_object _ rfl,
    Shape.undeclared_filledWith, List.map_cons, List.map_nil, undeclared, peers, List.append_nil,
    List.append_nil]
  exact fields

/-- An unrolling does not look at what stands at its end. -/
theorem meets_denial (n : Nat) (p : Path) : violations (denial n) (unrolled n) p = [] := by
  induction n generalizing p with
  | zero => rfl
  | succ n ih => rw [denial, unrolled, violations_denied, ih]

/-- The next unrolling does. -/
theorem not_meets_denial (n : Nat) (p : Path) :
    violations (denial n) (unrolled (n + 1)) p ≠ [] := by
  induction n generalizing p with
  | zero => exact List.cons_ne_nil _ _
  | succ n ih =>
    rw [denial, unrolled, violations_denied]
    exact ih _

/-! ### On demand -/

/-- A choice rule that is spelled out where a value asks for it, so many times as it does, finds
    what the rule spelled out beforehand finds, as soon as that is more often than the value is
    deep. The check gets to its end. No unrolling would do for all values: each one admits a value,
    no deeper than it, that the next does not. -/
theorem unrolled_suffices (v : Json) (p : Path) :
    (∀ n, v.depth < n → violations v .choiceRule p = violations v (unrolled n) p) ∧
    (∃ k, Agenda.step^[k] (.start v .choiceRule p) = ⟨[], violations v .choiceRule p⟩) ∧
    ∀ n, ∃ w : Json, w.depth = n ∧ w.Meets (unrolled n) ∧ ¬ w.Meets (unrolled (n + 1)) := by
  refine ⟨fun n deep => ?_, ?_, fun n => ?_⟩
  · exact (unaffected_unrolled v n deep .choiceRule p).symm
  · exact Agenda.getsDone v .choiceRule p [] []
  · exact ⟨denial n, depth_denial n, meets_denial n [], not_meets_denial n []⟩

end

/-- A condition that mixes a comparison with no variable, an `And` that denies an empty `Or`, and
    what is no rule at all. -/
def mixedRule : Json :=
  .object [("And", .array [.object [("Not", .object [("Or", .array [])])], .bool true]),
    ("StringEquals", .string "a")]

theorem unrolled_suffices_mixedRule :
    mixedRule.depth < 5 ∧
    violations mixedRule .choiceRule [.key "Not"] =
      violations mixedRule (unrolled 5) [.key "Not"] ∧
    ⟨[.key "Not", .key "And", .index 0, .key "Not", .key "Or"], .tooFewItems 1⟩ ∈
      violations mixedRule (unrolled 5) [.key "Not"] ∧
    ∃ k, Agenda.step^[k] (.start mixedRule .choiceRule [.key "Not"]) =
      ⟨[], violations mixedRule .choiceRule [.key "Not"]⟩ := by
  obtain ⟨same, done, -⟩ := unrolled_suffices mixedRule [.key "Not"]
  have shallow : mixedRule.depth < 5 := by decide
  exact ⟨shallow, same 5 shallow, by decide, done⟩

end ChoiceRule

end FlowLint
