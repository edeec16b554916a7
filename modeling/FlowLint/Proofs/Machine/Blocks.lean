import FlowLint.Format.Standard
import FlowLint.Proofs.Conformance.Checker
import FlowLint.Proofs.Machine.ChoiceRules

/-!
What a check of a whole says of its parts. The constraint on a value brings constraints on members
and items, and these bring others, down to where the value ends. Wherever one stands, what a check
of that part alone reports is reported in one piece: nothing found before keeps it back, and nothing
found elsewhere comes in between.
-/

namespace FlowLint

/-- A constraint on a value brings, at a path from there, a constraint on the part that stands
    there. -/
inductive Governs : Constraint → Json → Path → Constraint → Json → Prop
  | self (c : Constraint) (v : Json) : Governs c v [] c v
  | member {c r r' : Constraint} {s : Shape Constraint} {ms : List (String × Json)}
      {f : Field Constraint} {v w : Json} {q : Path} (shape : c.shape? = some s)
      (field : f ∈ s.fields) (rule : f.rule? = some r) (there : ms.lookup f.name = some v)
      (below : Governs r v q r' w) : Governs c (.object ms) (.key f.name :: q) r' w
  | item {r r' : Constraint} {atLeast i : Nat} {vs : List Json} {v w : Json} {q : Path}
      (there : vs[i]? = some v) (below : Governs r v q r' w) :
      Governs (.list (some r) atLeast) (.array vs) (.index i :: q) r' w
  | position {rs : List Constraint} {r r' : Constraint} {atLeast i : Nat} {vs : List Json}
      {v w : Json} {q : Path} (there : vs[i]? = some v) (rule : rs[i]? = some r)
      (below : Governs r v q r' w) :
      Governs (.positions rs atLeast) (.array vs) (.index i :: q) r' w

theorem Path.push_append (p : Path) (step : Segment) (q : Path) :
    p.push step ++ q = p ++ step :: q := List.append_assoc ..

/-! ### One step -/

section

variable [Formats]

section

variable {c r : Constraint} {v : Json}

theorem block_object {ms : List (String × Json)} {s : Shape Constraint} {f : Field Constraint}
    (shape : c.shape? = some s) (field : f ∈ s.fields) (rule : f.rule? = some r)
    (there : ms.lookup f.name = some v) (p : Path) :
    violations v r (p.member f.name) <:+: violations (.object ms) c p := by
  have block : f.violatedBy ms p <:+: s.fields.flatMap (·.violatedBy ms p) := by
    rw [List.flatMap_def]
    exact List.infix_of_mem_flatten (List.mem_map_of_mem field)
  rw [violations_object ms shape, ← Field.violatedBy_eq rule there, List.append_assoc]
  exact block.trans (List.prefix_append ..).isInfix

theorem block_array {vs : List Json} {i : Nat} (there : vs[i]? = some v)
    (rule : (c.itemRules vs)[i]? = some r) (p : Path) :
    violations v r (p.item i) <:+: violations (.array vs) c p := by
  have block : violations v r (p.item i) <:+: positionViolations vs (c.itemRules vs) p 0 := by
    rw [positionViolations_eq_mapIdx]
    refine List.infix_of_mem_flatten (List.mem_of_getElem? (i := i) ?_)
    have both : (vs.zip (c.itemRules vs))[i]? = some (v, r) :=
      List.getElem?_zip_eq_some.2 ⟨there, rule⟩
    rw [List.getElem?_mapIdx, both, Option.map_some, Nat.zero_add]
  rw [violations_array, ← List.append_assoc]
  exact block.trans (List.infix_append ..)

end

/-! ### All the way -/

theorem Governs.block {c r : Constraint} {v w : Json} {q : Path} (h : Governs c v q r w) :
    ∀ p, violations w r (p ++ q) <:+: violations v c p := by
  induction h with
  | self c v => exact fun p => (List.append_nil p).symm ▸ List.infix_rfl
  | member shape field rule there _ ih =>
    intro p
    rw [← Path.push_append]
    exact (ih _).trans (block_object shape field rule there p)
  | @item r _ atLeast i vs _ _ _ there _ ih =>
    intro p
    have rule : ((Constraint.list (some r) atLeast).itemRules vs)[i]? = some r := by
      rw [Constraint.itemRules, List.getElem?_map, there, Option.map_some]
    rw [← Path.push_append]
    exact (ih _).trans (block_array there rule p)
  | @position rs r _ atLeast i vs _ _ _ there rule _ ih =>
    intro p
    rw [← Path.push_append]
    have rule : ((Constraint.positions rs atLeast).itemRules vs)[i]? = some r := rule
    exact (ih _).trans (block_array there rule p)

end

open ChoiceRule in
/-- A rule that a choice rule is combined of is a choice rule that leads nowhere. -/
theorem ChoiceRule.Node.governs {v node : Json} {n : Nat} {q : Path} (h : Node v n q node)
    (siblings : List String) (depth : Nat) :
    Governs (level siblings depth) v q (level siblings (depth + n)) node := by
  induction h generalizing depth with
  | self v => exact .self _ v
  | @among v inner node key i n q lists there _ ih =>
    obtain ⟨u, hu, hi⟩ := Json.exists_of_at?_pair there
    obtain ⟨ms, rfl, member⟩ := Json.exists_object_of_child? hu
    obtain ⟨items, rfl, item⟩ := Json.exists_array_of_child? hi
    obtain ⟨f, field, rfl, rule⟩ := (asks_lists siblings depth lists).field
    rw [← Nat.succ_add_eq_add_succ]
    exact .member (shape?_level siblings depth) field rule member (.item item (ih (depth + 1)))
  | @negated v inner node n q there _ ih =>
    obtain ⟨u, hu, rest⟩ := Option.bind_eq_some_iff.1 there
    cases rest
    obtain ⟨ms, rfl, member⟩ := Json.exists_object_of_child? hu
    obtain ⟨f, field, name, rule⟩ := (asks_not siblings depth).field
    rw [← Nat.succ_add_eq_add_succ, ← name]
    exact .member (shape?_level siblings depth) field rule (name ▸ member) (ih (depth + 1))

theorem Violation.message_under {g : Violation} (below : g.path ≠ []) (p : Path) :
    (g.under p).message = g.message := by
  have last : (p ++ g.path).getLast? = g.path.getLast? := by
    rw [List.getLast?_append, List.getLast?_eq_some_getLast below, Option.some_or]
  rw [message, message, under, Path.label, Path.label, last]

namespace Checker

/-- Whatever a check has found before, it finds the same, and writes it down behind that. It finds
    the same wherever the value stands, with the path there put in front, and in the same words
    below it. What it finds in a part that a constraint of its own governs, such as a rule that a
    choice rule is combined of, it finds in one piece. -/
theorem checks_compose [Formats] (v : Json) (c : Constraint) (p : Path) (k : Checker) :
    (value v c p k).found = k.found ++ (value v c p start).found ∧
    (value v c p start).found = violations v c p ∧
    violations v c p = (violations v c []).map (·.under p) ∧
    (∀ g ∈ violations v c [], g.path ≠ [] → (g.under p).message = g.message) ∧
    (∀ q r w, Governs c v q r w → violations w r (p ++ q) <:+: violations v c p) ∧
    ∀ siblings depth n q node, c = ChoiceRule.level siblings depth → ChoiceRule.Node v n q node →
      violations node (ChoiceRule.level siblings (depth + n)) (p ++ q) <:+: violations v c p := by
  have fresh : (value v c p start).found = violations v c p := by
    rw [value_eq]
    rfl
  refine ⟨?_, fresh, violations_eq_map_under v c p, fun g _ below => g.message_under below p,
    fun q r w governs => governs.block p, ?_⟩
  · rw [fresh, value_eq]
    rfl
  · rintro siblings depth n q node rfl within
    exact (within.governs siblings depth).block p

/-- A rule within a rule that leads on, denied beside a comparison with nothing. -/
def deniedRule : Json := .object [("Next", .string "A")]

/-- The rule that holds it. -/
def denyingRule : Json :=
  .object [("Or", .array [.object [("Variable", .string ""), ("Not", deniedRule)]]),
    ("Else", .null)]

theorem checks_compose_denyingRule :
    (value denyingRule .choiceRule [.key "Not"] ⟨[⟨[], .empty⟩]⟩).found =
      ⟨[], .empty⟩ :: violations denyingRule .choiceRule [.key "Not"] ∧
    ⟨[.key "Or", .index 0, .key "Variable"], .empty⟩ ∈ violations denyingRule .choiceRule [] ∧
    (⟨[.key "Not", .key "Or", .index 0, .key "Variable"], .empty⟩ : Violation).message =
      (⟨[.key "Or", .index 0, .key "Variable"], .empty⟩ : Violation).message ∧
    violations deniedRule .choiceRule [.key "Not", .key "Or", .index 0, .key "Not"] <:+:
      violations denyingRule .choiceRule [.key "Not"] ∧
    violations (.string "") .anyText [.key "Not", .key "Or", .index 0, .key "Variable"] <:+:
      violations denyingRule .choiceRule [.key "Not"] := by
  obtain ⟨behind, fresh, -, words, governed, rules⟩ :=
    checks_compose denyingRule .choiceRule [.key "Not"] ⟨[⟨[], .empty⟩]⟩
  have deep : (⟨[.key "Or", .index 0, .key "Variable"], .empty⟩ : Violation) ∈
      violations denyingRule .choiceRule [] := by decide
  have denied : ChoiceRule.Node denyingRule 2 [.key "Or", .index 0, .key "Not"] deniedRule :=
    .among (.inr rfl) rfl (.negated rfl (.self _))
  have lists : Field.optional "Or" (.list (some .choiceRule) 1) ∈ ChoiceRule.commonFields :=
    .tail _ (.head _)
  have text : Field.optional "Variable" .anyText ∈ ChoiceRule.commonFields :=
    .tail _ (.tail _ (.tail _ (.head _)))
  have inner : Governs .choiceRule (.object [("Variable", .string ""), ("Not", deniedRule)])
      [.key "Variable"] .anyText (.string "") :=
    .member (f := .optional "Variable" .anyText) rfl text rfl rfl (.self _ _)
  have compared : Governs .choiceRule denyingRule [.key "Or", .index 0, .key "Variable"] .anyText
      (.string "") :=
    .member (f := .optional "Or" (.list (some .choiceRule) 1)) rfl lists rfl rfl (.item rfl inner)
  rw [fresh] at behind
  exact ⟨behind, deep, words _ deep (List.cons_ne_nil _ _), rules [] 1 2 _ _ rfl denied,
    governed _ _ _ compared⟩

end Checker

end FlowLint
