import FlowLint.Format.Standard
import FlowLint.Proofs.Machine.Order
import FlowLint.Proofs.Machine.References

/-!
A state of no known kind. What is asked of its members some kind asks, and each kind that admits a
member of a name asks the same of it; so but for its type nothing is wrong with such a state where
nothing would be wrong if it were of some kind.
-/

namespace FlowLint

open Constraint Workflow

/-! ### Fields -/

/-- One of the fields has that name, and asks what the field asks, if that admits a member. -/
def Field.Covered (fields : List (Field Constraint)) (f : Field Constraint) : Prop :=
  ∃ g ∈ fields, g.name = f.name ∧ ∀ r, f.rule? = some r → g.rule? = some r

section

variable {fields : List (Field Constraint)} {name : String} {r : Constraint}

theorem Field.covered_of_mem {f : Field Constraint} (h : f ∈ fields) : f.Covered fields :=
  ⟨f, h, rfl, fun _ => id⟩

theorem Field.covered_optionalIf (h : .optional name r ∈ fields) (condition : Bool) :
    (optionalIf condition name r).Covered fields := by
  refine ⟨_, h, (name_optionalIf ..).symm, fun r' hr => ?_⟩
  cases condition with
  | true => exact hr
  | false => cases hr

theorem Field.covered_requiredIf (h : .optional name r ∈ fields) (condition : Bool) :
    (requiredIf condition name r).Covered fields := by
  refine ⟨_, h, (name_requiredIf ..).symm, fun r' hr => ?_⟩
  cases condition with
  | true => exact hr
  | false => cases hr

end

/-! ### Members -/

section

variable {ms ms' : List (String × Json)} {c c' : Constraint} {s s' : Shape Constraint} {p : Path}
  {name : String}

variable [Formats]

/-- Something is said of a member that is there, unless a field admits it and nothing is wrong with
    its value. -/
theorem exists_below_of_there (hs : c.shape? = some s) {v : Json} (there : ms.lookup name = some v)
    (wrong : ∀ f ∈ s.fields, f.name = name → ∀ r, f.rule? = some r →
      violations v r (p.member name) ≠ []) :
    ∃ g ∈ violations (.object ms) c p, p.member name <+: g.path := by
  by_cases declared : s.declares name
  · obtain ⟨f, hf, rfl⟩ := (s.declares_iff name).1 declared
    have wanting : f.violatedBy ms p ≠ [] := by
      cases rule : f.rule? with
      | some r =>
        rw [Field.violatedBy_eq rule there]
        exact wrong f hf rfl r rule
      | none =>
        rw [Field.violatedBy, there, Field.forbidden_of_rule? rule]
        exact List.cons_ne_nil _ _
    obtain ⟨g, hg⟩ := List.exists_mem_of_ne_nil _ wanting
    have said := (mem_violations_object_iff hs).2 (.inl ⟨f, hf, hg⟩)
    exact ⟨g, said, Field.prefix_of_mem_violatedBy hg⟩
  · have listed : name ∈ ms.map Prod.fst := exists_lookup_iff.1 ⟨v, there⟩
    exact ⟨_, (mem_violations_object_iff hs).2 (.inr (.inl ⟨name, listed, declared, rfl⟩)),
      List.prefix_rfl⟩

/-- What is said of a member is said of the value that it has, or just of its being there; of
    neither where no field asks for it to be there and no rule blames it. -/
theorem there_of_exists_below (hs : c.shape? = some s)
    (mild : ∀ f ∈ s.fields, f.name = name → ∃ r, f.demand = .optional r)
    (blamed : ∀ r ∈ s.peers, name ∉ r.blamed) {g : Violation}
    (hg : g ∈ violations (.object ms) c p) (below : p.member name <+: g.path) :
    ∃ v, ms.lookup name = some v ∧
      ((∃ f ∈ s.fields, f.name = name ∧ ∃ r, f.rule? = some r ∧
          violations v r (p.member name) ≠ []) ∨ ¬ s.declares name) := by
  rcases (mem_violations_object_iff hs).1 hg with ⟨f, hf, hg⟩ | ⟨k, hk, unknown, rfl⟩ | ⟨r, hr, hg⟩
  · cases Path.step_unique below (Field.prefix_of_mem_violatedBy hg)
    obtain ⟨r, demand⟩ := mild f hf rfl
    rw [Field.violatedBy, demand] at hg
    cases there : ms.lookup f.name with
    | none =>
      rw [there] at hg
      cases hg
    | some v =>
      rw [there] at hg
      have rule : f.rule? = some r := by rw [Field.rule?, demand]
      exact ⟨v, rfl, .inl ⟨f, hf, rfl, r, rule, List.ne_nil_of_mem hg⟩⟩
  · cases Path.step_unique below List.prefix_rfl
    obtain ⟨v, there⟩ := exists_lookup_iff.2 hk
    exact ⟨v, there, .inr unknown⟩
  · rcases PeerRule.path_of_mem_violatedBy hg with path | ⟨k, hk, path⟩
    · rw [path] at below
      exact absurd below (p.not_push_prefix _)
    · rw [path] at below
      cases Path.step_unique below List.prefix_rfl
      exact absurd hk (blamed r hr)

/-- What covers more says less: where something is said of a member by fields that cover others,
    those others say something of it as well. -/
theorem exists_below_of_covered (hs : c.shape? = some s) (hs' : c'.shape? = some s')
    (covered : ∀ f ∈ s'.fields, f.Covered s.fields) (distinct : (s.fields.map Field.name).Nodup)
    (mild : ∀ f ∈ s.fields, f.name = name → ∃ r, f.demand = .optional r)
    (blamed : ∀ r ∈ s.peers, name ∉ r.blamed) (same : ms'.lookup name = ms.lookup name)
    (said : ∃ g ∈ violations (.object ms) c p, p.member name <+: g.path) :
    ∃ g ∈ violations (.object ms') c' p, p.member name <+: g.path := by
  obtain ⟨g, hg, below⟩ := said
  obtain ⟨v, there, cause⟩ := there_of_exists_below hs mild blamed hg below
  refine exists_below_of_there hs' (same.trans there) fun f' hf' e r' rule' => ?_
  obtain ⟨f, hf, name_eq, asks⟩ := covered f' hf'
  rcases cause with ⟨f₀, hf₀, e₀, r, rule, wrong⟩ | unknown
  · obtain rfl := List.inj_on_of_nodup_map distinct hf hf₀ ((name_eq.trans e).trans e₀.symm)
    cases rule.symm.trans (asks r' rule')
    exact wrong
  · exact absurd ((s.declares_iff name).2 ⟨f, hf, name_eq.trans e⟩) unknown

/-- Where no other member is at fault, all that is said is said by the first field. -/
theorem violations_eq_of_alone (first : Field Constraint) {rest : List (Field Constraint)}
    (hs : c.shape? = some ⟨first :: rest, []⟩) (distinct : ((first :: rest).map Field.name).Nodup)
    (alone : ∀ name, name ≠ first.name → ∀ g ∈ violations (.object ms) c p,
      ¬ p.member name <+: g.path) :
    violations (.object ms) c p = first.violatedBy ms p := by
  have others : rest.flatMap (·.violatedBy ms p) = [] := by
    refine List.flatMap_eq_nil_iff.2 fun f hf => List.eq_nil_iff_forall_not_mem.2 fun g hg => ?_
    have other : f.name ≠ first.name := fun e =>
      (List.nodup_cons.1 distinct).1 (e ▸ List.mem_map_of_mem hf)
    have said := (mem_violations_object_iff hs).2 (.inl ⟨f, .tail _ hf, hg⟩)
    exact alone f.name other g said (Field.prefix_of_mem_violatedBy hg)
  have unknown : Shape.undeclared ⟨first :: rest, []⟩ (ms.map Prod.fst) p = [] := by
    refine (Shape.undeclared_eq_nil_iff ..).2 fun k hk => ?_
    by_contra undeclared
    have other : k ≠ first.name := fun e =>
      undeclared ((Shape.declares_iff ..).2 ⟨first, List.mem_cons_self, e.symm⟩)
    have said := (mem_violations_object_iff hs (p := p)).2 (.inr (.inl ⟨k, hk, undeclared, rfl⟩))
    exact alone k other _ said List.prefix_rfl
  rw [violations_object ms hs, List.flatMap_cons, others, unknown, List.append_nil,
    List.append_nil]
  exact List.append_nil _

end

/-! ### States -/

namespace State

variable (siblings : List String) (branches : List Constraint)

/-- Of no member does a kind ask anything else than is asked where no kind is known. -/
theorem covered_kindFields (kind : StateKind) (ends : Bool) :
    ∀ f ∈ kindFields kind ends siblings branches, f.Covered (untypedFields siblings branches) := by
  have ending : ∀ f ∈ (if kind.declaresEnd then [Field.optional "End" .boolean] else []),
      f.Covered (untypedFields siblings branches) := by
    split
    · exact List.forall_mem_singleton.2 (Field.covered_of_mem (by simp [untypedFields]))
    · exact List.forall_mem_nil _
  refine List.forall_mem_append.2 ⟨List.forall_mem_append.2 ⟨?_, ending⟩, ?_⟩
  · simp [Field.covered_of_mem, untypedFields]
  · simp [Field.covered_optionalIf, Field.covered_requiredIf, untypedFields]

/-- Where no kind is known, nothing but the type must be there. -/
theorem exists_optional_of_untyped : ∀ f ∈ untypedFields siblings branches, f.name ≠ "Type" →
    ∃ r, f.demand = .optional r := by
  simp [untypedFields, typeField, Field.optional, Field.required]

/-- The state with its type set to that kind. -/
def withKind (kind : StateKind) (ms : List (String × Json)) : Json :=
  .object (put "Type" (.string kind.name) ms)

variable {ms : List (String × Json)}

theorem kind?_withKind (kind : StateKind) (ms : List (String × Json)) :
    kind? (withKind kind ms) = some kind := by
  rw [withKind, kind?_eq_some_iff, lookup_put, if_pos rfl]

theorem kind?_eq_none (untyped : ∀ kind : StateKind, ms.lookup "Type" ≠ some (.string kind.name)) :
    kind? (.object ms) = none :=
  Option.eq_none_iff_forall_ne_some.2 fun kind known => untyped kind (kind?_eq_some_iff.1 known)

end State

namespace Machine

open State

variable {ms : List (String × Json)} (siblings : List String)

/-- What is wrong with a state at `p` among states of those names. -/
def stateViolations [Formats] (state : Json) (siblings : List String) (p : Path) : List Violation :=
  violations state (.record (stateShape state siblings)) p

theorem stateShape_withKind (kind : StateKind) (ms : List (String × Json)) :
    ∃ ends, stateShape (withKind kind ms) siblings =
      kindShape kind ends siblings (branchesIn ms) := by
  have branches : branchesIn (put "Type" (.string kind.name) ms) = branchesIn ms := by
    rw [branchesIn_eq_getD, branchesIn_eq_getD, lookup_put, if_neg (by decide)]
  refine ⟨ends (withKind kind ms), ?_⟩
  rw [stateShape_eq_members, shapeWith, kind?_withKind]
  exact congrArg (kindShape kind _ siblings) branches

theorem stateShape_untyped
    (untyped : ∀ kind : StateKind, ms.lookup "Type" ≠ some (.string kind.name)) :
    stateShape (.object ms) siblings = ⟨untypedFields siblings (branchesIn ms), []⟩ := by
  rw [stateShape_eq_members, shapeWith, kind?_eq_none untyped]
  exact untypedShape_eq ..

section

variable [Formats]

/-- Of a type that is missing or unknown it is said that it is required or that it is none of the
    kinds. -/
theorem violatedBy_typeField
    (untyped : ∀ kind : StateKind, ms.lookup "Type" ≠ some (.string kind.name)) (p : Path) :
    typeField.violatedBy ms p = [⟨p.member "Type", if "Type" ∈ ms.map Prod.fst
      then .notOneOf (StateKind.all.map StateKind.name) else .required⟩] := by
  cases there : ms.lookup "Type" with
  | none =>
    have lacks : "Type" ∉ ms.map Prod.fst := by simp [← exists_lookup_iff, there]
    rw [if_neg lacks]
    simp [Field.violatedBy, typeField, Field.required, there]
  | some v =>
    have listed : "Type" ∈ ms.map Prod.fst := exists_lookup_iff.1 ⟨v, there⟩
    have unknown : ¬ IsOneOf (StateKind.all.map StateKind.name) v := by
      rintro ⟨name, hname, rfl⟩
      obtain ⟨kind, -, rfl⟩ := List.mem_map.1 hname
      exact untyped kind there
    have asks : typeField.rule? = some (oneOf (StateKind.all.map StateKind.name)) := rfl
    have found : ms.lookup typeField.name = some v := there
    rw [if_pos listed, Field.violatedBy_eq asks found]
    exact (violations_oneOf _ v _).2 unknown

/-- A member of a state of no known kind, but for its type, is at fault only if it is at fault in a
    state of each kind. -/
theorem exists_below_withKind
    (untyped : ∀ kind : StateKind, ms.lookup "Type" ≠ some (.string kind.name)) (kind : StateKind)
    {name : String} (other : name ≠ "Type") {p : Path}
    (said : ∃ g ∈ stateViolations (.object ms) siblings p, p.member name <+: g.path) :
    ∃ g ∈ stateViolations (withKind kind ms) siblings p, p.member name <+: g.path := by
  obtain ⟨ends, shape⟩ := stateShape_withKind siblings kind ms
  rw [stateViolations, stateShape_untyped siblings untyped] at said
  rw [stateViolations, shape]
  have mild : ∀ f ∈ untypedFields siblings (branchesIn ms), f.name = name →
      ∃ r, f.demand = .optional r := fun f hf e =>
    exists_optional_of_untyped _ _ f hf fun type => other (e.symm.trans type)
  have same : (put "Type" (.string kind.name) ms).lookup name = ms.lookup name := by
    rw [lookup_put, if_neg other.symm]
  exact exists_below_of_covered (s := ⟨_, _⟩) rfl rfl (covered_kindFields siblings _ kind ends)
    (nodup_untypedFields _ _) mild (List.forall_mem_nil _) same said

/-- Where the type of a state is missing or unknown, nothing else is wrong with the state if there
    is a kind for which nothing would be wrong; and in any case a member is at fault only if it
    would be in a state of each kind. -/
theorem wrong_type_alone
    (untyped : ∀ kind : StateKind, ms.lookup "Type" ≠ some (.string kind.name)) (p : Path) :
    (∀ kind, stateViolations (withKind kind ms) siblings p = [] →
      stateViolations (.object ms) siblings p =
        [⟨p.member "Type", if "Type" ∈ ms.map Prod.fst
          then .notOneOf (StateKind.all.map StateKind.name) else .required⟩]) ∧
    ∀ kind name, name ≠ "Type" →
      (∃ g ∈ stateViolations (.object ms) siblings p, p.member name <+: g.path) →
      ∃ g ∈ stateViolations (withKind kind ms) siblings p, p.member name <+: g.path := by
  refine ⟨fun kind clean => ?_, fun kind name other =>
    exists_below_withKind siblings untyped kind other⟩
  have alone (name : String) (other : name ≠ "Type") :
      ∀ g ∈ stateViolations (.object ms) siblings p, ¬ p.member name <+: g.path := by
    intro g hg below
    obtain ⟨g', hg', -⟩ := exists_below_withKind siblings untyped kind other ⟨g, hg, below⟩
    rw [clean] at hg'
    cases hg'
  rw [stateViolations, stateShape_untyped siblings untyped] at alone ⊢
  rw [violations_eq_of_alone typeField rfl (nodup_untypedFields _ _) alone,
    violatedBy_typeField untyped]

end

/-- A state whose type is misspelled. -/
def misspelledState : List (String × Json) := [("Type", .string "pass"), ("Next", .string "B")]

theorem wrong_type_alone_misspelledState :
    stateViolations (.object misspelledState) ["B"] [.key "A"] =
      [⟨[.key "A", .key "Type"], .notOneOf (StateKind.all.map StateKind.name)⟩] ∧
    ∃ g ∈ stateViolations (withKind .pass (("Cause", .string "") :: misspelledState)) ["B"]
      [.key "A"], Path.member [.key "A"] "Cause" <+: g.path := by
  have named (s : String) (ms : List (String × Json)) (type : ms.lookup "Type" = some (.string s))
      (other : s ∉ StateKind.all.map StateKind.name) (kind : StateKind) :
      ms.lookup "Type" ≠ some (.string kind.name) := by
    intro known
    cases type.symm.trans known
    exact other (List.mem_map_of_mem kind.mem_all)
  obtain ⟨once, -⟩ := wrong_type_alone ["B"] (named "pass" misspelledState rfl (by decide))
    [.key "A"]
  obtain ⟨-, each⟩ := wrong_type_alone ["B"]
    (named "pass" (("Cause", .string "") :: misspelledState) rfl (by decide)) [.key "A"]
  exact ⟨once .pass (by decide), each .pass "Cause" (by decide)
    ⟨⟨[.key "A", .key "Cause"], .empty⟩, by decide +kernel, List.prefix_rfl⟩⟩

end Machine

end FlowLint
