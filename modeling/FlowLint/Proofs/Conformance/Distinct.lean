import FlowLint.Proofs.Binary64.Exact
import FlowLint.Proofs.Conformance.Exact

/-!
No problem is told twice: of one place a check says a thing of each code at most once. That hangs on
the constraint as well as on the value: its shapes have one field for each name, no two of their
rules speak of the same, and its bounds leave room for a number between them.
-/

namespace FlowLint

/-! ### Problems -/

/-- The two are said of different places or have different codes. -/
def Violation.Apart (g g' : Violation) : Prop := g.path = g'.path → g.kind.code ≠ g'.kind.code

namespace Violation.Apart

variable {g g' : Violation} {p : Path} {a b : Segment}

theorem symm (h : g.Apart g') : g'.Apart g := fun same => (h same.symm).symm

theorem of_steps (ha : p.push a <+: g.path) (hb : p.push b <+: g'.path) (other : a ≠ b) :
    g.Apart g' :=
  fun same => absurd (Path.step_unique (same ▸ ha) hb) other

theorem of_step (ha : p.push a <+: g.path) (here : g'.path = p) : g.Apart g' := by
  intro same
  rw [same, here] at ha
  exact absurd ha (p.not_push_prefix a)

end Violation.Apart

/-- Of no place something of the same code is said twice. -/
def ToldOnce (gs : List Violation) : Prop := gs.Pairwise Violation.Apart

theorem toldOnce_iff (gs : List Violation) :
    ToldOnce gs ↔ (gs.map fun g => (g.path, g.kind.code)).Nodup := by
  rw [ToldOnce, List.Nodup, List.pairwise_map]
  refine iff_of_eq (congrArg (gs.Pairwise ·) (funext₂ fun g g' => ?_))
  simp [Violation.Apart, Prod.ext_iff]

theorem toldOnce_append_iff {gs hs : List Violation} :
    ToldOnce (gs ++ hs) ↔ ToldOnce gs ∧ ToldOnce hs ∧ ∀ g ∈ gs, ∀ h ∈ hs, g.Apart h :=
  List.pairwise_append

theorem toldOnce_singleton (g : Violation) : ToldOnce [g] := List.pairwise_singleton _ g

/-! ### Constraints -/

/-- What a rule may speak of: members by their names, or the object itself. -/
def PeerRule.subjects : PeerRule → List (Option String)
  | .excludes key _         => [some key]
  | .exactlyOneOf _         => [none]
  | .atLeastOneOf _         => [none]
  | .keyed _ present absent => present.subjects ++ absent.subjects

/-- No value is told the same by two parts of the constraint. -/
inductive Constraint.Coherent : Constraint → Prop
  | anything : Coherent .anything
  | text (among : Option (List String)) (format : TextFormat) : Coherent (.text among format)
  | number {rule : NumberRule} (bounds : ∀ least most, rule.least = some least →
      rule.most = some most → most.lt least = false) : Coherent (.number rule)
  | boolean : Coherent .boolean
  | timestamp : Coherent .timestamp
  | list {item : Option Constraint} {atLeast : Nat} (below : ∀ r, item = some r → Coherent r) :
      Coherent (.list item atLeast)
  | positions {rs : List Constraint} {atLeast : Nat} (each : ∀ r ∈ rs, Coherent r) :
      Coherent (.positions rs atLeast)
  | record {s : Shape Constraint} (distinct : (s.fields.map Field.name).Nodup)
      (rules : ∀ f ∈ s.fields, ∀ r, f.rule? = some r → Coherent r)
      (peers : s.peers.Pairwise fun r r' => ∀ o ∈ r.subjects, o ∉ r'.subjects) :
      Coherent (.record s)
  | choiceRule : Coherent .choiceRule

/-- A field asks nothing that is told twice. -/
def Field.Coherent (f : Field Constraint) : Prop := ∀ r, f.rule? = some r → r.Coherent

/-- A shape has one field for each name, and no two of its rules speak of the same. -/
structure Shape.Coherent (s : Shape Constraint) : Prop where
  distinct : (s.fields.map Field.name).Nodup
  fields   : ∀ f ∈ s.fields, f.Coherent
  peers    : s.peers.Pairwise fun r r' => ∀ o ∈ r.subjects, o ∉ r'.subjects

theorem Shape.Coherent.record {s : Shape Constraint} (h : s.Coherent) :
    (Constraint.record s).Coherent := .record h.distinct h.fields h.peers

theorem ChoiceRule.coherent_commonFields : ∀ f ∈ commonFields, f.Coherent := by
  have operands (name : String) : (operand name).Coherent := by
    rw [operand]
    split_ifs
    · exact .number nofun
    · exact .boolean
    · exact .timestamp
    · exact .text ..
  have lists : (Constraint.list (some .choiceRule) 1).Coherent := by
    refine .list fun r e => ?_
    cases e
    exact .choiceRule
  refine List.forall_mem_append.2 ⟨?_, List.forall_mem_map.2 fun name _ r e => ?_⟩
  · simp [Field.Coherent, Field.rule?, Field.optional, lists, Constraint.Coherent.choiceRule,
      Constraint.anyText, Constraint.Coherent.text]
  · cases e
    exact operands name

theorem ChoiceRule.coherent_nestedShape : nestedShape.Coherent where
  distinct := by decide
  fields := coherent_commonFields
  peers := by decide

theorem Constraint.Coherent.shape {c : Constraint} {s : Shape Constraint} (h : c.Coherent)
    (hs : c.shape? = some s) : s.Coherent := by
  cases h with
  | record distinct rules peers =>
    cases hs
    exact ⟨distinct, rules, peers⟩
  | choiceRule =>
    cases hs
    exact ChoiceRule.coherent_nestedShape
  | _ => cases hs

theorem Constraint.Coherent.itemRules {c : Constraint} (h : c.Coherent) (items : List Json) :
    ∀ r ∈ c.itemRules items, r.Coherent := by
  cases h with
  | @list item atLeast below =>
    cases item with
    | none => exact List.forall_mem_nil _
    | some r => exact List.forall_mem_map.2 fun _ _ => below r rfl
  | positions each => exact each
  | _ => exact List.forall_mem_nil _

/-! ### Single values -/

/-- Both bounds share a code, but no number misses both. -/
theorem NumberRule.nodup_codes {r : NumberRule} (bounds : ∀ least most, r.least = some least →
    r.most = some most → most.lt least = false) (n : Number) :
    ((r.violated n).map ViolationKind.code).Nodup := by
  have one : ∀ least most, r.least = some least → r.most = some most →
      n.toBinary64.lt least = true → most.lt n.toBinary64 = true → False := by
    intro least most hl hm less more
    have crossed := (Binary64.lt_iff ..).1 more |>.trans ((Binary64.lt_iff ..).1 less)
    rw [← Binary64.lt_iff, bounds least most hl hm] at crossed
    cases crossed
  rw [violated]
  cases hl : r.least <;> cases hm : r.most <;> simp only <;> split_ifs <;>
    simp_all [ViolationKind.code]

theorem Constraint.Coherent.toldOnce_violatedBy [Formats] {c : Constraint} (h : c.Coherent)
    (v : Json) (p : Path) : ToldOnce ((c.violatedBy v).map (⟨p, ·⟩)) := by
  by_cases number : ∃ rule n, c = .number rule ∧ v = .number n
  · obtain ⟨rule, n, rfl, rfl⟩ := number
    cases h with
    | number bounds =>
      have codes := List.pairwise_map.1 (NumberRule.nodup_codes bounds n)
      refine List.pairwise_map.2 (codes.imp ?_)
      exact fun other _ => other
  · have one := length_violatedBy_le_one fun rule n hc hv => number ⟨rule, n, hc, hv⟩
    exact pairwise_of_length_le_one (by rwa [List.length_map])

/-! ### Members -/

section

variable {names : List String} {p : Path} {g : Violation}

/-- A rule speaks of the object itself, or says that one member excludes another. -/
theorem PeerRule.subject_of_mem_violatedBy {r : PeerRule} (h : g ∈ r.violatedBy names p) :
    (none ∈ r.subjects ∧ g.path = p ∧ g.kind.code ≠ "V009") ∨
      ∃ k peer, some k ∈ r.subjects ∧ g = ⟨p.member k, .conflict peer⟩ := by
  rw [← misses_iff] at h
  induction h with
  | @conflict key peer => exact .inr ⟨key, peer, List.mem_singleton_self _, rfl⟩
  | several many => exact .inl ⟨List.mem_singleton_self _, rfl, by simp [ViolationKind.code]⟩
  | lacksOne none => exact .inl ⟨List.mem_singleton_self _, rfl, by simp [ViolationKind.code]⟩
  | lacksAll none => exact .inl ⟨List.mem_singleton_self _, rfl, by simp [ViolationKind.code]⟩
  | present there _ ih =>
    rcases ih with ⟨subject, here⟩ | ⟨k, peer, subject, said⟩
    · exact .inl ⟨List.mem_append_left _ subject, here⟩
    · exact .inr ⟨k, peer, List.mem_append_left _ subject, said⟩
  | absent missing _ ih =>
    rcases ih with ⟨subject, here⟩ | ⟨k, peer, subject, said⟩
    · exact .inl ⟨List.mem_append_right _ subject, here⟩
    · exact .inr ⟨k, peer, List.mem_append_right _ subject, said⟩

/-- Rules that speak of nothing in common do not say the same. -/
theorem PeerRule.apart {r r' : PeerRule} (disjoint : ∀ o ∈ r.subjects, o ∉ r'.subjects)
    {g' : Violation} (hg : g ∈ r.violatedBy names p) (hg' : g' ∈ r'.violatedBy names p) :
    g.Apart g' := by
  rcases subject_of_mem_violatedBy hg with ⟨subject, here, -⟩ | ⟨k, peer, subject, rfl⟩
  · rcases subject_of_mem_violatedBy hg' with ⟨subject', -⟩ | ⟨k', peer', subject', rfl⟩
    · exact absurd subject' (disjoint _ subject)
    · exact .symm (.of_step List.prefix_rfl here)
  · rcases subject_of_mem_violatedBy hg' with ⟨subject', here, -⟩ | ⟨k', peer', subject', rfl⟩
    · exact .of_step List.prefix_rfl here
    · refine .of_steps List.prefix_rfl List.prefix_rfl fun e => ?_
      cases e
      exact disjoint _ subject subject'

variable [Formats]

/-- What a check says of the very value is not that it excludes another one. -/
theorem code_ne_conflict {v : Json} {c : Constraint} (hg : g ∈ violations v c p)
    (here : g.path = p) : g.kind.code ≠ "V009" := by
  have below {a : Segment} (h : p.push a <+: g.path) : g.kind.code ≠ "V009" := by
    rw [here] at h
    exact absurd h (p.not_push_prefix a)
  obtain ⟨k, fails⟩ := mem_violations_iff.1 hg
  cases fails with
  | itself misses => cases misses <;> simp [ViolationKind.code]
  | missing => exact below List.prefix_rfl
  | forbidden => exact below List.prefix_rfl
  | undeclared => exact below List.prefix_rfl
  | member shape field rule there fails =>
    exact below (prefix_of_mem_violations _ _ _ g (mem_violations_iff.2 ⟨_, fails⟩))
  | item there fails =>
    exact below (prefix_of_mem_violations _ _ _ g (mem_violations_iff.2 ⟨_, fails⟩))
  | position there rule fails =>
    exact below (prefix_of_mem_violations _ _ _ g (mem_violations_iff.2 ⟨_, fails⟩))
  | peers shape rule misses =>
    rcases PeerRule.subject_of_mem_violatedBy ((PeerRule.misses_iff ..).1 misses) with
      ⟨-, -, other⟩ | ⟨k, peer, -, rfl⟩
    · exact other
    · exact below List.prefix_rfl

/-- Nor does a field say that of the member that it asks for. -/
theorem Field.code_ne_conflict {ms : List (String × Json)} {f : Field Constraint}
    (hg : g ∈ f.violatedBy ms p) (here : g.path = p.member f.name) : g.kind.code ≠ "V009" := by
  rw [violatedBy] at hg
  split at hg
  · exact FlowLint.code_ne_conflict hg here
  · cases hg
  · exact FlowLint.code_ne_conflict hg here
  · rw [List.mem_singleton.1 hg]
    simp [ViolationKind.code]
  · rw [List.mem_singleton.1 hg]
    simp [ViolationKind.code]
  · cases hg

end

section

variable {ms : List (String × Json)} {s : Shape Constraint} {p : Path}

theorem Field.toldOnce [Formats] {f : Field Constraint} (h : f.Coherent)
    (members : ∀ m ∈ ms, ∀ {c : Constraint} (p : Path), c.Coherent →
      ToldOnce (violations m.2 c p)) :
    ToldOnce (f.violatedBy ms p) := by
  cases rule : f.rule? with
  | none =>
    rw [violatedBy, forbidden_of_rule? rule]
    cases ms.lookup f.name with
    | none => exact .nil
    | some v => exact toldOnce_singleton _
  | some r =>
    cases there : ms.lookup f.name with
    | some v =>
      rw [violatedBy_eq rule there]
      exact members _ (mem_of_lookup there) _ (h r rule)
    | none =>
      rw [violatedBy, there]
      cases f.demand with
      | required r => exact toldOnce_singleton _
      | _ => exact .nil

theorem Shape.toldOnce_undeclared (distinct : (ms.map Prod.fst).Nodup) :
    ToldOnce (s.undeclared (ms.map Prod.fst) p) := by
  refine List.pairwise_map.2 ((distinct.filter _).imp fun other => ?_)
  exact .of_steps List.prefix_rfl List.prefix_rfl fun e => other (Segment.key.inj e)

variable [Formats]

/-- Fields, names that no field has, and rules do not speak of the same. -/
theorem toldOnce_object {c : Constraint} (hs : c.shape? = some s) (h : s.Coherent)
    (distinct : (ms.map Prod.fst).Nodup)
    (members : ∀ m ∈ ms, ∀ {c : Constraint} (p : Path), c.Coherent →
      ToldOnce (violations m.2 c p)) :
    ToldOnce (violations (.object ms) c p) := by
  have fields : ToldOnce (s.fields.flatMap (·.violatedBy ms p)) := by
    refine List.pairwise_flatMap.2 ⟨fun f hf => Field.toldOnce (h.fields f hf) members,
      (List.pairwise_map.1 h.distinct).imp fun other g hg g' hg' => ?_⟩
    exact .of_steps (Field.prefix_of_mem_violatedBy hg) (Field.prefix_of_mem_violatedBy hg')
      fun e => other (Segment.key.inj e)
  have rules : ToldOnce (s.peers.flatMap (·.violatedBy (ms.map Prod.fst) p)) :=
    List.pairwise_flatMap.2 ⟨fun r _ => pairwise_of_length_le_one (r.length_violatedBy_le_one _ p),
      h.peers.imp fun disjoint g hg g' hg' => PeerRule.apart disjoint hg hg'⟩
  rw [violations_object ms hs, toldOnce_append_iff, toldOnce_append_iff]
  refine ⟨⟨fields, s.toldOnce_undeclared distinct, ?_⟩, rules, ?_⟩
  · intro g hg g' hg'
    obtain ⟨f, hf, hg⟩ := List.mem_flatMap.1 hg
    obtain ⟨k, hk, rfl⟩ := List.mem_map.1 hg'
    refine .of_steps (Field.prefix_of_mem_violatedBy hg) List.prefix_rfl fun e => ?_
    cases e
    have declared : s.declares f.name := (s.declares_iff _).2 ⟨f, hf, rfl⟩
    simp [declared] at hk
  · intro g hg g' hg'
    obtain ⟨r, -, hg'⟩ := List.mem_flatMap.1 hg'
    have named : ∃ name, p.member name <+: g.path ∧
        (g.path = p.member name → g.kind.code ≠ "V009") := by
      rcases List.mem_append.1 hg with hg | hg
      · obtain ⟨f, hf, hg⟩ := List.mem_flatMap.1 hg
        exact ⟨f.name, Field.prefix_of_mem_violatedBy hg, Field.code_ne_conflict hg⟩
      · obtain ⟨k, hk, rfl⟩ := List.mem_map.1 hg
        exact ⟨k, List.prefix_rfl, fun _ => by simp [ViolationKind.code]⟩
    obtain ⟨name, below, other⟩ := named
    rcases PeerRule.subject_of_mem_violatedBy hg' with ⟨-, here, -⟩ | ⟨k, peer, -, rfl⟩
    · exact .of_step below here
    · intro same
      rw [same] at below
      cases Path.step_unique below List.prefix_rfl
      exact other same

end

/-! ### Whole values -/

variable [Formats]

/-- Items do not speak of each other, and neither do they of the number of items. -/
theorem toldOnce_array {items : List Json} {c : Constraint} (h : c.Coherent) (p : Path)
    (each : ToldOnce (positionViolations items (c.itemRules items) p 0)) :
    ToldOnce (violations (.array items) c p) := by
  have parts : ∀ g ∈ positionViolations items (c.itemRules items) p 0, ∀ {g' : Violation},
      g'.path = p → g.Apart g' := by
    intro g hg g' here
    obtain ⟨k, -, below⟩ := exists_item_of_mem_positionViolations hg
    exact .of_step below here
  have few := length_tooFew_le_one items.length c.leastItems p
  rw [violations_array, toldOnce_append_iff, toldOnce_append_iff]
  refine ⟨h.toldOnce_violatedBy _ p, ⟨each, pairwise_of_length_le_one few, ?_⟩, ?_⟩
  · intro g hg g' hg'
    obtain ⟨-, rfl⟩ := mem_tooFew_iff.1 hg'
    exact parts g hg rfl
  · intro g hg g' hg'
    obtain ⟨kind, missed, rfl⟩ := List.mem_map.1 hg
    rcases List.mem_append.1 hg' with hg' | hg'
    · exact (parts g' hg' rfl).symm
    · obtain ⟨-, rfl⟩ := mem_tooFew_iff.1 hg'
      intro _ same
      cases kind with
      | tooFewItems atLeast => exact c.tooFewItems_not_mem_violatedBy _ _ missed
      | _ => simp [ViolationKind.code] at same

-- Down the value, as the check goes.
mutual

theorem toldOnce_violations : ∀ (v : Json), v.NoRepeats → ∀ {c : Constraint} (p : Path),
    c.Coherent → ToldOnce (violations v c p)
  | .array items, distinct, c, p, h => by
    cases distinct with
    | array below =>
      exact toldOnce_array h p (toldOnce_positionViolations items below (h.itemRules items))
  | .object ms, distinct, c, p, h => by
    cases distinct with
    | object names below =>
      cases hs : c.shape? with
      | none =>
        rw [violations, hs]
        exact h.toldOnce_violatedBy _ p
      | some s => exact toldOnce_object hs (h.shape hs) names (toldOnce_memberViolations ms below)
  | .null, _, _, p, h => h.toldOnce_violatedBy .null p
  | .bool b, _, _, p, h => h.toldOnce_violatedBy (.bool b) p
  | .number n, _, _, p, h => h.toldOnce_violatedBy (.number n) p
  | .string s, _, _, p, h => h.toldOnce_violatedBy (.string s) p

theorem toldOnce_positionViolations : ∀ (vs : List Json), (∀ v ∈ vs, v.NoRepeats) →
    ∀ {rs : List Constraint} {p : Path} {i : Nat}, (∀ r ∈ rs, r.Coherent) →
      ToldOnce (positionViolations vs rs p i)
  | [], _, _, _, _, _ => .nil
  | _ :: _, _, [], _, _, _ => .nil
  | v :: vs, distinct, r :: rs, p, i, h => by
    obtain ⟨first, others⟩ := List.forall_mem_cons.1 distinct
    obtain ⟨coherent, rest⟩ := List.forall_mem_cons.1 h
    rw [positionViolations, toldOnce_append_iff]
    refine ⟨toldOnce_violations v first _ coherent, toldOnce_positionViolations vs others rest, ?_⟩
    intro g hg g' hg'
    obtain ⟨k, later, below⟩ := exists_item_of_mem_positionViolations hg'
    refine .of_steps (prefix_of_mem_violations v r _ g hg) below fun e => ?_
    cases e
    exact Nat.not_succ_le_self i later

theorem toldOnce_memberViolations : ∀ (ms : List (String × Json)), (∀ m ∈ ms, m.2.NoRepeats) →
    ∀ m ∈ ms, ∀ {c : Constraint} (p : Path), c.Coherent → ToldOnce (violations m.2 c p)
  | (k, v) :: ms, distinct, m, hm, c, p, h => by
    obtain ⟨first, others⟩ := List.forall_mem_cons.1 distinct
    rcases List.mem_cons.1 hm with rfl | hm
    · exact toldOnce_violations v first p h
    · exact toldOnce_memberViolations ms others m hm p h

end

end FlowLint
