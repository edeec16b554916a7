import FlowLint.Conformance
import FlowLint.Proofs.Json.Lookup

/-!
When a check finds nothing. That does not hang on the path at which a value is checked, so it is a
relation between values and constraints; a container meets a constraint if its parts meet theirs.
-/

namespace FlowLint

section

variable [Formats]

/-- The value passes the check. -/
def Json.Meets (v : Json) (c : Constraint) : Prop := violations v c [] = []

/-! ### Members and items -/

/-- Of a name that repeats the first member is checked. -/
theorem memberViolations?_eq (ms : List (String × Json)) (name : String) (r : Constraint)
    (p : Path) : memberViolations? ms name r p = (ms.lookup name).map (violations · r p) := by
  induction ms with
  | nil => rfl
  | cons m ms ih =>
    rw [memberViolations?, lookup_cons_ite, ih]
    split <;> rfl

/-- One constraint on all items is the same one on each of them. -/
theorem itemViolations_eq (r : Constraint) (p : Path) : ∀ (vs : List Json) (i : Nat),
    itemViolations vs r p i = positionViolations vs (vs.map fun _ => r) p i
  | [],      _ => rfl
  | _ :: vs, i => congrArg (_ ++ ·) (itemViolations_eq r p vs (i + 1))

/-- What is wrong with the members at `p` by a field. -/
def Field.violatedBy (ms : List (String × Json)) (p : Path) (f : Field Constraint) :
    List Violation :=
  match f.demand, ms.lookup f.name with
  | .optional rule, some v => violations v rule (p.member f.name)
  | .optional _,    none   => []
  | .required rule, some v => violations v rule (p.member f.name)
  | .required _,    none   => [⟨p.member f.name, .required⟩]
  | .forbidden,     some _ => [⟨p.member f.name, .notAllowed⟩]
  | .forbidden,     none   => []

/-- An object is checked field by field, then for names that no field has, then rule by rule. -/
theorem violations_object (ms : List (String × Json)) {c : Constraint} {s : Shape Constraint}
    (hs : c.shape? = some s) (p : Path) : violations (.object ms) c p =
      s.fields.flatMap (·.violatedBy ms p) ++ s.undeclared (ms.map Prod.fst) p
        ++ s.peers.flatMap (·.violatedBy (ms.map Prod.fst) p) := by
  rw [violations, hs]
  refine congrArg (s.fields.flatMap · ++ _ ++ _) (funext fun f => ?_)
  rw [Field.violatedBy]
  cases f.demand with
  | forbidden =>
    have there : (ms.map Prod.fst).contains f.name = (ms.lookup f.name).isSome := by
      rw [Bool.eq_iff_iff, List.contains_iff_mem, Option.isSome_iff_exists, exists_lookup_iff]
    simp only [there]
    cases ms.lookup f.name <;> rfl
  | _ =>
    simp only [memberViolations?_eq]
    cases ms.lookup f.name <;> rfl

end

theorem Shape.declares_iff (s : Shape Constraint) (name : String) :
    s.declares name ↔ ∃ f ∈ s.fields, f.name = name := by
  simp [declares]

/-- Something is wrong with an object by a field, by a name or by a rule. -/
theorem mem_violations_object_iff [Formats] {ms : List (String × Json)} {c : Constraint}
    {s : Shape Constraint} (hs : c.shape? = some s) {p : Path} {g : Violation} :
    g ∈ violations (.object ms) c p ↔ (∃ f ∈ s.fields, g ∈ f.violatedBy ms p) ∨
      (∃ k ∈ ms.map Prod.fst, ¬ s.declares k ∧ g = ⟨p.member k, .notAllowed⟩) ∨
        ∃ r ∈ s.peers, g ∈ r.violatedBy (ms.map Prod.fst) p := by
  have undeclared : g ∈ s.undeclared (ms.map Prod.fst) p ↔
      ∃ k ∈ ms.map Prod.fst, ¬ s.declares k ∧ g = ⟨p.member k, .notAllowed⟩ := by
    simp only [Shape.undeclared, List.mem_map, List.mem_filter, Bool.not_eq_true', and_assoc,
      Bool.not_eq_true, eq_comm (a := g)]
  rw [violations_object ms hs, List.mem_append, List.mem_append, List.mem_flatMap,
    List.mem_flatMap, undeclared, or_assoc]

theorem tooFew_eq_nil_iff (count atLeast : Nat) (p : Path) :
    tooFew count atLeast p = [] ↔ atLeast ≤ count := by
  rw [tooFew]
  split <;> simp <;> omega

/-- What a field asks of the members, each of which is checked by `passes`. -/
def Field.Holds (passes : Json → Constraint → Prop) (ms : List (String × Json))
    (f : Field Constraint) : Prop :=
  match f.demand with
  | .optional rule => ∀ v, ms.lookup f.name = some v → passes v rule
  | .required rule => ∃ v, ms.lookup f.name = some v ∧ passes v rule
  | .forbidden     => f.name ∉ ms.map Prod.fst

/-- What a rule asks of the names of the members. -/
def PeerRule.Holds (names : List String) : PeerRule → Prop
  | .excludes key peers       => key ∈ names → ∀ k ∈ peers, k ∉ names
  | .exactlyOneOf peers       => (peers.filter names.contains).length = 1
  | .atLeastOneOf peers       => ∃ k ∈ peers, k ∈ names
  | .keyed key present absent => if key ∈ names then present.Holds names else absent.Holds names

/-- A rule finds nothing exactly if it holds. -/
theorem PeerRule.violatedBy_eq_nil_iff (names : List String) (p : Path) :
    ∀ r : PeerRule, r.violatedBy names p = [] ↔ r.Holds names
  | .excludes key peers => by
    rw [violatedBy, Holds]
    by_cases h : key ∈ names
    · rw [if_pos (by simpa using h)]
      cases found : peers.find? names.contains with
      | none =>
        simp only [List.find?_eq_none, List.contains_iff_mem] at found
        exact ⟨fun _ _ => found, fun _ => rfl⟩
      | some peer =>
        have peer_mem := List.mem_of_find?_eq_some found
        have there := List.find?_some found
        simp only [List.contains_iff_mem] at there
        simp only [reduceCtorEq, false_iff]
        exact fun none' => none' h peer peer_mem there
    · rw [if_neg (by simpa using h)]
      exact ⟨fun _ there => absurd there h, fun _ => rfl⟩
  | .exactlyOneOf peers => by
    rw [violatedBy, Holds]
    split
    · next h => simp [h]
    · next h => simp [h]
    · next many single =>
      simp only [reduceCtorEq, false_iff]
      intro one
      obtain ⟨k, hk⟩ := List.length_eq_one_iff.1 one
      exact single k hk
  | .atLeastOneOf peers => by
    rw [violatedBy, Holds]
    split <;> simp_all
  | .keyed key present absent => by
    rw [violatedBy, Holds]
    by_cases h : key ∈ names
    · rw [if_pos (by simpa using h), if_pos h]
      exact present.violatedBy_eq_nil_iff names p
    · rw [if_neg (by simpa using h), if_neg h]
      exact absent.violatedBy_eq_nil_iff names p

theorem Shape.undeclared_eq_nil_iff (s : Shape Constraint) (names : List String) (p : Path) :
    s.undeclared names p = [] ↔ ∀ k ∈ names, s.declares k := by
  simp [Shape.undeclared, List.filter_eq_nil_iff]

/-- A field finds nothing exactly if it holds, each member checked at its place. -/
theorem Field.violatedBy_eq_nil_iff [Formats] (ms : List (String × Json)) (p : Path)
    (f : Field Constraint) : f.violatedBy ms p = [] ↔
      f.Holds (fun v r => violations v r (p.member f.name) = []) ms := by
  rw [violatedBy, Holds, ← exists_lookup_iff]
  cases f.demand <;> cases ms.lookup f.name <;> simp

/-- An object passes if every field, every name and every rule among the names does. -/
theorem violations_object_eq_nil_iff [Formats] (ms : List (String × Json)) {c : Constraint}
    {s : Shape Constraint} (hs : c.shape? = some s) (p : Path) :
    violations (.object ms) c p = [] ↔
      (∀ f ∈ s.fields, f.Holds (fun v r => violations v r (p.member f.name) = []) ms) ∧
        (∀ k ∈ ms.map Prod.fst, s.declares k) ∧ ∀ r ∈ s.peers, r.Holds (ms.map Prod.fst) := by
  rw [violations_object ms hs]
  simp only [List.append_eq_nil_iff, List.flatMap_eq_nil_iff, and_assoc,
    Field.violatedBy_eq_nil_iff, Shape.undeclared_eq_nil_iff, PeerRule.violatedBy_eq_nil_iff]

/-! ### Where a value stands -/

/-- The same is wrong with a value that stands at `p` and not at the root. -/
def Violation.under (p : Path) (g : Violation) : Violation := ⟨p ++ g.path, g.kind⟩

theorem Path.append_member (p q : Path) (name : String) :
    (p ++ q).member name = p ++ q.member name := List.append_assoc ..

theorem Path.append_item (p q : Path) (i : Nat) : (p ++ q).item i = p ++ q.item i :=
  List.append_assoc ..

section

variable (p q : Path)

theorem map_mk_append (kinds : List ViolationKind) : kinds.map (Violation.mk (p ++ q)) =
    (kinds.map (Violation.mk q)).map (·.under p) := by
  rw [List.map_map]
  rfl

theorem tooFew_append (count atLeast : Nat) :
    tooFew count atLeast (p ++ q) = (tooFew count atLeast q).map (·.under p) := by
  rw [tooFew, tooFew]
  split <;> rfl

theorem PeerRule.violatedBy_append (names : List String) (r : PeerRule) :
    r.violatedBy names (p ++ q) = (r.violatedBy names q).map (·.under p) := by
  induction r with
  | excludes key peers =>
    rw [violatedBy, violatedBy, Path.append_member]
    split
    · split <;> rfl
    · rfl
  | exactlyOneOf peers =>
    rw [violatedBy, violatedBy]
    split <;> rfl
  | atLeastOneOf peers =>
    rw [violatedBy, violatedBy]
    split <;> rfl
  | keyed key present absent present_ih absent_ih =>
    rw [violatedBy, violatedBy]
    split
    · exact present_ih
    · exact absent_ih

theorem Shape.undeclared_append (s : Shape Constraint) (names : List String) :
    s.undeclared names (p ++ q) = (s.undeclared names q).map (·.under p) := by
  rw [undeclared, undeclared, List.map_map]
  exact List.map_congr_left fun name _ => by rw [Path.append_member]; rfl

variable [Formats]

theorem Field.violatedBy_append {ms : List (String × Json)} (f : Field Constraint)
    (members : ∀ m ∈ ms, ∀ c q,
      violations m.2 c (p ++ q) = (violations m.2 c q).map (·.under p)) :
    f.violatedBy ms (p ++ q) = (f.violatedBy ms q).map (·.under p) := by
  rw [violatedBy, violatedBy, Path.append_member]
  cases hv : ms.lookup f.name with
  | none => cases f.demand <;> rfl
  | some v =>
    have value := members _ (mem_of_lookup hv)
    cases f.demand with
    | optional rule => exact value rule _
    | required rule => exact value rule _
    | forbidden => rfl

end

variable [Formats]

-- Down the value; a field looks its member up, so members are spoken of one by one.
mutual

/-- What is said of a value does not hang on where it stands, apart from the path. -/
theorem violations_append (p : Path) : ∀ (v : Json) (c : Constraint) (q : Path),
    violations v c (p ++ q) = (violations v c q).map (·.under p)
  | .array items, c, q => by
    cases c with
    | list item atLeast =>
      cases item with
      | none => exact tooFew_append p q items.length atLeast
      | some r =>
        rw [violations, violations, List.map_append, ← tooFew_append, itemViolations_eq,
          itemViolations_eq, positionViolations_append]
    | positions rules atLeast =>
      rw [violations, violations, List.map_append, ← tooFew_append, positionViolations_append]
    | _ => exact map_mk_append p q _
  | .object ms, c, q => by
    cases hs : c.shape? with
    | none =>
      rw [violations, violations, hs]
      exact map_mk_append p q _
    | some s =>
      have fields (f : Field Constraint) :
          f.violatedBy ms (p ++ q) = (f.violatedBy ms q).map (·.under p) :=
        f.violatedBy_append p q (memberViolations_append p ms)
      simp only [violations_object ms hs, fields, s.undeclared_append, List.map_append,
        List.map_flatMap, PeerRule.violatedBy_append]
  | .null, _, q => map_mk_append p q _
  | .bool _, _, q => map_mk_append p q _
  | .number _, _, q => map_mk_append p q _
  | .string _, _, q => map_mk_append p q _

theorem positionViolations_append (p : Path) : ∀ (vs : List Json) (rs : List Constraint) (q : Path)
    (i : Nat), positionViolations vs rs (p ++ q) i = (positionViolations vs rs q i).map (·.under p)
  | [], _, _, _ => rfl
  | _ :: _, [], _, _ => rfl
  | v :: vs, r :: rs, q, i => by
    rw [positionViolations, positionViolations, List.map_append, Path.append_item,
      violations_append p v, positionViolations_append p vs]

theorem memberViolations_append (p : Path) : ∀ (ms : List (String × Json)), ∀ m ∈ ms,
    ∀ (c : Constraint) (q : Path),
      violations m.2 c (p ++ q) = (violations m.2 c q).map (·.under p)
  | (k, v) :: ms, m, hm, c, q => by
    rcases List.mem_cons.1 hm with rfl | hm
    · exact violations_append p v c q
    · exact memberViolations_append p ms m hm c q

end

theorem violations_eq_map_under (v : Json) (c : Constraint) (p : Path) :
    violations v c p = (violations v c []).map (·.under p) := by
  rw [← violations_append, List.append_nil]

/-- Whether a value passes does not depend on where it stands. -/
theorem violations_eq_nil_iff {v : Json} {c : Constraint} (p : Path) :
    violations v c p = [] ↔ v.Meets c := by
  rw [violations_eq_map_under, List.map_eq_nil_iff, Json.Meets]

namespace Json

/-! ### Containers -/

theorem positionViolations_eq_nil_iff (f : Json → Constraint) (vs : List Json)
    (p : Path) (i : Nat) :
    positionViolations vs (vs.map f) p i = [] ↔ ∀ v ∈ vs, v.Meets (f v) := by
  induction vs generalizing i with
  | nil => exact ⟨fun _ _ h => (List.not_mem_nil h).elim, fun _ => rfl⟩
  | cons v vs ih =>
    rw [List.map_cons, positionViolations, List.append_eq_nil_iff, violations_eq_nil_iff, ih,
      List.forall_mem_cons]

/-- A list passes if it is long enough and each item passes. -/
theorem meets_list_iff (v : Json) (r : Constraint) (atLeast : Nat) :
    v.Meets (.list (some r) atLeast) ↔
      ∃ items, v = .array items ∧ atLeast ≤ items.length ∧ ∀ i ∈ items, i.Meets r := by
  cases v with
  | array items =>
    rw [Meets, violations, List.append_eq_nil_iff, itemViolations_eq,
      positionViolations_eq_nil_iff fun _ => r, tooFew_eq_nil_iff]
    constructor
    · exact fun h => ⟨items, rfl, h.2, h.1⟩
    · rintro ⟨_, e, few, each⟩
      cases e
      exact ⟨each, few⟩
  | _ => exact ⟨nofun, nofun⟩

/-- Where each item has the constraint made from it, each is checked. -/
theorem meets_positions_iff (f : Json → Constraint) (items : List Json) (atLeast : Nat) :
    (Json.array items).Meets (.positions (items.map f) atLeast) ↔
      atLeast ≤ items.length ∧ ∀ v ∈ items, v.Meets (f v) := by
  rw [Meets, violations, List.append_eq_nil_iff, positionViolations_eq_nil_iff f,
    tooFew_eq_nil_iff, and_comm]

end Json

end FlowLint
