import FlowLint.Proofs.Conformance.Objects
import FlowLint.Proofs.Json.Reordered

/-!
What the order of members changes in a check: nothing but the order of what is reported, and of the
texts that a value should have been one of. That holds as well where the constraint itself comes in
another order, as that of a document does.
-/

namespace FlowLint

/-! ### Violations -/

/-- The same is wrong, the candidates for a text perhaps named in another order. -/
inductive ViolationKind.Alike : ViolationKind → ViolationKind → Prop
  | same (k : ViolationKind) : Alike k k
  | notOneOf {texts texts' : List String} (order : texts.Perm texts') :
      Alike (.notOneOf texts) (.notOneOf texts')

/-- The same is wrong at the same place. -/
structure Violation.Alike (g g' : Violation) : Prop where
  path : g.path = g'.path
  kind : g.kind.Alike g'.kind

theorem Violation.Alike.same (g : Violation) : g.Alike g := ⟨rfl, .same g.kind⟩

/-- Two reports say the same, up to order. -/
abbrev SayTheSame : List Violation → List Violation → Prop := Shuffled Violation.Alike

theorem SayTheSame.of_perm {gs gs' : List Violation} (order : gs.Perm gs') : SayTheSame gs gs' :=
  (Shuffled.refl Violation.Alike.same gs).trans_perm order

theorem SayTheSame.of_eq {gs gs' : List Violation} (h : gs = gs') : SayTheSame gs gs' :=
  .of_perm (.of_eq h)

/-! ### Constraints -/

/-- The same is asked of a member of the same name, up to `R`. -/
inductive Field.Alike {ρ : Type} (R : ρ → ρ → Prop) : Field ρ → Field ρ → Prop
  | optional (name : String) {r r' : ρ} (h : R r r') :
      Alike R ⟨name, .optional r⟩ ⟨name, .optional r'⟩
  | required (name : String) {r r' : ρ} (h : R r r') :
      Alike R ⟨name, .required r⟩ ⟨name, .required r'⟩
  | forbidden (name : String) : Alike R ⟨name, .forbidden⟩ ⟨name, .forbidden⟩

/-- The same is asked of a value, the candidates for a text and the fields of an object perhaps
    given in another order. -/
inductive Constraint.Alike : Constraint → Constraint → Prop
  | same (c : Constraint) : Alike c c
  | oneOf {texts texts' : List String} (order : texts.Perm texts') (format : TextFormat) :
      Alike (.text (some texts) format) (.text (some texts') format)
  | list {r r' : Constraint} (h : Alike r r') (atLeast : Nat) :
      Alike (.list (some r) atLeast) (.list (some r') atLeast)
  | positions {rs rs' : List Constraint} (each : List.Forall₂ Alike rs rs') (atLeast : Nat) :
      Alike (.positions rs atLeast) (.positions rs' atLeast)
  | record {fields mid fields' : List (Field Constraint)}
      (each : List.Forall₂ (Field.Alike Alike) fields mid) (order : mid.Perm fields')
      (peers : List PeerRule) : Alike (.record ⟨fields, peers⟩) (.record ⟨fields', peers⟩)

/-- The same members are asked for. -/
structure Shape.Alike (s s' : Shape Constraint) : Prop where
  fields : Shuffled (Field.Alike Constraint.Alike) s.fields s'.fields
  peers  : s.peers = s'.peers

theorem Field.Alike.same (f : Field Constraint) : f.Alike Constraint.Alike f := by
  obtain ⟨name, demand⟩ := f
  cases demand with
  | optional r => exact .optional name (.same r)
  | required r => exact .required name (.same r)
  | forbidden => exact .forbidden name

theorem Field.Alike.name {ρ : Type} {R : ρ → ρ → Prop} {f f' : Field ρ} (h : f.Alike R f') :
    f.name = f'.name := by cases h <;> rfl

theorem Shape.Alike.of_fields {fields fields' : List (Field Constraint)}
    (h : Shuffled (Field.Alike Constraint.Alike) fields fields') (peers : List PeerRule) :
    Shape.Alike ⟨fields, peers⟩ ⟨fields', peers⟩ := ⟨h, rfl⟩

theorem Shape.Alike.same (s : Shape Constraint) : s.Alike s := ⟨.refl Field.Alike.same _, rfl⟩

theorem Shape.Alike.record {s s' : Shape Constraint} (h : s.Alike s') :
    Constraint.Alike (.record s) (.record s') := by
  obtain ⟨fields, peers⟩ := s
  obtain ⟨fields', peers'⟩ := s'
  obtain ⟨⟨mid, each, order⟩, rfl⟩ := h
  exact .record each order peers

namespace Constraint.Alike

variable {c c' : Constraint} {v w : Json}

/-- Both constraints ask for members, and for the same ones, or neither does. -/
theorem shape? (h : c.Alike c') : (c.shape? = none ∧ c'.shape? = none) ∨
    ∃ s s', c.shape? = some s ∧ c'.shape? = some s' ∧ s.Alike s' := by
  cases h with
  | same c =>
    cases c.shape? with
    | none => exact .inl ⟨rfl, rfl⟩
    | some s => exact .inr ⟨s, s, rfl, rfl, .same s⟩
  | record each order peers => exact .inr ⟨_, _, rfl, rfl, ⟨_, each, order⟩, rfl⟩
  | _ => exact .inl ⟨rfl, rfl⟩

variable [Formats]

/-- A value by itself fails the same. -/
theorem violatedBy (h : c.Alike c') (hv : v.Reordered w) :
    List.Forall₂ ViolationKind.Alike (c.violatedBy v) (c'.violatedBy w) := by
  have type : c.violatedBy v = c.violatedBy w := by
    cases hv with
    | array each =>
      cases c with
      | text among format => cases among <;> rfl
      | _ => rfl
    | object each order =>
      cases c with
      | text among format => cases among <;> rfl
      | _ => rfl
    | _ => rfl
  rw [type]
  cases h with
  | same c => exact List.forall₂_same.2 fun k _ => .same k
  | oneOf order format =>
    have listed := List.Forall₂.cons (ViolationKind.Alike.notOneOf order) .nil
    cases w with
    | string s =>
      rw [Constraint.violatedBy, Constraint.violatedBy, order.contains_eq]
      split
      · exact .nil
      · exact listed
    | _ => exact listed
  | _ => cases w <;> exact List.forall₂_same.2 fun k _ => .same k

end Constraint.Alike

/-! ### Checks -/

namespace Constraint

/-- The constraints on the items of an array, one by one. -/
def itemRules (items : List Json) : Constraint → List Constraint
  | .list (some r) _   => items.map fun _ => r
  | .positions rules _ => rules
  | _                  => []

/-- How many items there must be. -/
def leastItems : Constraint → Nat
  | .list _ atLeast      => atLeast
  | .positions _ atLeast => atLeast
  | _                    => 0

end Constraint

/-- An array is checked item by item, then for the number of items. -/
theorem violations_array [Formats] (items : List Json) (c : Constraint) (p : Path) :
    violations (.array items) c p = (c.violatedBy (.array items)).map (⟨p, ·⟩) ++
      (positionViolations items (c.itemRules items) p 0 ++
        tooFew items.length c.leastItems p) := by
  have unasked : positionViolations items [] p 0 = [] := by cases items <;> rfl
  cases c with
  | list r atLeast =>
    cases r with
    | none => simp [violations, Constraint.violatedBy, Constraint.itemRules, unasked]; rfl
    | some r =>
      simp [violations, Constraint.violatedBy, Constraint.itemRules, itemViolations_eq]; rfl
  | positions rules atLeast => rfl
  | _ => simp [violations, Constraint.itemRules, Constraint.leastItems, unasked, tooFew]

theorem Constraint.Alike.itemRules {c c' : Constraint} (h : c.Alike c') {items items' : List Json}
    (each : List.Forall₂ Json.Reordered items items') :
    List.Forall₂ Constraint.Alike (c.itemRules items) (c'.itemRules items') := by
  have uniform {r r' : Constraint} (hr : r.Alike r') :
      List.Forall₂ Constraint.Alike (items.map fun _ => r) (items'.map fun _ => r') := by
    rw [List.forall₂_map_left_iff, List.forall₂_map_right_iff]
    exact each.imp fun _ _ _ => hr
  cases h with
  | same c =>
    cases c with
    | list r atLeast =>
      cases r with
      | none => exact .nil
      | some r => exact uniform (.same r)
    | positions rules atLeast => exact List.forall₂_same.2 fun r _ => .same r
    | _ => exact .nil
  | list hr atLeast => exact uniform hr
  | positions each atLeast => exact each
  | _ => exact .nil

theorem Constraint.Alike.leastItems {c c' : Constraint} (h : c.Alike c') :
    c.leastItems = c'.leastItems := by cases h <;> rfl

theorem PeerRule.violatedBy_congr {names names' : List String} (order : names.Perm names')
    (p : Path) (r : PeerRule) : r.violatedBy names p = r.violatedBy names' p := by
  have same (k : String) : names.contains k = names'.contains k := order.contains_eq
  have all : names.contains = names'.contains := funext same
  induction r with
  | keyed key present absent ih ih' => rw [violatedBy, violatedBy, ih, ih', same]
  | _ => simp only [violatedBy, same, all]

/-- The same names are declared by fields that are alike. -/
theorem Shuffled.any_name {fields fields' : List (Field Constraint)}
    (h : Shuffled (Field.Alike Constraint.Alike) fields fields') (name : String) :
    fields.any (·.name == name) = fields'.any (·.name == name) := by
  have names := h.perm_map fun _ _ same => same.name
  have any := names.any_eq (f := (· == name))
  rwa [List.any_map, List.any_map] at any

/-- The same members are not allowed. -/
theorem Shape.Alike.undeclared {s s' : Shape Constraint} (h : s.Alike s')
    {names names' : List String} (order : names.Perm names') (p : Path) :
    (s.undeclared names p).Perm (s'.undeclared names' p) := by
  have declared : s.declares = s'.declares := funext h.fields.any_name
  rw [Shape.undeclared, Shape.undeclared, declared]
  exact (order.filter _).map _

theorem sayTheSame_map {ks ks' : List ViolationKind} (h : List.Forall₂ ViolationKind.Alike ks ks')
    (p : Path) : SayTheSame (ks.map (⟨p, ·⟩)) (ks'.map (⟨p, ·⟩)) :=
  (Shuffled.of_forall₂ h).map fun _ _ _ alike => ⟨rfl, alike⟩

variable [Formats]

/-- A field finds the same in members of the same names, if their values are found the same. -/
theorem Field.Alike.sayTheSame {ms ms' : List (String × Json)} {f f' : Field Constraint} {p : Path}
    (h : f.Alike Constraint.Alike f') (members : Shuffled (SameName Json.Reordered) ms ms')
    (distinct : (ms.map Prod.fst).Nodup)
    (values : ∀ m ∈ ms, ∀ {w c c' p}, m.2.Reordered w → Constraint.Alike c c' →
      SayTheSame (violations m.2 c p) (violations w c' p)) :
    SayTheSame (f.violatedBy ms p) (f'.violatedBy ms' p) := by
  rw [Field.violatedBy, Field.violatedBy, h.name]
  rcases members.lookup distinct f'.name with ⟨absent, absent'⟩ | ⟨v, w, here, here', related⟩
  · rw [absent, absent']
    cases h <;> exact SayTheSame.of_eq rfl
  · have value := @values _ (mem_of_lookup here)
    rw [here, here']
    cases h with
    | optional name hr => exact value related hr
    | required name hr => exact value related hr
    | forbidden name => exact SayTheSame.of_eq rfl

/-- A shape finds the same in objects of the same members. -/
theorem Shape.Alike.sayTheSame {ms ms' : List (String × Json)} {s s' : Shape Constraint}
    (h : s.Alike s') (members : Shuffled (SameName Json.Reordered) ms ms')
    (distinct : (ms.map Prod.fst).Nodup)
    (values : ∀ m ∈ ms, ∀ {w c c' p}, m.2.Reordered w → Constraint.Alike c c' →
      SayTheSame (violations m.2 c p) (violations w c' p)) (p : Path) :
    SayTheSame
      (s.fields.flatMap (·.violatedBy ms p) ++ s.undeclared (ms.map Prod.fst) p
        ++ s.peers.flatMap (·.violatedBy (ms.map Prod.fst) p))
      (s'.fields.flatMap (·.violatedBy ms' p) ++ s'.undeclared (ms'.map Prod.fst) p
        ++ s'.peers.flatMap (·.violatedBy (ms'.map Prod.fst) p)) := by
  have names := members.perm_names
  have peers : s.peers.flatMap (·.violatedBy (ms.map Prod.fst) p) =
      s'.peers.flatMap (·.violatedBy (ms'.map Prod.fst) p) := by
    rw [h.peers]
    exact congrArg (s'.peers.flatMap ·) (funext (PeerRule.violatedBy_congr names p))
  have fields := h.fields.flatMap fun f f' hf =>
    (hf.sayTheSame members distinct values : SayTheSame (f.violatedBy ms p) (f'.violatedBy ms' p))
  rw [peers]
  exact (fields.append (SayTheSame.of_perm (h.undeclared names p))).append (SayTheSame.of_eq rfl)

-- A check respects both orders. The recursion is on the value; where a member or an item is checked
-- in one of the values, the one of that name or index is in the other.
mutual

theorem violations_sayTheSame : ∀ (v : Json) {w : Json} {c c' : Constraint} {p : Path},
    v.Reordered w → v.NoRepeats → c.Alike c' → SayTheSame (violations v c p) (violations w c' p)
  | .array items, w, c, c', p, hv, distinct, hc => by
    have byItself := sayTheSame_map (hc.violatedBy hv) p
    cases hv with
    | array each =>
      cases distinct with
      | array below =>
        have parts := positionViolations_sayTheSame items (p := p) (i := 0) each below
          (hc.itemRules each)
        rw [violations_array, violations_array, hc.leastItems, each.length_eq]
        exact byItself.append (parts.append (SayTheSame.of_eq rfl))
  | .object ms, w, c, c', p, hv, distinct, hc => by
    have byItself := sayTheSame_map (hc.violatedBy hv) p
    cases hv with
    | @object _ mid ms' each order =>
      cases distinct with
      | object names below =>
        rcases hc.shape? with ⟨none', none''⟩ | ⟨s, s', hs, hs', alike⟩
        · rw [violations, violations, none', none'']
          exact byItself
        · rw [violations_object ms hs, violations_object ms' hs']
          exact alike.sayTheSame ⟨mid, each, order⟩ names (memberViolations_sayTheSame ms below) p
  | .null, _, c, c', p, .null, _, hc => sayTheSame_map (hc.violatedBy .null) p
  | .bool b, _, c, c', p, .bool _, _, hc => sayTheSame_map (hc.violatedBy (.bool b)) p
  | .number n, _, c, c', p, .number _, _, hc => sayTheSame_map (hc.violatedBy (.number n)) p
  | .string s, _, c, c', p, .string _, _, hc => sayTheSame_map (hc.violatedBy (.string s)) p

theorem positionViolations_sayTheSame : ∀ (vs : List Json) {ws : List Json}
    {rs rs' : List Constraint} {p : Path} {i : Nat}, List.Forall₂ Json.Reordered vs ws →
    (∀ v ∈ vs, v.NoRepeats) → List.Forall₂ Constraint.Alike rs rs' →
    SayTheSame (positionViolations vs rs p i) (positionViolations ws rs' p i)
  | [], _, rs, rs', p, i, .nil, _, _ => .of_eq rfl
  | v :: vs, _, _, _, p, i, .cons _ _, _, .nil => .of_eq rfl
  | v :: vs, _, _, _, p, i, .cons hv hvs, distinct, .cons hr hrs => by
    obtain ⟨first, others⟩ := List.forall_mem_cons.1 distinct
    exact (violations_sayTheSame v hv first hr).append
      (positionViolations_sayTheSame vs hvs others hrs)

theorem memberViolations_sayTheSame : ∀ (ms : List (String × Json)), (∀ m ∈ ms, m.2.NoRepeats) →
    ∀ m ∈ ms, ∀ {w : Json} {c c' : Constraint} {p : Path}, m.2.Reordered w → c.Alike c' →
      SayTheSame (violations m.2 c p) (violations w c' p)
  | (k, v) :: ms, distinct, m, hm, w, c, c', p, hv, hc => by
    obtain ⟨first, others⟩ := List.forall_mem_cons.1 distinct
    rcases List.mem_cons.1 hm with rfl | hm
    · exact violations_sayTheSame v hv first hc
    · exact memberViolations_sayTheSame ms others m hm hv hc

end

end FlowLint
