import FlowLint.Proofs.Conformance.Exact
import FlowLint.Proofs.Diagnostic.Messages

/-!
Where the names come from that messages repeat. A check finds them in the constraint, or among the
members of the value, or counts them as indices; so what holds of all those names holds of the names
in the report.
-/

namespace FlowLint

variable {P : String → Prop}

/-! ### Values -/

/-- The property holds of the names of all members in a value. -/
inductive Json.Named (P : String → Prop) : Json → Prop
  | null : Named P .null
  | bool (b : Bool) : Named P (.bool b)
  | number (n : Number) : Named P (.number n)
  | string (s : String) : Named P (.string s)
  | array {items : List Json} (each : ∀ v ∈ items, Named P v) : Named P (.array items)
  | object {ms : List (String × Json)} (names : ∀ m ∈ ms, P m.1) (each : ∀ m ∈ ms, Named P m.2) :
      Named P (.object ms)

namespace Json.Named

variable {ms : List (String × Json)}

theorem items {vs : List Json} (h : (Json.array vs).Named P) : ∀ v ∈ vs, v.Named P := by
  cases h with
  | array each => exact each

theorem names (h : (Json.object ms).Named P) : ∀ name ∈ ms.map Prod.fst, P name := by
  cases h with
  | object names _ => exact List.forall_mem_map.2 names

theorem members (h : (Json.object ms).Named P) : ∀ m ∈ ms, m.2.Named P := by
  cases h with
  | object _ each => exact each

end Json.Named

/-! ### Constraints -/

/-- The names that a rule among the members speaks of. -/
def PeerRule.names : PeerRule → List String
  | .excludes key peers       => key :: peers
  | .exactlyOneOf peers       => peers
  | .atLeastOneOf peers       => peers
  | .keyed key present absent => key :: (present.names ++ absent.names)

/-- The property holds of all names in a constraint: those of fields, those that rules speak of and
    the candidates for texts. -/
inductive Constraint.Named (P : String → Prop) : Constraint → Prop
  | anything : Named P .anything
  | text {among : Option (List String)} {format : TextFormat}
      (candidates : ∀ texts, among = some texts → ∀ s ∈ texts, P s) : Named P (.text among format)
  | number (rule : NumberRule) : Named P (.number rule)
  | boolean : Named P .boolean
  | timestamp : Named P .timestamp
  | list {item : Option Constraint} {atLeast : Nat} (below : ∀ r, item = some r → Named P r) :
      Named P (.list item atLeast)
  | positions {rs : List Constraint} {atLeast : Nat} (each : ∀ r ∈ rs, Named P r) :
      Named P (.positions rs atLeast)
  | record {s : Shape Constraint} (fields : ∀ f ∈ s.fields, P f.name)
      (rules : ∀ f ∈ s.fields, ∀ r, f.rule? = some r → Named P r)
      (peers : ∀ r ∈ s.peers, ∀ name ∈ r.names, P name) : Named P (.record s)
  | choiceRule : Named P .choiceRule

/-- The property holds of the name of a field and of all names in what it asks. -/
structure Field.Named (P : String → Prop) (f : Field Constraint) : Prop where
  name : P f.name
  rule : ∀ r, f.rule? = some r → r.Named P

/-- The property holds of all names in a shape. -/
structure Shape.Named (P : String → Prop) (s : Shape Constraint) : Prop where
  fields : ∀ f ∈ s.fields, f.Named P
  peers  : ∀ r ∈ s.peers, ∀ name ∈ r.names, P name

theorem Shape.Named.record {s : Shape Constraint} (h : s.Named P) : (Constraint.record s).Named P :=
  .record (fun f hf => (h.fields f hf).name) (fun f hf => (h.fields f hf).rule) h.peers

/-- The names in a constraint are those in its shape, once a choice rule is spelled out. -/
theorem Constraint.Named.shape {c : Constraint} {s : Shape Constraint} (h : c.Named P)
    (nested : ChoiceRule.nestedShape.Named P) (hs : c.shape? = some s) : s.Named P := by
  cases h with
  | record fields rules peers =>
    cases hs
    exact ⟨fun f hf => ⟨fields f hf, rules f hf⟩, peers⟩
  | choiceRule =>
    cases hs
    exact nested
  | _ => cases hs

/-! ### Reports -/

theorem Path.label_member (p : Path) (name : String) : (p.member name).label = name := by
  simp [member, push, label, Segment.text]

theorem Path.label_item (p : Path) (i : Nat) : (p.item i).label = toString i := by
  simp [item, push, label, Segment.text]

theorem Constraint.Misses.named [Formats] {c : Constraint} {v : Json} {kind : ViolationKind}
    (h : c.Misses v kind) (hc : c.Named P) {label : String} (hl : P label) :
    ∀ name ∈ kind.repeated label, P name := by
  cases h with
  | notAmong other =>
    cases hc with
    | text candidates => exact List.forall_mem_cons.2 ⟨hl, candidates _ rfl⟩
  | _ => exact List.forall_mem_singleton.2 hl

theorem PeerRule.Misses.named {names : List String} {p : Path} {r : PeerRule} {w : Violation}
    (h : r.Misses names p w) (hr : ∀ name ∈ r.names, P name) : ∀ name ∈ w.repeated, P name := by
  induction h with
  | @conflict key peer before after there first found =>
    have all : ∀ name ∈ [key, peer], P name := by
      intro name hn
      refine hr name ?_
      rw [PeerRule.names]
      simp only [List.mem_cons, List.not_mem_nil, or_false] at hn
      rcases hn with rfl | rfl <;> simp
    rw [Violation.repeated, Path.label_member]
    exact all
  | several many => exact fun name hn => hr name (List.mem_of_mem_filter hn)
  | lacksOne none => exact hr
  | lacksAll none => exact hr
  | present there _ ih =>
    exact ih fun name hn => hr name (List.mem_cons_of_mem _ (List.mem_append_left _ hn))
  | absent missing _ ih =>
    exact ih fun name hn => hr name (List.mem_cons_of_mem _ (List.mem_append_right _ hn))

variable [Formats]

/-- The names that a failure makes a message repeat are names in the constraint or in the value. -/
theorem Fails.named {c : Constraint} {v : Json} {p : Path} {k : Clause} {w : Violation}
    (h : Fails c v p k w) (nested : ChoiceRule.nestedShape.Named P)
    (index : ∀ i : Nat, P (toString i)) (hc : c.Named P) (hv : v.Named P) (hp : P p.label) :
    ∀ name ∈ w.repeated, P name := by
  induction h with
  | itself misses => exact misses.named hc hp
  | missing shape field lacks =>
    have named := (hc.shape nested shape).fields _ (List.mem_of_getElem? field)
    rw [Violation.repeated, Path.label_member]
    exact List.forall_mem_singleton.2 named.name
  | forbidden shape field there =>
    rw [Violation.repeated, Path.label_member]
    exact List.forall_mem_singleton.2 (hv.names _ there)
  | member shape field rule there _ ih =>
    have named := (hc.shape nested shape).fields _ (List.mem_of_getElem? field)
    refine ih (named.rule _ rule) (hv.members _ (mem_of_lookup there)) ?_
    rw [Path.label_member]
    exact named.name
  | undeclared shape there unknown =>
    rw [Violation.repeated, Path.label_member]
    exact List.forall_mem_singleton.2
      (hv.names _ (List.mem_map_of_mem (List.mem_of_getElem? there)))
  | peers shape rule misses =>
    exact misses.named ((hc.shape nested shape).peers _ (List.mem_of_getElem? rule))
  | item there _ ih =>
    cases hc with
    | list below =>
      refine ih (below _ rfl) (hv.items _ (List.mem_of_getElem? there)) ?_
      rw [Path.label_item]
      exact index _
  | position there rule _ ih =>
    cases hc with
    | positions each =>
      refine ih (each _ (List.mem_of_getElem? rule)) (hv.items _ (List.mem_of_getElem? there)) ?_
      rw [Path.label_item]
      exact index _

end FlowLint
