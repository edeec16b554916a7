import FlowLint.Proofs.Conformance.Values

/-!
A check under way. It goes over the same constraints as `violations`, but writes down each thing
that is wrong after all that it has found before, whatever that is, and tells the reasons for going
on or turning back by the value itself. Nothing that it has found changes what it does next: in the
end it has found what it had before and then what `violations` reports.
-/

namespace FlowLint

/-- A check under way: what it has found so far, in order. -/
structure Checker where
  found : List Violation

namespace Checker

/-- Nothing is found yet. -/
def start : Checker := ⟨[]⟩

/-- One thing more is found. -/
def note (k : Checker) (p : Path) (kind : ViolationKind) : Checker := ⟨k.found ++ [⟨p, kind⟩]⟩

/-- All those are found, in that order. -/
def add (k : Checker) (gs : List Violation) : Checker := ⟨k.found ++ gs⟩

section

variable [Formats]

/-! ### Single values -/

/-- Where there are candidates nothing else is asked; elsewhere the first thing that is wrong is the
    only one. -/
def text (k : Checker) (among : Option (List String)) (format : TextFormat) (v : Json) (p : Path) :
    Checker :=
  match among with
  | some texts => if v.text?.any texts.contains then k else k.note p (.notOneOf texts)
  | none       =>
    match v.text? with
    | none   => k.note p (.invalidType .string)
    | some s =>
      if s.isEmpty then k.note p .empty
      else if format = .uri ∧ !Formats.isUri s then k.note p .invalidUri
      else k

/-- Each bound is looked at, whatever the one before has shown. -/
def number (k : Checker) (rule : NumberRule) (v : Json) (p : Path) : Checker :=
  match v with
  | .number n =>
    let x := n.toBinary64
    let k := if rule.whole ∧ !x.isWhole then k.note p (.invalidType .integer) else k
    let k := rule.least.elim k fun least =>
      if x.lt least then k.note p (.belowMinimum least) else k
    rule.most.elim k fun most => if most.lt x then k.note p (.aboveMaximum most) else k
  | _         => k.note p (.invalidType .number)

/-- The number of items, once the items are checked. -/
def count (k : Checker) (items : List Json) (atLeast : Nat) (p : Path) : Checker :=
  if items.length < atLeast then k.note p (.tooFewItems atLeast) else k

/-! ### Members -/

/-- A rule among members of those names. -/
def peers (names : List String) (p : Path) : Checker → PeerRule → Checker
  | k, .excludes key others =>
    if names.contains key then
      (others.find? names.contains).elim k fun peer => k.note (p.member key) (.conflict peer)
    else k
  | k, .exactlyOneOf keys =>
    let present := keys.filter names.contains
    if 1 < present.length then k.note p (.exclusivePeers present)
    else if present.isEmpty then k.note p (.missingPeers keys)
    else k
  | k, .atLeastOneOf keys =>
    if (keys.filter names.contains).isEmpty then k.note p (.missingPeers keys) else k
  | k, .keyed key present absent =>
    if names.contains key then peers names p k present else peers names p k absent

/-- A field of an object with members of those names. `member?` checks a member, if there is one of
    that name. -/
def field (names : List String) (member? : String → Constraint → Path → Checker → Option Checker)
    (p : Path) (k : Checker) (f : Field Constraint) : Checker :=
  let place := p.member f.name
  match f.demand with
  | .optional rule => (member? f.name rule place k).getD k
  | .required rule => (member? f.name rule place k).getD (k.note place .required)
  | .forbidden     => if names.contains f.name then k.note place .notAllowed else k

/-- The fields, then the names that no field has, then the rules. -/
def shape (names : List String) (member? : String → Constraint → Path → Checker → Option Checker)
    (s : Shape Constraint) (p : Path) (k : Checker) : Checker :=
  let k := s.fields.foldl (field names member? p) k
  let k := names.foldl (fun k name =>
    if s.declares name then k else k.note (p.member name) .notAllowed) k
  s.peers.foldl (peers names p) k

/-! ### Whole values -/

mutual

/-- Goes on with a value at `p`. -/
def value : Json → Constraint → Path → Checker → Checker
  | v, c, p, k =>
    match c with
    | .anything           => k
    | .text among format  => k.text among format v p
    | .number rule        => k.number rule v p
    | .boolean            =>
      match v with
      | .bool _ => k
      | _       => k.note p (.invalidType .boolean)
    | .timestamp          => if v.isTimestamp then k else k.note p .invalidTimestamp
    | .list item atLeast  =>
      match v with
      | .array vs => (item.elim k fun r => items vs r p 0 k).count vs atLeast p
      | _         => k.note p (.invalidType .array)
    | .positions rs atLeast =>
      match v with
      | .array vs => (positions vs rs p 0 k).count vs atLeast p
      | _         => k.note p (.invalidType .array)
    | .record s           =>
      match v with
      | .object ms => k.shape (ms.map Prod.fst) (member? ms) s p
      | _          => k.note p (.invalidType .object)
    | .choiceRule         =>
      match v with
      | .object ms => k.shape (ms.map Prod.fst) (member? ms) ChoiceRule.nestedShape p
      | _          => k.note p (.invalidType .object)
termination_by structural v => v

/-- Goes on with each item, the first of which has that index. -/
def items : List Json → Constraint → Path → Nat → Checker → Checker
  | [],      _, _, _, k => k
  | v :: vs, r, p, i, k => items vs r p (i + 1) (value v r (p.item i) k)
termination_by structural vs => vs

/-- Goes on with each item that has a constraint of its own. -/
def positions : List Json → List Constraint → Path → Nat → Checker → Checker
  | v :: vs, r :: rs, p, i, k => positions vs rs p (i + 1) (value v r (p.item i) k)
  | _,       _,       _, _, k => k
termination_by structural vs => vs

/-- Goes on with the member of that name, if there is one. -/
def member? : List (String × Json) → String → Constraint → Path → Checker → Option Checker
  | [],           _,    _, _, _ => none
  | (l, v) :: ms, name, r, p, k => if l = name then some (value v r p k) else member? ms name r p k
termination_by structural ms => ms

end

end

/-! ### What is found -/

variable (k : Checker)

@[simp] theorem add_nil : k.add [] = k := congrArg Checker.mk (List.append_nil _)

@[simp] theorem add_add (gs gs' : List Violation) : (k.add gs).add gs' = k.add (gs ++ gs') :=
  congrArg Checker.mk (List.append_assoc ..)

/-- To note something is to add it alone. -/
theorem note_eq_add (p : Path) (kind : ViolationKind) : k.note p kind = k.add [⟨p, kind⟩] := rfl

section

variable (b : Prop) [Decidable b] (p : Path) (kind : ViolationKind)

/-- A check of one thing finds it or finds nothing. -/
theorem note_if :
    (if b then k.note p kind else k) = k.add ((if b then [kind] else []).map (⟨p, ·⟩)) := by
  split
  · rfl
  · exact k.add_nil.symm

theorem note_unless :
    (if b then k else k.note p kind) = k.add ((if b then [] else [kind]).map (⟨p, ·⟩)) := by
  split
  · exact k.add_nil.symm
  · rfl

end

/-- A loop each turn of which adds something adds all of that. -/
theorem foldl_add {α : Type} {turn : Checker → α → Checker} {found : α → List Violation}
    (h : ∀ k x, turn k x = k.add (found x)) (xs : List α) :
    xs.foldl turn k = k.add (xs.flatMap found) := by
  induction xs generalizing k with
  | nil => exact k.add_nil.symm
  | cons x xs ih => rw [List.foldl_cons, h, ih, add_add, List.flatMap_cons]

/-- A check of a text finds what is wrong with the text. -/
theorem text_eq [Formats] (among : Option (List String)) (format : TextFormat) (v : Json)
    (p : Path) : k.text among format v p =
      k.add (((Constraint.text among format).violatedBy v).map (⟨p, ·⟩)) := by
  cases among with
  | some texts =>
    cases v with
    | string s => exact k.note_unless (texts.contains s) p (.notOneOf texts)
    | _ => rfl
  | none =>
    cases v with
    | string s =>
      cases full : s.isEmpty with
      | true =>
        simp [text, Json.text?, Constraint.violatedBy, TextFormat.violated, full, note_eq_add]
      | false =>
        cases format with
        | plain => simp [text, Json.text?, Constraint.violatedBy, TextFormat.violated, full]
        | uri =>
          cases valid : Formats.isUri s <;>
            simp [text, Json.text?, Constraint.violatedBy, TextFormat.violated, full, valid,
              note_eq_add]
    | _ => rfl

theorem number_eq [Formats] (rule : NumberRule) (v : Json) (p : Path) :
    k.number rule v p = k.add (((Constraint.number rule).violatedBy v).map (⟨p, ·⟩)) := by
  cases v with
  | number n =>
    obtain ⟨whole, least, most⟩ := rule
    rw [number, Constraint.violatedBy, NumberRule.violated, List.map_append, List.map_append]
    cases least <;> cases most <;>
      simp only [Option.elim, note_if, add_add, List.map_nil, List.append_nil]
  | _ => rfl

theorem count_eq (items : List Json) (atLeast : Nat) (p : Path) :
    k.count items atLeast p = k.add (tooFew items.length atLeast p) := by
  rw [count, tooFew]
  split
  · rfl
  · exact k.add_nil.symm

/-- A rule among members finds what it reports, in the order of its names. -/
theorem peers_eq (names : List String) (p : Path) (r : PeerRule) :
    peers names p k r = k.add (r.violatedBy names p) := by
  induction r with
  | excludes key others =>
    rw [peers, PeerRule.violatedBy]
    split
    · cases others.find? names.contains with
      | none => exact k.add_nil.symm
      | some peer => rfl
    · exact k.add_nil.symm
  | exactlyOneOf keys =>
    rw [peers, PeerRule.violatedBy]
    generalize keys.filter names.contains = there
    rcases there with _ | ⟨key, _ | ⟨other, more⟩⟩
    · rfl
    · exact k.add_nil.symm
    · simp [note_eq_add]
  | atLeastOneOf keys =>
    have none_iff : (keys.filter names.contains).isEmpty = !keys.any names.contains := by
      rw [Bool.eq_iff_iff]
      simp
    rw [peers, PeerRule.violatedBy, none_iff]
    cases keys.any names.contains with
    | true => exact k.add_nil.symm
    | false => rfl
  | keyed key present absent present_ih absent_ih =>
    rw [peers, PeerRule.violatedBy]
    split
    · exact present_ih
    · exact absent_ih

/-- The names are gone through in the order of the members. -/
theorem undeclared_eq (s : Shape Constraint) (names : List String) (p : Path) :
    names.foldl (fun k name => if s.declares name then k else k.note (p.member name) .notAllowed) k
      = k.add (s.undeclared names p) := by
  induction names generalizing k with
  | nil => exact k.add_nil.symm
  | cons name names ih =>
    rw [List.foldl_cons, ih, Shape.undeclared, Shape.undeclared, List.filter_cons]
    cases s.declares name <;> simp [note_eq_add]

variable [Formats]

section

variable {ms : List (String × Json)}
  (members : ∀ name r p k, member? ms name r p k = (ms.lookup name).map (k.add <| violations · r p))

include members

/-- A field finds what it reports, if the members are checked for what they report. -/
theorem field_eq (f : Field Constraint) (p : Path) :
    field (ms.map Prod.fst) (member? ms) p k f = k.add (f.violatedBy ms p) := by
  rw [field, Field.violatedBy]
  cases f.demand with
  | forbidden =>
    have there : (ms.map Prod.fst).contains f.name = (ms.lookup f.name).isSome := by
      rw [Bool.eq_iff_iff, List.contains_iff_mem, Option.isSome_iff_exists, exists_lookup_iff]
    simp only [there]
    cases ms.lookup f.name with
    | none => exact k.add_nil.symm
    | some v => rfl
  | _ =>
    simp only [members]
    cases ms.lookup f.name with
    | none => first | exact k.add_nil.symm | rfl
    | some v => rfl

/-- An object goes through its fields, its other names and its rules, and finds what they report. -/
theorem shape_eq {c : Constraint} {s : Shape Constraint} (hs : c.shape? = some s) (p : Path) :
    shape (ms.map Prod.fst) (member? ms) s p k = k.add (violations (.object ms) c p) := by
  have fields := foldl_add k (fun k f => field_eq k members f p) s.fields
  have rules (k : Checker) := foldl_add k (fun k r => k.peers_eq (ms.map Prod.fst) p r) s.peers
  rw [shape, violations_object ms hs, fields, undeclared_eq, rules, add_add, add_add,
    List.append_assoc]

end

theorem plain_eq {c : Constraint} (plain : c.isPlain) (v : Json) (p : Path) :
    value v c p k = k.add (violations v c p) := by
  rw [Json.violations_plain plain]
  cases c with
  | anything => rw [value, Constraint.violatedBy, List.map_nil, add_nil]
  | text among format => rw [value, text_eq]
  | number rule => rw [value, number_eq]
  | boolean =>
    cases v with
    | bool b => exact k.add_nil.symm
    | _ => rfl
  | timestamp => rw [value, note_unless, Constraint.violatedBy]
  | _ => cases plain

/-- What is no container is of the wrong type wherever one is asked for. -/
theorem leaf_eq {v : Json} (noItems : v.items? = none) (noMembers : v.members? = none)
    (c : Constraint) (p : Path) : value v c p k = k.add (violations v c p) := by
  cases plain : c.isPlain with
  | true => exact k.plain_eq plain v p
  | false =>
    cases v with
    | array vs => cases noItems
    | object ms => cases noMembers
    | _ =>
      cases c with
      | list item atLeast => rfl
      | positions rs atLeast => rfl
      | record s => rfl
      | choiceRule => rfl
      | _ => cases plain

mutual

/-- Wherever a check has come to, it goes on to find what `violations` reports and keeps what it
    had. -/
theorem value_eq : ∀ (v : Json) (c : Constraint) (p : Path) (k : Checker),
    value v c p k = k.add (violations v c p)
  | .array vs, c, p, k => by
    cases c with
    | list item atLeast =>
      cases item with
      | none => exact k.count_eq vs atLeast p
      | some r =>
        rw [value, violations, Option.elim_some, items_eq, count_eq, add_add]
    | positions rs atLeast => rw [value, violations, positions_eq, count_eq, add_add]
    | record s => rfl
    | choiceRule => rfl
    | _ => exact k.plain_eq rfl _ p
  | .object ms, c, p, k => by
    cases c with
    | record s => exact k.shape_eq (members_eq ms) rfl p
    | choiceRule => exact k.shape_eq (members_eq ms) rfl p
    | list item atLeast => rfl
    | positions rs atLeast => rfl
    | _ => exact k.plain_eq rfl _ p
  | .null, c, p, k => k.leaf_eq rfl rfl c p
  | .bool _, c, p, k => k.leaf_eq rfl rfl c p
  | .number _, c, p, k => k.leaf_eq rfl rfl c p
  | .string _, c, p, k => k.leaf_eq rfl rfl c p

theorem items_eq : ∀ (vs : List Json) (r : Constraint) (p : Path) (i : Nat) (k : Checker),
    items vs r p i k = k.add (itemViolations vs r p i)
  | [], _, _, _, k => k.add_nil.symm
  | v :: vs, r, p, i, k => by rw [items, itemViolations, value_eq v, items_eq vs, add_add]

theorem positions_eq : ∀ (vs : List Json) (rs : List Constraint) (p : Path) (i : Nat) (k : Checker),
    positions vs rs p i k = k.add (positionViolations vs rs p i)
  | [], _, _, _, k => k.add_nil.symm
  | _ :: _, [], _, _, k => k.add_nil.symm
  | v :: vs, r :: rs, p, i, k => by
    rw [positions, positionViolations, value_eq v, positions_eq vs, add_add]

theorem members_eq : ∀ (ms : List (String × Json)) (name : String) (r : Constraint) (p : Path)
    (k : Checker), member? ms name r p k = (ms.lookup name).map (k.add <| violations · r p)
  | [], _, _, _, _ => rfl
  | (l, v) :: ms, name, r, p, k => by
    rw [member?, lookup_cons_ite, members_eq ms, value_eq v]
    split <;> rfl

end

end Checker
end FlowLint
