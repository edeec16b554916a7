import FlowLint.Format.Timestamp
import FlowLint.Grammar.Machine
import FlowLint.Violation

/-!
Checking values against constraints. All that is wrong is reported, in the order of the constraint:
the fields of an object, then the members that no field names, then the rules among its members.
-/

namespace FlowLint

variable [Formats]

/-! ### Single values -/

/-- Every bound and every demand on a number is checked by itself. -/
def NumberRule.violated (r : NumberRule) (n : Number) : List ViolationKind :=
  let x := n.toBinary64
  (if r.whole ∧ !x.isWhole then [.invalidType .integer] else [])
  ++ (match r.least with
      | some least => if x.lt least then [.belowMinimum least] else []
      | none       => [])
  ++ (match r.most with
      | some most => if most.lt x then [.aboveMaximum most] else []
      | none      => [])

/-- What a text fails that must not be empty and must have a format. -/
def TextFormat.violated (format : TextFormat) (s : String) : List ViolationKind :=
  if s.isEmpty then [.empty]
  else
    match format with
    | .plain => []
    | .uri   => if Formats.isUri s then [] else [.invalidUri]

/-- A number of milliseconds, or a text that says a time. -/
def Json.isTimestamp : Json → Bool
  | .number _ => true
  | .string s => Format.Timestamp.isValid s
  | _         => false

/-- What a value by itself fails. Of a container only the type is looked at. -/
def Constraint.violatedBy (c : Constraint) (v : Json) : List ViolationKind :=
  match c, v with
  | .anything,             _          => []
  | .text (some texts) _,  .string s  => if texts.contains s then [] else [.notOneOf texts]
  | .text (some texts) _,  _          => [.notOneOf texts]
  | .text none format,     .string s  => format.violated s
  | .text none _,          _          => [.invalidType .string]
  | .number rule,          .number n  => rule.violated n
  | .number _,             _          => [.invalidType .number]
  | .boolean,              .bool _    => []
  | .boolean,              _          => [.invalidType .boolean]
  | .timestamp,            v          => if v.isTimestamp then [] else [.invalidTimestamp]
  | .list _ _,             .array _   => []
  | .list _ _,             _          => [.invalidType .array]
  | .positions _ _,        .array _   => []
  | .positions _ _,        _          => [.invalidType .array]
  | .record _,             .object _  => []
  | .record _,             _          => [.invalidType .object]
  | .choiceRule,           .object _  => []
  | .choiceRule,           _          => [.invalidType .object]

/-- Too few items at `path`. -/
def tooFew (count atLeast : Nat) (path : Path) : List Violation :=
  if count < atLeast then [⟨path, .tooFewItems atLeast⟩] else []

/-! ### Members -/

/-- What the members of that names fail, apart from their values. -/
def PeerRule.violatedBy (names : List String) (path : Path) : PeerRule → List Violation
  | .excludes key peers =>
    if names.contains key then
      match peers.find? names.contains with
      | some peer => [⟨path.member key, .conflict peer⟩]
      | none      => []
    else []
  | .exactlyOneOf peers =>
    match peers.filter names.contains with
    | []      => [⟨path, .missingPeers peers⟩]
    | [_]     => []
    | present => [⟨path, .exclusivePeers present⟩]
  | .atLeastOneOf peers => if peers.any names.contains then [] else [⟨path, .missingPeers peers⟩]
  | .keyed key present absent =>
    if names.contains key then present.violatedBy names path else absent.violatedBy names path

/-- The members that no field names. -/
def Shape.undeclared {ρ : Type} (s : Shape ρ) (names : List String) (path : Path) :
    List Violation :=
  (names.filter (!s.declares ·)).map fun name => ⟨path.member name, .notAllowed⟩

/-- The shape of the objects that a constraint admits. -/
def Constraint.shape? : Constraint → Option (Shape Constraint)
  | .record shape => some shape
  | .choiceRule   => some ChoiceRule.nestedShape
  | _             => none

/-! ### Whole values -/

mutual

/-- All that is wrong with a value at `path`. -/
def violations : Json → Constraint → Path → List Violation
  | .array items, c, path =>
    match c with
    | .list none atLeast       => tooFew items.length atLeast path
    | .list (some r) atLeast   => itemViolations items r path 0 ++ tooFew items.length atLeast path
    | .positions rules atLeast =>
      positionViolations items rules path 0 ++ tooFew items.length atLeast path
    | c                        => (c.violatedBy (.array items)).map (⟨path, ·⟩)
  | .object members, c, path =>
    match c.shape? with
    | none       => (c.violatedBy (.object members)).map (⟨path, ·⟩)
    | some shape =>
      shape.fields.flatMap (fun f =>
        let place := path.member f.name
        match f.demand with
        | .optional rule => (memberViolations? members f.name rule place).getD []
        | .required rule => (memberViolations? members f.name rule place).getD [⟨place, .required⟩]
        | .forbidden     =>
          if (members.map Prod.fst).contains f.name then [⟨place, .notAllowed⟩] else [])
      ++ shape.undeclared (members.map Prod.fst) path
      ++ shape.peers.flatMap (·.violatedBy (members.map Prod.fst) path)
  | v, c, path => (c.violatedBy v).map (⟨path, ·⟩)
termination_by structural v => v

/-- Each item under one constraint, from the index of the first on. -/
def itemViolations : List Json → Constraint → Path → Nat → List Violation
  | [],      _, _,    _ => []
  | v :: vs, r, path, i => violations v r (path.item i) ++ itemViolations vs r path (i + 1)
termination_by structural vs => vs

/-- Each item under its own constraint, as far as there are constraints. -/
def positionViolations : List Json → List Constraint → Path → Nat → List Violation
  | v :: vs, r :: rs, path, i =>
    violations v r (path.item i) ++ positionViolations vs rs path (i + 1)
  | _,       _,       _,    _ => []
termination_by structural vs => vs

/-- The first member of that name under a constraint, none if there is no such member. -/
def memberViolations? :
    List (String × Json) → String → Constraint → Path → Option (List Violation)
  | [],           _,    _, _    => none
  | (k, v) :: ms, name, r, path =>
    if k = name then some (violations v r path) else memberViolations? ms name r path
termination_by structural ms => ms

end

/-- All that is wrong with a state machine document. -/
def documentViolations (document : Json) : List Violation :=
  violations document (.record (Machine.documentShape document)) []

end FlowLint
