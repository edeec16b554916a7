import FlowLint.Format.Standard
import FlowLint.Proofs.Conformance.Exact
import FlowLint.Proofs.Machine.References

/-!
Rules within rules. However deep a rule stands in an entry of a choice, the members that it has and
lacks are checked by the same rules; only where it leads is asked of the entry itself and of no rule
in it. All that is said of the presence of members in an entry is said of such a rule.
-/

namespace FlowLint.ChoiceRule

/-! ### Rules -/

/-- The path leads from a rule to one that it is combined of, or to itself, through so many
    combinations. -/
inductive Node : Json → Nat → Path → Json → Prop
  | self (v : Json) : Node v 0 [] v
  | among {v inner node : Json} {key : String} {i n : Nat} {q : Path}
      (lists : key = "And" ∨ key = "Or") (there : v.at? [.key key, .index i] = some inner)
      (below : Node inner n q node) : Node v (n + 1) (.key key :: .index i :: q) node
  | negated {v inner node : Json} {n : Nat} {q : Path} (there : v.at? [.key "Not"] = some inner)
      (below : Node inner n q node) : Node v (n + 1) (.key "Not" :: q) node

section

variable {v node : Json} {n : Nat} {q : Path}

theorem Node.noRepeats (h : Node v n q node) (distinct : v.NoRepeats) : node.NoRepeats := by
  induction h with
  | self => exact distinct
  | among _ there _ ih => exact ih (distinct.at? there)
  | negated there _ ih => exact ih (distinct.at? there)

/-- A path leads to one rule only. -/
theorem Node.unique {node' : Json} {n' : Nat} (h : Node v n q node) (h' : Node v n' q node') :
    n = n' ∧ node = node' := by
  induction h generalizing n' with
  | self =>
    cases h'
    exact ⟨rfl, rfl⟩
  | among lists there _ ih =>
    cases h' with
    | among _ there' below =>
      cases there.symm.trans there'
      obtain ⟨rfl, rfl⟩ := ih below
      exact ⟨rfl, rfl⟩
    | negated => rcases lists with e | e <;> exact absurd e (by decide)
  | negated there _ ih =>
    cases h' with
    | among lists => rcases lists with e | e <;> exact absurd e (by decide)
    | negated there' below =>
      cases there.symm.trans there'
      obtain ⟨rfl, rfl⟩ := ih below
      exact ⟨rfl, rfl⟩

end

/-- The members of which a rule with those names has one. -/
def tests (names : List String) : List String :=
  if "Variable" ∈ names then comparators else comparators ++ combinators

/-- What is to be said of the presence of members in a rule at `place` that has members of those
    names and stands below so many others. -/
inductive Says (names : List String) (depth : Nat) (place : Path) : Violation → Prop
  /-- A rule that compares does not combine; the first combinator is to blame. -/
  | conflict {peer : String} (compares : "Variable" ∈ names)
      (first : combinators.find? (· ∈ names) = some peer) :
      Says names depth place ⟨place.member "Variable", .conflict peer⟩
  | lacks (none : ∀ k ∈ tests names, k ∉ names) :
      Says names depth place ⟨place, .missingPeers (tests names)⟩
  | several (many : 1 < ((tests names).filter (· ∈ names)).length) :
      Says names depth place ⟨place, .exclusivePeers ((tests names).filter (· ∈ names))⟩
  | endsHere (top : depth = 0) (absent : "Next" ∉ names) :
      Says names depth place ⟨place.member "Next", .required⟩
  | leads (nested : 0 < depth) (there : "Next" ∈ names) :
      Says names depth place ⟨place.member "Next", .notAllowed⟩

/-- The violation is about which members are there: about several of them, or about where a rule
    leads. -/
def OfPresence (w : Violation) : Prop :=
  match w.kind with
  | .conflict _ | .exclusivePeers _ | .missingPeers _ => True
  | .required | .notAllowed                           => w.path.getLast? = some (.key "Next")
  | _                                                 => False

/-- The rule whose members the violation is about. -/
def seat (w : Violation) : Path :=
  match w.kind with
  | .conflict _ | .required | .notAllowed => w.path.dropLast
  | _                                     => w.path

section

variable {names : List String} {depth : Nat} {place : Path} {w : Violation}

theorem Says.ofPresence (h : Says names depth place w) : OfPresence w := by
  cases h with
  | endsHere => exact List.getLast?_concat
  | leads => exact List.getLast?_concat
  | _ => trivial

theorem Says.prefix_path (h : Says names depth place w) : place <+: w.path := by
  cases h with
  | lacks => exact List.prefix_rfl
  | several => exact List.prefix_rfl
  | _ => exact Path.prefix_member ..

theorem Says.seat_eq (h : Says names depth place w) : seat w = place := by
  cases h with
  | lacks => rfl
  | several => rfl
  | _ => exact List.dropLast_concat

/-- It is not about a rule that this one combines. -/
theorem Says.own (h : Says names depth place w) :
    ∀ key ∈ combinators, ¬ place.member key <+: w.path := by
  have apart {name : String} (hn : name ∉ combinators) :
      ∀ key ∈ combinators, ¬ place.member key <+: place.member name := by
    intro key hk path
    cases Path.step_unique path List.prefix_rfl
    exact hn hk
  cases h with
  | conflict => exact apart (by decide)
  | lacks => exact fun key _ => place.not_push_prefix _
  | several => exact fun key _ => place.not_push_prefix _
  | endsHere => exact apart (by decide)
  | leads => exact apart (by decide)

end

/-- What a value by itself fails is not about the presence of members. -/
theorem not_ofPresence_of_misses [Formats] {c : Constraint} {v : Json} {kind : ViolationKind}
    (h : c.Misses v kind) (p : Path) : ¬ OfPresence ⟨p, kind⟩ := by
  cases h <;> exact not_false

/-! ### Shapes -/

/-- The constraint on a rule below so many others. -/
def level (siblings : List String) : Nat → Constraint
  | 0     => .record (topShape siblings)
  | _ + 1 => .choiceRule

/-- Its shape. -/
def levelShape (siblings : List String) : Nat → Shape Constraint
  | 0     => topShape siblings
  | _ + 1 => nestedShape

section

variable (siblings : List String) (depth : Nat)

theorem shape?_level : (level siblings depth).shape? = some (levelShape siblings depth) := by
  cases depth <;> rfl

theorem peers_levelShape : (levelShape siblings depth).peers = peerRules := by cases depth <;> rfl

theorem fields_levelShape : (levelShape siblings depth).fields =
    commonFields ++ if depth = 0 then [.required "Next" (.oneOf siblings)] else [] := by
  cases depth with
  | zero => rfl
  | succ depth => exact (List.append_nil _).symm

theorem nodup_levelShape : ((levelShape siblings depth).fields.map Field.name).Nodup := by
  have names : (levelShape siblings depth).fields.map Field.name =
      commonFields.map Field.name ++ if depth = 0 then ["Next"] else [] := by
    rw [fields_levelShape, List.map_append]
    split_ifs <;> rfl
  rw [names]
  split_ifs <;> decide

/-- What combines rules is asked to hold rules. -/
theorem asks_level {name : String} {r : Constraint} (hn : name ≠ "Variable")
    (field : .optional name r ∈ commonFields) : (levelShape siblings depth).Asks name r where
  field := by
    refine ⟨.optional name r, ?_, rfl, rfl⟩
    rw [fields_levelShape]
    exact List.mem_append_left _ field
  distinct := nodup_levelShape siblings depth
  blamed := by
    have blamed : ∀ rule ∈ peerRules, ∀ k ∈ rule.blamed, k = "Variable" := by decide
    rw [peers_levelShape]
    exact fun rule hr hk => hn (blamed rule hr name hk)

theorem asks_lists {key : String} (lists : key = "And" ∨ key = "Or") :
    (levelShape siblings depth).Asks key (.list (some .choiceRule) 1) := by
  rcases lists with rfl | rfl <;>
    exact asks_level siblings depth (by decide) (by simp [commonFields])

theorem asks_not : (levelShape siblings depth).Asks "Not" .choiceRule :=
  asks_level siblings depth (by decide) (by simp [commonFields])

theorem isPlain_operand (name : String) : (operand name).isPlain := by
  rw [operand]
  split_ifs <;> rfl

/-- Of the fields of a rule some ask for rules, and all others for a single value. -/
theorem field_cases {f : Field Constraint} {r : Constraint}
    (hf : f ∈ (levelShape siblings depth).fields) (hr : f.rule? = some r) :
    ((f.name = "And" ∨ f.name = "Or") ∧ r = .list (some .choiceRule) 1) ∨
      (f.name = "Not" ∧ r = .choiceRule) ∨ r.isPlain := by
  rw [fields_levelShape, List.mem_append] at hf
  rcases hf with hf | hf
  · rcases List.mem_append.1 hf with hf | hf
    · simp only [List.mem_cons, List.not_mem_nil, or_false] at hf
      rcases hf with rfl | rfl | rfl | rfl <;> cases hr
      · exact .inl ⟨.inl rfl, rfl⟩
      · exact .inl ⟨.inr rfl, rfl⟩
      · exact .inr (.inl ⟨rfl, rfl⟩)
      · exact .inr (.inr rfl)
    · obtain ⟨name, -, rfl⟩ := List.mem_map.1 hf
      cases hr
      exact .inr (.inr (isPlain_operand name))
  · split_ifs at hf
    · rw [List.mem_singleton.1 hf] at hr
      cases hr
      exact .inr (.inr rfl)
    · cases hf

theorem exists_eq_optional {f : Field Constraint} (hf : f ∈ commonFields) :
    ∃ name r, f = .optional name r := by
  rcases List.mem_append.1 hf with hf | hf
  · simp only [List.mem_cons, List.not_mem_nil, or_false] at hf
    rcases hf with rfl | rfl | rfl | rfl <;> exact ⟨_, _, rfl⟩
  · obtain ⟨name, -, rfl⟩ := List.mem_map.1 hf
    exact ⟨_, _, rfl⟩

/-- The one field that does more than admit a member asks where the entry itself leads. -/
theorem optional_or_next {i : Nat} {f : Field Constraint}
    (field : (levelShape siblings depth).fields[i]? = some f) :
    (∃ name r, f = .optional name r) ∨
      depth = 0 ∧ i = commonFields.length ∧ f = .required "Next" (.oneOf siblings) := by
  rw [fields_levelShape] at field
  by_cases common : i < commonFields.length
  · rw [List.getElem?_append_left common] at field
    exact .inl (exists_eq_optional (List.mem_of_getElem? field))
  · rw [List.getElem?_append_right (Nat.le_of_not_lt common)] at field
    split_ifs at field with top
    · rw [List.getElem?_singleton] at field
      split_ifs at field with last
      cases field
      exact .inr ⟨top, by omega, rfl⟩
    · cases field

theorem declares_next_iff : (levelShape siblings depth).declares "Next" ↔ depth = 0 := by
  have common : ∀ f ∈ commonFields, f.name ≠ "Next" := by
    have names : "Next" ∉ commonFields.map Field.name := by decide
    exact fun f hf same => names (same ▸ List.mem_map_of_mem hf)
  rw [Shape.declares_iff, fields_levelShape]
  constructor
  · rintro ⟨f, hf, same⟩
    rcases List.mem_append.1 hf with hf | hf
    · exact absurd same (common f hf)
    · split_ifs at hf with top
      · exact top
      · cases hf
  · intro top
    rw [if_pos top]
    exact ⟨_, List.mem_append_right _ (List.mem_singleton_self _), rfl⟩

end

/-! ### One rule -/

section

variable [Formats]

/-- Where a violation of the presence of members comes from: from the rule at `p` itself, or from
    one of those that it combines. -/
inductive Comes (depth : Nat) (ms : List (String × Json)) (p : Path) : Clause → Violation → Prop
  | peers {i : Nat} {r : PeerRule} {w : Violation} (rule : peerRules[i]? = some r)
      (misses : r.Misses (ms.map Prod.fst) p w) : Comes depth ms p [.peers i] w
  | endsHere (top : depth = 0) (absent : "Next" ∉ ms.map Prod.fst) :
      Comes depth ms p [.field commonFields.length] ⟨p.member "Next", .required⟩
  | leads {i : Nat} (nested : 0 < depth) (there : (ms.map Prod.fst)[i]? = some "Next") :
      Comes depth ms p [.member i] ⟨p.member "Next", .notAllowed⟩
  | among {key : String} {items : List Json} {i j : Nat} {inner : Json} {k : Clause} {w : Violation}
      (lists : key = "And" ∨ key = "Or") (there : ms.lookup key = some (.array items))
      (item : items[i]? = some inner)
      (fails : Fails .choiceRule inner ((p.member key).item i) k w) :
      Comes depth ms p (.field j :: .item i :: k) w
  | negated {j : Nat} {inner : Json} {k : Clause} {w : Violation}
      (there : ms.lookup "Not" = some inner)
      (fails : Fails .choiceRule inner (p.member "Not") k w) : Comes depth ms p (.field j :: k) w

/-- A single value fails nothing that is about the presence of members. -/
theorem not_ofPresence_of_plain {c : Constraint} {v : Json} {p : Path} {k : Clause} {w : Violation}
    (plain : c.isPlain) (h : Fails c v p k w) : ¬ OfPresence w := by
  have noShape : c.shape? = none := by cases c <;> first | rfl | cases plain
  cases h with
  | itself misses => exact not_ofPresence_of_misses misses p
  | missing shape => cases noShape.symm.trans shape
  | forbidden shape => cases noShape.symm.trans shape
  | member shape => cases noShape.symm.trans shape
  | undeclared shape => cases noShape.symm.trans shape
  | peers shape => cases noShape.symm.trans shape
  | item => cases plain
  | position => cases plain

/-- What a list fails that is about the presence of members, an item of it fails. -/
theorem exists_item_of_fails {r : Constraint} {atLeast : Nat} {v : Json} {p : Path} {k : Clause}
    {w : Violation} (h : Fails (.list (some r) atLeast) v p k w) (hw : OfPresence w) :
    ∃ items i inner k', v = .array items ∧ items[i]? = some inner ∧ k = .item i :: k' ∧
      Fails r inner (p.item i) k' w := by
  cases h with
  | itself misses => exact absurd hw (not_ofPresence_of_misses misses p)
  | item there fails => exact ⟨_, _, _, _, rfl, there, rfl, fails⟩
  | missing shape => cases shape
  | forbidden shape => cases shape
  | member shape => cases shape
  | undeclared shape => cases shape
  | peers shape => cases shape

end

theorem eq_next_of_ofPresence {p : Path} {name : String}
    (h : OfPresence ⟨p.member name, .notAllowed⟩) : name = "Next" := by
  have last : (p.member name).getLast? = some (.key "Next") := h
  rw [Path.member, Path.push, List.getLast?_concat] at last
  cases last
  rfl

theorem comes_of_fails [Formats] {siblings : List String} {depth : Nat} {c : Constraint}
    (hc : c.shape? = some (levelShape siblings depth)) {ms : List (String × Json)} {p : Path}
    {k : Clause} {w : Violation} (h : Fails c (.object ms) p k w) (hw : OfPresence w) :
    Comes depth ms p k w := by
  cases h with
  | itself misses => exact absurd hw (not_ofPresence_of_misses misses p)
  | missing shape field lacks =>
    cases hc.symm.trans shape
    rcases optional_or_next siblings depth field with ⟨_, _, e⟩ | ⟨top, rfl, e⟩
    · cases e
    · cases e
      exact .endsHere top lacks
  | forbidden shape field there =>
    cases hc.symm.trans shape
    rcases optional_or_next siblings depth field with ⟨_, _, e⟩ | ⟨-, -, e⟩ <;> cases e
  | @member _ _ _ _ i f r v k _ shape field rule there fails =>
    cases hc.symm.trans shape
    rcases field_cases siblings depth (List.mem_of_getElem? field) rule with
      ⟨lists, rfl⟩ | ⟨negates, rfl⟩ | plain
    · obtain ⟨items, j, inner, k, rfl, item, rfl, inItem⟩ := exists_item_of_fails fails hw
      exact .among lists there item inItem
    · rw [negates] at there fails
      exact .negated there fails
    · exact absurd hw (not_ofPresence_of_plain plain fails)
  | @undeclared _ _ _ _ i name v shape there unknown =>
    cases hc.symm.trans shape
    obtain rfl := eq_next_of_ofPresence hw
    refine .leads (Nat.pos_of_ne_zero fun top => ?_) ?_
    · obtain ⟨f, hf, same⟩ :=
        (Shape.declares_iff ..).1 ((declares_next_iff siblings depth).2 top)
      exact unknown f hf same
    · rw [List.getElem?_map, there]
      rfl
  | peers shape rule misses =>
    cases hc.symm.trans shape
    rw [peers_levelShape] at rule
    exact .peers rule misses

/-! ### The rule itself -/

/-- What the rules among the members find is to be said. -/
theorem says_of_misses {names : List String} {p : Path} {i : Nat} {r : PeerRule} {w : Violation}
    (rule : peerRules[i]? = some r) (misses : r.Misses names p w) (depth : Nat) :
    Says names depth p w := by
  have ofTests {peers : List String} (one : tests names = peers)
      (h : (PeerRule.exactlyOneOf peers).Misses names p w) : Says names depth p w := by
    subst one
    cases h with
    | several many => exact .several many
    | lacksOne none => exact .lacks none
  obtain ⟨short, rfl⟩ := List.getElem?_eq_some_iff.1 rule
  match i, short with
  | 0, _ =>
    obtain ⟨compares, peer, first, rfl⟩ := PeerRule.misses_excludes_iff.1 misses
    exact .conflict compares first
  | 1, _ =>
    cases misses with
    | present there fails => exact ofTests (if_pos there) fails
    | absent missing fails => exact ofTests (if_neg missing) fails

section

variable [Formats]

/-- What is to be said of a rule, it fails. -/
theorem Says.exists_fails {siblings : List String} {depth : Nat} {ms : List (String × Json)}
    {p : Path} {w : Violation} (h : Says (ms.map Prod.fst) depth p w) :
    ∃ k, Fails (level siblings depth) (.object ms) p k w := by
  have shape := shape?_level siblings depth
  have rules := peers_levelShape siblings depth
  have test {r : PeerRule} (one : r = .exactlyOneOf (tests (ms.map Prod.fst)))
      (misses : r.Misses (ms.map Prod.fst) p w) :
      ∃ k, Fails (level siblings depth) (.object ms) p k w := by
    refine ⟨_, .peers shape (i := 1) (by rw [rules]; rfl) ?_⟩
    by_cases compares : "Variable" ∈ ms.map Prod.fst
    · rw [tests, if_pos compares] at one
      exact .present compares (one ▸ misses)
    · rw [tests, if_neg compares] at one
      exact .absent compares (one ▸ misses)
  cases h with
  | @conflict peer compares first =>
    refine ⟨_, .peers shape (i := 0) (by rw [rules]; rfl) ?_⟩
    exact PeerRule.misses_excludes_iff.2 ⟨compares, peer, first, rfl⟩
  | lacks none => exact test rfl (.lacksOne none)
  | several many => exact test rfl (.several many)
  | endsHere top absent =>
    subst top
    have field : (topShape siblings).fields[commonFields.length]? =
      some (.required "Next" (.oneOf siblings)) := List.getElem?_concat_length
    exact ⟨_, .missing rfl field absent⟩
  | leads nested there =>
    obtain ⟨⟨_, v⟩, hv, rfl⟩ := List.mem_map.1 there
    obtain ⟨i, hi⟩ := List.mem_iff_getElem?.1 hv
    refine ⟨_, .undeclared shape hi fun f hf same => ?_⟩
    have top := (declares_next_iff siblings depth).1 ((Shape.declares_iff ..).2 ⟨f, hf, same⟩)
    omega

/-- Of a violation of its own the kind tells the clause that a rule fails. -/
theorem Comes.clause_eq {depth : Nat} {ms : List (String × Json)} {p : Path} {k : Clause}
    {w : Violation} (own : ∀ key ∈ combinators, ¬ p.member key <+: w.path)
    (h : Comes depth ms p k w) :
    match w.kind with
    | .required   => k = [.field commonFields.length]
    | .notAllowed => ∃ i, k = [.member i] ∧ (ms.map Prod.fst)[i]? = some "Next"
    | .conflict _ => k = [.peers 0]
    | _           => k = [.peers 1] := by
  cases h with
  | @peers i _ _ rule misses =>
    obtain ⟨short, rfl⟩ := List.getElem?_eq_some_iff.1 rule
    match i, short with
    | 0, _ =>
      obtain ⟨-, peer, -, rfl⟩ := PeerRule.misses_excludes_iff.1 misses
      rfl
    | 1, _ =>
      cases misses with
      | present _ fails => cases fails <;> rfl
      | absent _ fails => cases fails <;> rfl
  | endsHere => rfl
  | leads _ there => exact ⟨_, rfl, there⟩
  | @among key items i j inner k _ lists _ _ fails =>
    have path := prefix_of_mem_violations _ _ _ w (mem_violations_iff.2 ⟨k, fails⟩)
    refine absurd ((Path.prefix_item ..).trans path) (own key ?_)
    rcases lists with rfl | rfl <;> decide
  | @negated j inner k _ _ fails =>
    have path := prefix_of_mem_violations _ _ _ w (mem_violations_iff.2 ⟨k, fails⟩)
    exact absurd path (own "Not" (by decide))

theorem Comes.unique {depth : Nat} {ms : List (String × Json)} {p : Path} {k k' : Clause}
    {w : Violation} (distinct : (ms.map Prod.fst).Nodup)
    (own : ∀ key ∈ combinators, ¬ p.member key <+: w.path) (h : Comes depth ms p k w)
    (h' : Comes depth ms p k' w) : k = k' := by
  have one := h.clause_eq own
  have other := h'.clause_eq own
  obtain ⟨path, kind⟩ := w
  cases kind with
  | notAllowed =>
    obtain ⟨i, rfl, there⟩ := one
    obtain ⟨j, rfl, there'⟩ := other
    obtain ⟨short, -⟩ := List.getElem?_eq_some_iff.1 there
    rw [(List.getElem?_inj short distinct).1 (there.trans there'.symm)]
  | _ => exact one.trans other.symm

end

/-! ### Rules within rules -/

theorem among_place (p : Path) (key : String) (i : Nat) (q : Path) :
    p ++ .key key :: .index i :: q = (p.member key).item i ++ q := by
  simp [Path.member, Path.item, Path.push]

theorem negated_place (p : Path) (q : Path) :
    p ++ .key "Not" :: q = p.member "Not" ++ q := by
  simp [Path.member, Path.push]

section

variable [Formats]

section

variable {v node : Json} {n : Nat} {q : Path} (siblings : List String)

/-- At a rule, and below it, just that is reported which a check of the rule alone reports. -/
theorem below_node (h : Node v n q node) (depth : Nat) {p r : Path} (hr : p ++ q <+: r) :
    below r (violations v (level siblings depth) p) =
      below r (violations node (level siblings (depth + n)) (p ++ q)) := by
  induction h generalizing depth p with
  | self => rw [List.append_nil, Nat.add_zero]
  | @among v inner node key i n q lists there _ ih =>
    obtain ⟨u, hu, hi⟩ := Json.exists_of_at?_pair there
    obtain ⟨ms, rfl, member⟩ := Json.exists_object_of_child? hu
    obtain ⟨items, rfl, item⟩ := Json.exists_array_of_child? hi
    rw [among_place] at hr ⊢
    have here := (List.prefix_append _ q).trans hr
    rw [below_object (shape?_level siblings depth) (asks_lists siblings depth lists) member
        ((Path.prefix_item ..).trans here),
      below_list item here, ← Nat.succ_add_eq_add_succ]
    exact ih (depth + 1) hr
  | @negated v inner node n q there _ ih =>
    obtain ⟨u, hu, rest⟩ := Option.bind_eq_some_iff.1 there
    cases rest
    obtain ⟨ms, rfl, member⟩ := Json.exists_object_of_child? hu
    rw [negated_place] at hr ⊢
    have here := (List.prefix_append _ q).trans hr
    rw [below_object (shape?_level siblings depth) (asks_not siblings depth) member here,
      ← Nat.succ_add_eq_add_succ]
    exact ih (depth + 1) hr

end

/-- What is reported of the presence of members is to be said of some rule. -/
theorem exists_node_of_fails (siblings : List String) (depth : Nat) {c : Constraint}
    (hc : c.shape? = some (levelShape siblings depth)) {v : Json} {p : Path} {k : Clause}
    {w : Violation} (h : Fails c v p k w) (hw : OfPresence w) :
    ∃ n q ms, Node v n q (.object ms) ∧ Says (ms.map Prod.fst) (depth + n) (p ++ q) w := by
  cases v with
  | object ms =>
    have itself (said : Says (ms.map Prod.fst) depth p w) :
        ∃ n q ms', Node (.object ms) n q (.object ms') ∧
          Says (ms'.map Prod.fst) (depth + n) (p ++ q) w :=
      ⟨0, [], ms, .self _, by rwa [List.append_nil]⟩
    cases comes_of_fails hc h hw with
    | peers rule misses => exact itself (says_of_misses rule misses depth)
    | endsHere top absent => exact itself (.endsHere top absent)
    | leads nested there => exact itself (.leads nested (List.mem_of_getElem? there))
    | @among key items i j inner k _ lists there item fails =>
      obtain ⟨n, q, ms', node, said⟩ := exists_node_of_fails siblings (depth + 1) rfl fails hw
      refine ⟨n + 1, .key key :: .index i :: q, ms', .among lists ?_ node, ?_⟩
      · simp [Json.at?_cons, Json.child?, there, item]
      · rwa [among_place, ← Nat.succ_add_eq_add_succ]
    | @negated j inner k _ there fails =>
      obtain ⟨n, q, ms', node, said⟩ := exists_node_of_fails siblings (depth + 1) rfl fails hw
      refine ⟨n + 1, .key "Not" :: q, ms', .negated ?_ node, ?_⟩
      · simp [Json.at?_cons, Json.child?, there]
      · rwa [negated_place, ← Nat.succ_add_eq_add_succ]
  | array items =>
    cases h with
    | itself misses => exact absurd hw (not_ofPresence_of_misses misses p)
    | item => cases hc
    | position => cases hc
  | _ =>
    cases h with
    | itself misses => exact absurd hw (not_ofPresence_of_misses misses p)
termination_by k.length

/-! ### Entries -/

section

variable {entry node : Json} {ms : List (String × Json)} {n : Nat} {p q : Path} {w : Violation}
  (siblings : List String)

theorem below_node_entry (within : Node entry n q node) (p : Path) :
    below (p ++ q) (violations entry (.record (topShape siblings)) p) =
      violations node (level siblings n) (p ++ q) := by
  have alone := below_node siblings within 0 (List.prefix_refl (p ++ q))
  rwa [Nat.zero_add, below_eq_self (prefix_of_mem_violations node _ _)] at alone

theorem mem_of_said {depth : Nat} (said : Says (ms.map Prod.fst) depth p w) :
    w ∈ violations (.object ms) (level siblings depth) p :=
  mem_violations_iff.2 said.exists_fails

theorem count_le_one_of_said {depth : Nat} (distinct : (ms.map Prod.fst).Nodup)
    (said : Says (ms.map Prod.fst) depth p w) :
    (violations (.object ms) (level siblings depth) p).count w ≤ 1 := by
  refine (lists_violations ..).count_le_one fun k k' h h' => ?_
  have shape := shape?_level siblings depth
  exact (comes_of_fails shape h said.ofPresence).unique distinct said.own
    (comes_of_fails shape h' said.ofPresence)

/-- What is to be said of a rule in the entry is reported once. -/
theorem count_of_said (h : entry.NoRepeats) (within : Node entry n q (.object ms))
    (said : Says (ms.map Prod.fst) n (p ++ q) w) :
    (violations entry (.record (topShape siblings)) p).count w = 1 := by
  rw [← count_below said.prefix_path, below_node_entry siblings within]
  cases within.noRepeats h with
  | object distinct =>
    exact Nat.le_antisymm (count_le_one_of_said siblings distinct said)
      (List.one_le_count_iff.2 (mem_of_said siblings said))

theorem exists_node_of_mem (hw : OfPresence w)
    (reported : w ∈ violations entry (.record (topShape siblings)) p) :
    ∃ n q ms, Node entry n q (.object ms) ∧ Says (ms.map Prod.fst) n (p ++ q) w := by
  obtain ⟨k, fails⟩ := mem_violations_iff.1 reported
  obtain ⟨n, q, ms, within, said⟩ := exists_node_of_fails siblings 0 rfl fails hw
  rw [Nat.zero_add] at said
  exact ⟨n, q, ms, within, said⟩

theorem violations_notObject {v : Json} (other : ∀ ms, v ≠ .object ms) (depth : Nat) (p : Path) :
    violations v (level siblings depth) p = [⟨p, .invalidType .object⟩] := by
  cases v with
  | object ms => exact absurd rfl (other ms)
  | _ => cases depth <;> rfl

theorem below_emptyList {key : String} (lists : key = "And" ∨ key = "Or")
    (empty : ms.lookup key = some (.array [])) (depth : Nat) (p : Path) :
    below (p.member key) (violations (.object ms) (level siblings depth) p) =
      [⟨p.member key, .tooFewItems 1⟩] := by
  rw [below_object (shape?_level siblings depth) (asks_lists siblings depth lists) empty
    List.prefix_rfl, below_eq_self (prefix_of_mem_violations _ _ _)]
  rfl

open Machine Workflow in
/-- Of an entry, in whatever machine of a document, just that is reported which a check of the entry
    alone reports. -/
theorem below_choice {document machine state : Json} {ss : List (String × Json)} {name : String}
    {i : Nat} (h : document.NoRepeats) (scope : Scope document p machine)
    (lists : machine.at? [.key "States"] = some (.object ss))
    (named : machine.at? [.key "States", .key name] = some state)
    (chooses : State.MayBe [.choice] state)
    (listed : state.at? [.key "Choices", .index i] = some entry) :
    below (p ++ [.key "States", .key name, .key "Choices", .index i])
        (documentViolations document) =
      violations entry (.record (topShape (names ss)))
        (p ++ [.key "States", .key name, .key "Choices", .index i]) := by
  obtain ⟨u, hu, hi⟩ := Json.exists_of_at?_pair listed
  obtain ⟨items, rfl, item⟩ := Json.exists_array_of_child? hi
  have choices : state.at? [.key "Choices"] = some (.array items) := by
    rw [Json.at?_cons, hu]
    rfl
  have siblings : stateNames machine = names ss := by
    obtain ⟨ms, rfl, states⟩ := exists_member lists
    exact stateNames_eq states
  have place : p ++ [.key "States", .key name, .key "Choices", .index i] =
      (((p.member "States").member name).member "Choices").item i := by
    simp [Path.member, Path.item, Path.push]
  obtain ⟨whole, report⟩ := below_scope scope h true
  refine (report [] _ (List.prefix_append p _)).trans ?_
  rw [List.nil_append, place, below_state whole (noRepeats_scope scope h) named
      ((Path.prefix_member ..).trans (Path.prefix_item ..)), siblings,
    below_member _ (State.asks_choices _ · chooses) choices (Path.prefix_item ..),
    below_list item List.prefix_rfl, below_eq_self (prefix_of_mem_violations _ _ _)]

/-- However deep a rule stands in an entry, of the presence of its members just that is reported
    which is to be said, each violation once, and no more in the whole entry. What stands in the
    place of a rule and is no object is called so and nothing else, and so is a list without
    rules. -/
theorem rules_exact (h : entry.NoRepeats) (siblings : List String) (p : Path) :
    (∀ n q ms, Node entry n q (.object ms) → ∀ w, Says (ms.map Prod.fst) n (p ++ q) w ↔
      w ∈ violations entry (.record (topShape siblings)) p ∧ OfPresence w ∧ seat w = p ++ q) ∧
    (∀ w ∈ violations entry (.record (topShape siblings)) p, OfPresence w →
      (violations entry (.record (topShape siblings)) p).count w = 1 ∧
        ∃ n q ms, Node entry n q (.object ms) ∧ seat w = p ++ q) ∧
    (∀ n q node, Node entry n q node → (∀ ms, node ≠ .object ms) →
      below (p ++ q) (violations entry (.record (topShape siblings)) p) =
        [⟨p ++ q, .invalidType .object⟩]) ∧
    ∀ n q ms key, Node entry n q (.object ms) → key = "And" ∨ key = "Or" →
      ms.lookup key = some (.array []) →
        below ((p ++ q).member key) (violations entry (.record (topShape siblings)) p) =
          [⟨(p ++ q).member key, .tooFewItems 1⟩] := by
  refine ⟨fun n q ms within w => ⟨fun said => ?_, ?_⟩, fun w reported hw => ?_, ?_, ?_⟩
  · have once := count_of_said siblings h within said
    exact ⟨List.count_pos_iff.1 (by omega), said.ofPresence, said.seat_eq⟩
  · rintro ⟨reported, hw, sits⟩
    obtain ⟨n', q', ms', within', said⟩ := exists_node_of_mem siblings hw reported
    -- A violation sits at one rule only.
    obtain rfl := List.append_cancel_left (sits.symm.trans said.seat_eq)
    obtain ⟨rfl, same⟩ := within.unique within'
    cases same
    exact said
  · obtain ⟨n, q, ms, within, said⟩ := exists_node_of_mem siblings hw reported
    exact ⟨count_of_said siblings h within said, n, q, ms, within, said.seat_eq⟩
  · intro n q node within other
    rw [below_node_entry siblings within, violations_notObject siblings other]
  · intro n q ms key within lists empty
    rw [← below_below (Path.prefix_member ..), below_node_entry siblings within,
      below_emptyList siblings lists empty]

end

end

/-- A rule that compares nothing and combines rules, one of which denies a rule that leads on. -/
def tangledRule : Json :=
  .object [("Variable", .string "$.x"), ("And", .array []),
    ("Or", .array [.object [("Not", .object [("Next", .string "A")])], .bool true])]

theorem rules_exact_tangledRule :
    tangledRule.NoRepeats ∧
      ⟨[.key "Variable"], .conflict "And"⟩ ∈ violations tangledRule (.record (topShape ["A"])) [] ∧
      ⟨[.key "Or", .index 0, .key "Not", .key "Next"], .notAllowed⟩ ∈
        violations tangledRule (.record (topShape ["A"])) [] ∧
      below [.key "Or", .index 1] (violations tangledRule (.record (topShape ["A"])) []) =
        [⟨[.key "Or", .index 1], .invalidType .object⟩] ∧
      below [.key "And"] (violations tangledRule (.record (topShape ["A"])) []) =
        [⟨[.key "And"], .tooFewItems 1⟩] := by
  have settled : tangledRule.settled = tangledRule := rfl
  have distinct : tangledRule.NoRepeats := settled ▸ Json.noRepeats_settled tangledRule
  obtain ⟨reported, -, notObject, empty⟩ := rules_exact distinct ["A"] []
  have denied : Node tangledRule 2 [.key "Or", .index 0, .key "Not"]
      (.object [("Next", .string "A")]) :=
    .among (.inr rfl) rfl (.negated rfl (.self _))
  refine ⟨distinct, ?_, ?_, ?_, ?_⟩
  · exact ((reported 0 [] _ (.self _) _).1 (.conflict (by decide) (by decide))).1
  · exact ((reported 2 _ _ denied _).1 (.leads (by decide) (by decide))).1
  · exact notObject 1 _ _ (.among (.inr rfl) rfl (.self (.bool true))) nofun
  · exact empty 0 [] _ "And" (.self _) (.inl rfl) rfl

end FlowLint.ChoiceRule
