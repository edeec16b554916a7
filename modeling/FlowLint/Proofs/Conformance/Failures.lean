import FlowLint.Proofs.Conformance.Order
import FlowLint.Proofs.Conformance.Parts
import FlowLint.Proofs.Grammar.Language
import Mathlib.Data.Finset.Defs
import Mathlib.Data.Multiset.MapFold

/-!
What a value fails of a constraint, said clause by clause and without an order of checks, and the
proof that a check reports each clause that fails once and nothing else.
-/

namespace FlowLint

/-! ### Clauses -/

/-- A part of a constraint as a value unfolds it. -/
inductive Part where
  /-- The field of that number in a shape. -/
  | field (i : Nat)
  /-- No field for the member of that number in an object. -/
  | member (i : Nat)
  /-- The rule of that number among the members. -/
  | peers (i : Nat)
  /-- The constraint on the item of that number. -/
  | item (i : Nat)
  deriving DecidableEq

/-- A clause of a constraint: the parts that lead to it. The constraint itself is the empty one. -/
abbrev Clause := List Part

/-- What a value by itself fails of a constraint. -/
inductive Constraint.Misses [Formats] : Constraint → Json → ViolationKind → Prop
  | notAmong {texts : List String} {format : TextFormat} {v : Json}
      (other : ∀ s ∈ texts, v ≠ .string s) :
      Misses (.text (some texts) format) v (.notOneOf texts)
  | notText {format : TextFormat} {v : Json} (other : ∀ s, v ≠ .string s) :
      Misses (.text none format) v (.invalidType .string)
  | empty {format : TextFormat} : Misses (.text none format) (.string "") .empty
  | badUri {s : String} (some : s ≠ "") (bad : Formats.isUri s = false) :
      Misses (.text none .uri) (.string s) .invalidUri
  | notNumber {rule : NumberRule} {v : Json} (other : ∀ n, v ≠ .number n) :
      Misses (.number rule) v (.invalidType .number)
  | notWhole {rule : NumberRule} {n : Number} (asked : rule.whole = true)
      (broken : n.toBinary64.isWhole = false) :
      Misses (.number rule) (.number n) (.invalidType .integer)
  | below {rule : NumberRule} {n : Number} {least : Binary64} (asked : rule.least = some least)
      (less : n.toBinary64.lt least = true) :
      Misses (.number rule) (.number n) (.belowMinimum least)
  | above {rule : NumberRule} {n : Number} {most : Binary64} (asked : rule.most = some most)
      (more : most.lt n.toBinary64 = true) :
      Misses (.number rule) (.number n) (.aboveMaximum most)
  | notFlag {v : Json} (other : ∀ b, v ≠ .bool b) : Misses .boolean v (.invalidType .boolean)
  | notTime {v : Json} (other : ¬ Workflow.IsTimestamp v) : Misses .timestamp v .invalidTimestamp
  | notList {r : Option Constraint} {atLeast : Nat} {v : Json}
      (other : ∀ items, v ≠ .array items) : Misses (.list r atLeast) v (.invalidType .array)
  | notPositions {rs : List Constraint} {atLeast : Nat} {v : Json}
      (other : ∀ items, v ≠ .array items) : Misses (.positions rs atLeast) v (.invalidType .array)
  | fewItems {r : Option Constraint} {atLeast : Nat} {items : List Json}
      (few : items.length < atLeast) :
      Misses (.list r atLeast) (.array items) (.tooFewItems atLeast)
  | fewPositions {rs : List Constraint} {atLeast : Nat} {items : List Json}
      (few : items.length < atLeast) :
      Misses (.positions rs atLeast) (.array items) (.tooFewItems atLeast)
  | notRecord {s : Shape Constraint} {v : Json} (other : ∀ ms, v ≠ .object ms) :
      Misses (.record s) v (.invalidType .object)
  | notChoiceRule {v : Json} (other : ∀ ms, v ≠ .object ms) :
      Misses .choiceRule v (.invalidType .object)

/-- What members of those names at `p` fail of a rule. -/
inductive PeerRule.Misses (names : List String) (p : Path) : PeerRule → Violation → Prop
  /-- The first of the peers that are there is to blame. -/
  | conflict {key peer : String} {before after : List String} (there : key ∈ names)
      (first : ∀ k ∈ before, k ∉ names) (found : peer ∈ names) :
      Misses names p (.excludes key (before ++ peer :: after)) ⟨p.member key, .conflict peer⟩
  | several {peers : List String} (many : 1 < (peers.filter (· ∈ names)).length) :
      Misses names p (.exactlyOneOf peers) ⟨p, .exclusivePeers (peers.filter (· ∈ names))⟩
  | lacksOne {peers : List String} (none : ∀ k ∈ peers, k ∉ names) :
      Misses names p (.exactlyOneOf peers) ⟨p, .missingPeers peers⟩
  | lacksAll {peers : List String} (none : ∀ k ∈ peers, k ∉ names) :
      Misses names p (.atLeastOneOf peers) ⟨p, .missingPeers peers⟩
  | present {key : String} {present absent : PeerRule} {w : Violation} (there : key ∈ names)
      (fails : present.Misses names p w) : Misses names p (.keyed key present absent) w
  | absent {key : String} {present absent : PeerRule} {w : Violation} (missing : key ∉ names)
      (fails : absent.Misses names p w) : Misses names p (.keyed key present absent) w

/-- The value at the path fails that clause of the constraint, and the violation says so. -/
inductive Fails [Formats] : Constraint → Json → Path → Clause → Violation → Prop
  | itself {c : Constraint} {v : Json} {p : Path} {kind : ViolationKind} (h : c.Misses v kind) :
      Fails c v p [] ⟨p, kind⟩
  | missing {c : Constraint} {s : Shape Constraint} {ms : List (String × Json)} {p : Path} {i : Nat}
      {name : String} {r : Constraint} (shape : c.shape? = some s)
      (field : s.fields[i]? = some (.required name r)) (lacks : name ∉ ms.map Prod.fst) :
      Fails c (.object ms) p [.field i] ⟨p.member name, .required⟩
  | forbidden {c : Constraint} {s : Shape Constraint} {ms : List (String × Json)} {p : Path}
      {i : Nat} {name : String} (shape : c.shape? = some s)
      (field : s.fields[i]? = some (.forbidden name)) (there : name ∈ ms.map Prod.fst) :
      Fails c (.object ms) p [.field i] ⟨p.member name, .notAllowed⟩
  | member {c : Constraint} {s : Shape Constraint} {ms : List (String × Json)} {p : Path} {i : Nat}
      {f : Field Constraint} {r : Constraint} {v : Json} {k : Clause} {w : Violation}
      (shape : c.shape? = some s) (field : s.fields[i]? = some f) (rule : f.rule? = some r)
      (there : ms.lookup f.name = some v) (fails : Fails r v (p.member f.name) k w) :
      Fails c (.object ms) p (.field i :: k) w
  | undeclared {c : Constraint} {s : Shape Constraint} {ms : List (String × Json)} {p : Path}
      {i : Nat} {name : String} {v : Json} (shape : c.shape? = some s)
      (there : ms[i]? = some (name, v)) (unknown : ∀ f ∈ s.fields, f.name ≠ name) :
      Fails c (.object ms) p [.member i] ⟨p.member name, .notAllowed⟩
  | peers {c : Constraint} {s : Shape Constraint} {ms : List (String × Json)} {p : Path} {i : Nat}
      {r : PeerRule} {w : Violation} (shape : c.shape? = some s) (rule : s.peers[i]? = some r)
      (misses : r.Misses (ms.map Prod.fst) p w) : Fails c (.object ms) p [.peers i] w
  | item {items : List Json} {r : Constraint} {atLeast : Nat} {p : Path} {i : Nat} {v : Json}
      {k : Clause} {w : Violation} (there : items[i]? = some v)
      (fails : Fails r v (p.item i) k w) :
      Fails (.list (some r) atLeast) (.array items) p (.item i :: k) w
  | position {items : List Json} {rs : List Constraint} {r : Constraint} {atLeast : Nat} {p : Path}
      {i : Nat} {v : Json} {k : Clause} {w : Violation} (there : items[i]? = some v)
      (rule : rs[i]? = some r) (fails : Fails r v (p.item i) k w) :
      Fails (.positions rs atLeast) (.array items) p (.item i :: k) w

/-! ### Lists of what fails -/

/-- The violations are those of `F`, each as often as clauses fail with it. -/
def Lists (F : Clause → Violation → Prop) (gs : List Violation) : Prop :=
  ∃ found : List (Clause × Violation), found.Nodup ∧ (∀ k w, (k, w) ∈ found ↔ F k w) ∧
    found.map Prod.snd = gs

namespace Lists

variable {F G : Clause → Violation → Prop} {gs hs : List Violation}

theorem congr (h : Lists F gs) (same : ∀ k w, F k w ↔ G k w) : Lists G gs := by
  obtain ⟨found, distinct, all, rfl⟩ := h
  exact ⟨found, distinct, fun k w => (all k w).trans (same k w), rfl⟩

theorem mem_iff (h : Lists F gs) (w : Violation) : w ∈ gs ↔ ∃ k, F k w := by
  obtain ⟨found, -, all, rfl⟩ := h
  simp [← all]

/-- What one clause alone fails with is listed once. -/
theorem count_le_one (h : Lists F gs) {w : Violation} (one : ∀ k k', F k w → F k' w → k = k') :
    gs.count w ≤ 1 := by
  obtain ⟨found, distinct, all, rfl⟩ := h
  by_cases there : ∃ k, F k w
  · obtain ⟨k, hk⟩ := there
    have only : ∀ x ∈ found, x.2 = w → x = (k, w) := by
      rintro ⟨k', w'⟩ hx rfl
      rw [one k' k ((all ..).1 hx) hk]
    have same : (found.map Prod.snd).count w = found.count (k, w) := by
      rw [List.count, List.count, List.countP_map]
      refine List.countP_congr fun x hx => ?_
      simp only [Function.comp_apply, beq_iff_eq]
      exact ⟨only x hx, fun e => e ▸ rfl⟩
    rw [same]
    exact List.nodup_iff_count_le_one.1 distinct (k, w)
  · refine (Nat.le_of_eq (List.count_eq_zero.2 fun hw => there ?_)).trans (Nat.zero_le 1)
    obtain ⟨⟨k, w'⟩, hx, rfl⟩ := List.mem_map.1 hw
    exact ⟨k, (all ..).1 hx⟩

theorem nil (none : ∀ k w, ¬ F k w) : Lists F [] :=
  ⟨[], List.nodup_nil, fun k w => ⟨nofun, fun h => absurd h (none k w)⟩, rfl⟩

/-- Violations of the constraint itself. -/
theorem of_nodup (distinct : gs.Nodup) : Lists (fun k w => k = [] ∧ w ∈ gs) gs := by
  refine ⟨gs.map ([], ·), distinct.map fun g h e => (Prod.mk.inj e).2, fun k w => ?_, by simp⟩
  simp [eq_comm, and_comm]

theorem append (hF : Lists F gs) (hG : Lists G hs) (apart : ∀ k w, F k w → ¬ G k w) :
    Lists (fun k w => F k w ∨ G k w) (gs ++ hs) := by
  obtain ⟨found, distinct, all, rfl⟩ := hF
  obtain ⟨found', distinct', all', rfl⟩ := hG
  refine ⟨found ++ found', ?_, fun k w => ?_, List.map_append⟩
  · refine List.nodup_append'.2 ⟨distinct, distinct', fun x hx hx' => ?_⟩
    exact apart x.1 x.2 ((all _ _).1 hx) ((all' _ _).1 hx')
  · rw [List.mem_append, all, all']

/-- The clauses of a part. -/
theorem under (part : Part) (h : Lists F gs) :
    Lists (fun k w => ∃ k', k = part :: k' ∧ F k' w) gs := by
  obtain ⟨found, distinct, all, rfl⟩ := h
  refine ⟨found.map fun x => (part :: x.1, x.2), ?_, fun k w => ?_, by simp⟩
  · refine distinct.map fun x y e => ?_
    obtain ⟨clause, violation⟩ := Prod.mk.inj e
    exact Prod.ext (List.cons.inj clause).2 violation
  · simp only [← all]
    constructor
    · intro h
      obtain ⟨⟨k', w'⟩, hx, e⟩ := List.mem_map.1 h
      cases e
      exact ⟨k', rfl, hx⟩
    · rintro ⟨k', rfl, hx⟩
      exact List.mem_map_of_mem hx

/-- What is found of each of some things, each of which is a part of its own. -/
theorem each {α : Type} {part : Nat → Part} (distinct : Function.Injective part) {xs : List α}
    {f : Nat → α → List Violation} {F : Nat → α → Clause → Violation → Prop}
    (h : ∀ i x, xs[i]? = some x → Lists (F i x) (f i x)) :
    Lists (fun k w => ∃ i x k', xs[i]? = some x ∧ k = part i :: k' ∧ F i x k' w)
      (xs.mapIdx f).flatten := by
  induction xs generalizing part f F with
  | nil => exact .nil fun k w ⟨i, x, k', there, _⟩ => nomatch there
  | cons x xs ih =>
    have first := (h 0 x rfl).under (part 0)
    have later : Function.Injective fun i => part (i + 1) := fun i j e => Nat.succ.inj (distinct e)
    have others := ih later fun i x hx => h (i + 1) x hx
    rw [List.mapIdx_cons, List.flatten_cons]
    refine (first.append others ?_).congr fun k w => ?_
    · rintro k w ⟨k', rfl, -⟩ ⟨i, _, k'', -, e, -⟩
      exact absurd (distinct (List.cons.inj e).1) (Nat.succ_ne_zero i).symm
    · constructor
      · rintro (⟨k', rfl, fails⟩ | ⟨i, y, k', there, rfl, fails⟩)
        · exact ⟨0, x, k', rfl, rfl, fails⟩
        · exact ⟨i + 1, y, k', there, rfl, fails⟩
      · rintro ⟨i, y, k', there, rfl, fails⟩
        cases i with
        | zero =>
          cases there
          exact .inl ⟨k', rfl, fails⟩
        | succ i => exact .inr ⟨i, y, k', there, rfl, fails⟩

end Lists

end FlowLint
