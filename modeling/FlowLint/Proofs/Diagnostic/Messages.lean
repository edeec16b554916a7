import FlowLint.Proofs.Diagnostic.Lint
import Mathlib.Algebra.GroupWithZero.Nat

/-!
The line feeds in what is said. A message repeats names as they are: the last step of a path, the
candidates for a text, the members that rules speak of. All else in it is of one line, so it takes
as many lines as those names do.
-/

namespace FlowLint

open Json

/-- The line feeds in a text. -/
def feeds (s : String) : Nat := s.toList.count '\n'

/-- The text stays in one line. -/
def OneLine (s : String) : Prop := '\n' ∉ s.toList

instance (s : String) : Decidable (OneLine s) := inferInstanceAs (Decidable (¬ _))

/-- The text does not end with a carriage return, which would become part of the line's end. -/
def Closed (s : String) : Prop := s.toList.getLast? ≠ some '\r'

instance (s : String) : Decidable (Closed s) := inferInstanceAs (Decidable (¬ _))

/-! ### Texts put together -/

theorem feeds_eq_zero_iff {s : String} : feeds s = 0 ↔ OneLine s := List.count_eq_zero

theorem feeds_of_oneLine {s : String} (h : OneLine s) : feeds s = 0 := feeds_eq_zero_iff.2 h

@[simp] theorem feeds_append (s t : String) : feeds (s ++ t) = feeds s + feeds t := by
  rw [feeds, String.toList_append, List.count_append, feeds, feeds]

theorem oneLine_append {s t : String} (hs : OneLine s) (ht : OneLine t) : OneLine (s ++ t) := by
  rw [OneLine, String.toList_append, List.mem_append, not_or]
  exact ⟨hs, ht⟩

/-- A separator of one line brings no line feed. -/
theorem feeds_intercalate {sep : String} (h : OneLine sep) : ∀ names : List String,
    feeds (sep.intercalate names) = (names.map feeds).sum
  | []                     => by simp [feeds]
  | [name]                 => by simp [feeds]
  | name :: other :: names => by
    have later := feeds_intercalate h (other :: names)
    have plain : sep.toList.count '\n' = 0 := List.count_eq_zero.2 h
    rw [feeds, String.toList_intercalate] at later ⊢
    rw [List.map_cons, List.map_cons, List.intercalate_cons_cons, List.count_append,
      List.count_append, plain, ← List.map_cons, later]
    rfl

theorem closed_append {s t : String} (hs : Closed s) (ht : Closed t) : Closed (s ++ t) := by
  rw [Closed, String.toList_append, List.getLast?_append]
  cases last : t.toList.getLast? with
  | none => exact hs
  | some c =>
    rw [Closed, last] at ht
    exact ht

/-- What a text ends with that is not empty is what counts. -/
theorem closed_append_right (s : String) {t : String} (some : t ≠ "") (ht : Closed t) :
    Closed (s ++ t) := by
  rw [Closed, String.toList_append, List.getLast?_append_of_ne_nil]
  · exact ht
  · simpa using some

/-! ### Numbers -/

/-- What numbers are written with. -/
def IsFigure (c : Char) : Prop := c.isDigit ∨ c = '.' ∨ c = '-'

instance (c : Char) : Decidable (IsFigure c) := inferInstanceAs (Decidable (_ ∨ _))

theorem isFigure_toDigits (n : Nat) : ∀ c ∈ Nat.toDigits 10 n, IsFigure c := fun _ hc =>
  .inl (Nat.isDigit_of_mem_toDigits (by decide) (by decide) hc)

theorem Binary64.isFigure_positional (k j : Nat) : ∀ c ∈ positional k j, IsFigure c := by
  have zeros (m : Nat) : ∀ c ∈ List.replicate m '0', IsFigure c := by
    intro c hc
    rw [List.eq_of_mem_replicate hc]
    decide
  rw [positional]
  split
  · exact List.forall_mem_append.2 ⟨isFigure_toDigits k, zeros _⟩
  · have padded (m : Nat) : ∀ c ∈ List.replicate m '0' ++ Nat.toDigits 10 k, IsFigure c :=
      List.forall_mem_append.2 ⟨zeros m, isFigure_toDigits k⟩
    refine List.forall_mem_append.2 ⟨fun c hc => padded _ c (List.mem_of_mem_take hc), ?_⟩
    refine List.forall_mem_cons.2 ⟨by decide, fun c hc => padded _ c (List.mem_of_mem_drop hc)⟩

/-- A float is written in figures, without an exponent. -/
theorem Binary64.isFigure_toText (x : Binary64) : ∀ c ∈ x.toText, IsFigure c := by
  have zero : ∀ c ∈ ['0'], IsFigure c := List.forall_mem_singleton.2 (by decide)
  have minus : IsFigure '-' := by decide
  unfold toText
  by_cases nothing : x.units = 0
  · rw [if_pos nothing]
    split
    · exact List.forall_mem_cons.2 ⟨minus, zero⟩
    · exact zero
  · rw [if_neg nothing]
    split
    · exact List.forall_mem_cons.2 ⟨minus, isFigure_positional _ _⟩
    · exact isFigure_positional _ _

section

variable {cs : List Char} (h : ∀ c ∈ cs, IsFigure c)

include h

theorem oneLine_figures : OneLine (.ofList cs) := by
  rw [OneLine, String.toList_ofList]
  exact fun feed => absurd (h _ feed) (by decide)

theorem closed_figures : Closed (.ofList cs) := by
  rw [Closed, String.toList_ofList]
  exact fun last => absurd (h _ (List.mem_of_getLast? last)) (by decide)

end

theorem oneLine_nat (n : Nat) : OneLine (toString n) := oneLine_figures (isFigure_toDigits n)

/-! ### Messages -/

namespace ViolationKind

/-- The names that a message repeats as they are. -/
def repeated (label : String) : ViolationKind → List String
  | .notOneOf texts         => label :: texts
  | .conflict peer          => [label, peer]
  | .exclusivePeers present => present
  | .missingPeers peers     => peers
  | _                       => [label]

/-- A list of names in words has the line feeds of the names. -/
theorem feeds_listed (names : List String) : feeds (listed names) = (names.map feeds).sum := by
  have comma : OneLine ", " := by decide
  rw [listed, feeds_append, feeds_append, feeds_intercalate comma]
  simp [feeds]

theorem oneLine_text (t : ValueType) : OneLine t.text := by cases t <;> decide

/-- A message has the line feeds of the names that it repeats and no other. -/
theorem feeds_message (k : ViolationKind) (label : String) :
    feeds (k.message label) = ((k.repeated label).map feeds).sum := by
  have figures (x : Binary64) : feeds (.ofList x.toText) = 0 :=
    feeds_of_oneLine (oneLine_figures x.isFigure_toText)
  have nat (n : Nat) : feeds (Nat.repr n) = 0 := feeds_of_oneLine (oneLine_nat n)
  have type (t : ValueType) : feeds t.text = 0 := feeds_of_oneLine (oneLine_text t)
  unfold message
  cases k <;> simp (disch := decide) only [toString, feeds_append, feeds_of_oneLine, feeds_listed,
    figures, nat, type, repeated, List.map_cons, List.map_nil, List.sum_cons, List.sum_nil,
    Nat.zero_add, Nat.add_zero]

theorem closed_listed (names : List String) : Closed (listed names) :=
  closed_append_right _ (by decide) (by decide)

theorem listed_ne_empty (names : List String) : listed names ≠ "" := by simp [listed]

theorem closed_message (k : ViolationKind) (label : String) : Closed (k.message label) := by
  unfold message
  cases k with
  | invalidType expected =>
    exact closed_append_right _ (by cases expected <;> decide) (by cases expected <;> decide)
  | belowMinimum least =>
    exact closed_append (closed_append_right _ (by decide) (by decide))
      (closed_figures least.isFigure_toText)
  | aboveMaximum most =>
    exact closed_append (closed_append_right _ (by decide) (by decide))
      (closed_figures most.isFigure_toText)
  | notOneOf texts => exact closed_append_right _ (listed_ne_empty texts) (closed_listed texts)
  | exclusivePeers present =>
    exact closed_append_right _ (listed_ne_empty present) (closed_listed present)
  | missingPeers peers => exact closed_append_right _ (listed_ne_empty peers) (closed_listed peers)
  | _ => exact closed_append_right _ (by decide) (by decide)

theorem oneLine_code (k : ViolationKind) : OneLine k.code := by
  cases k <;> rw [code] <;> decide

end ViolationKind

/-- The names that the message of a violation repeats. -/
def Violation.repeated (w : Violation) : List String := w.kind.repeated w.path.label

theorem Json.SyntaxCause.oneLine_message (c : SyntaxCause) : OneLine c.message := by
  cases c <;> decide

theorem Json.SyntaxCause.closed_message (c : SyntaxCause) : Closed c.message := by
  cases c <;> decide

/-! ### Diagnostics -/

/-- A diagnostic reads as its message after some words of one line. -/
theorem Diagnostic.text_eq (d : Diagnostic) (code : OneLine d.code) :
    ∃ s, OneLine s ∧ Closed s ∧ d.text = s ++ d.message := by
  have severity : OneLine d.severity.name := by cases d.severity <;> decide
  have words : OneLine (d.severity.name ++ "[" ++ d.code ++ "] ") :=
    oneLine_append (oneLine_append (oneLine_append severity (by decide)) code) (by decide)
  have closed : Closed (d.severity.name ++ "[" ++ d.code ++ "] ") :=
    closed_append_right _ (by decide) (by decide)
  rw [text]
  split
  · next line column _ _ =>
    have place : OneLine (toString line ++ ":" ++ toString column ++ ": ") :=
      oneLine_append (oneLine_append (oneLine_append (oneLine_nat line) (by decide))
        (oneLine_nat column)) (by decide)
    exact ⟨_, oneLine_append place words, closed_append_right _ (by simp) closed,
      String.append_assoc.symm⟩
  · exact ⟨_, words, closed, rfl⟩

/-! ### Lints -/

/-- The names that the diagnostics of a text repeat. One that is no JSON has no names. -/
def repeatedNames [Formats] (source : String) : List String :=
  match document? source.toList with
  | .error _ => []
  | .ok v    => (documentViolations v).flatMap Violation.repeated

/-- What is said of a text that is no JSON is that. -/
theorem document?_eq_error {text : List Char} {g : Diagnostic} (h : document? text = .error g) :
    ∃ (c : SyntaxCause) (p : Text.Position), g = .malformed text c.message p := by
  cases parsed : parse? text with
  | ok v =>
    rw [document?, parsed] at h
    cases h
  | error e =>
    rw [document?, parsed] at h
    cases h
    exact ⟨e.cause, e.position, rfl⟩

/-- A document that is read gives a diagnostic for each violation. -/
theorem reports_of_document [Formats] {source : String} {v : Json}
    (h : document? source.toList = .ok v) :
    List.Forall₂ Reports (documentViolations v) (lint source) := by
  cases parsed : parse? source.toList with
  | error e =>
    rw [document?, parsed] at h
    cases h
  | ok w =>
    rw [document?, parsed] at h
    cases h
    obtain ⟨d, -, -, all⟩ := lint_document parsed
    refine all.imp ?_
    rintro w g ⟨q, e, -, -, rfl⟩
    exact reports_structural w _

/-- Message by message the line feeds are those of the names. -/
theorem sum_feeds_reports {vs : List Violation} {gs : List Diagnostic}
    (h : List.Forall₂ Reports vs gs) :
    (gs.map fun g => feeds g.message).sum = ((vs.flatMap Violation.repeated).map feeds).sum := by
  induction h with
  | nil => rfl
  | cons reports _ ih =>
    rw [List.map_cons, List.sum_cons, ih, reports.message, Violation.message,
      ViolationKind.feeds_message, List.flatMap_cons, List.map_append, List.sum_append,
      Violation.repeated]

variable [Formats]

/-- The diagnostics of a text have the line feeds of the names that they repeat and no other. -/
theorem sum_feeds_lint (source : String) :
    ((lint source).map fun g => feeds g.message).sum =
      ((repeatedNames source).map feeds).sum := by
  rw [repeatedNames]
  cases read : document? source.toList with
  | ok v => exact sum_feeds_reports (reports_of_document read)
  | error g =>
    obtain ⟨c, p, rfl⟩ := document?_eq_error read
    rw [lint, read]
    exact feeds_of_oneLine c.oneLine_message

/-- No diagnostic ends with a carriage return, and its code is of one line. -/
theorem closed_lint {source : String} {g : Diagnostic} (hg : g ∈ lint source) :
    OneLine g.code ∧ Closed g.message := by
  cases read : document? source.toList with
  | ok v =>
    obtain ⟨w, reports⟩ := exists_reports (reports_of_document read) hg
    rw [reports.code, reports.message]
    exact ⟨w.kind.oneLine_code, w.kind.closed_message _⟩
  | error d =>
    obtain ⟨c, p, rfl⟩ := document?_eq_error read
    rw [lint, read, List.mem_singleton] at hg
    rw [hg]
    exact ⟨(by decide : OneLine "S001"), c.closed_message⟩

end FlowLint
