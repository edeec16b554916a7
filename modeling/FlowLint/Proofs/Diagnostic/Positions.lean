import FlowLint.Format.Standard
import FlowLint.Proofs.Diagnostic.Lint
import FlowLint.Proofs.Text.Layout

/-!
Positions against lines. What a diagnostic shows starts with its label or its value, so with no
blank, and the position of such a character is inside the text. The document as a whole is shown
from the start of the text on, which is outside where the first line is empty.
-/

namespace FlowLint

open Json Locate Text

/-- No part of a line's end starts a value. -/
theorem Json.StartsValue.not_endsLine {c : Char} (h : StartsValue c) (after : List Char) :
    ¬ EndsLine c after := by
  intro ends
  refine h.not_blank (isJsonBlank_iff.2 ?_)
  rcases ends with feed | ⟨ret, -⟩
  · exact .inr (.inr (.inl feed))
  · exact .inr (.inr (.inr ret))

/-- What is shown of an entry starts with the quote of its name, or as its value does. -/
theorem Entry.exists_cons (e : Entry) : ∃ c t, e.shown = c :: t ∧ StartsValue c := by
  cases label : e.label with
  | none =>
    obtain ⟨c, t, first, start⟩ := e.value.exists_cons
    exact ⟨c, t, by simp [Entry.shown, Entry.labelText, label, first], start⟩
  | some l =>
    refine ⟨'"', ?_, ?_, .inr (.inr (.inl rfl))⟩
    · exact l.quoted.body ++ (l.before.text ++ ':' :: l.after.text) ++ e.value.text
    · simp [Entry.shown, Entry.labelText, label, Label.text, Quoted.text]

/-- An entry stands inside the text. -/
theorem Entry.inside (e : Entry) :
    Inside e.text (position e.text e.span.start).line (position e.text e.span.start).column := by
  obtain ⟨c, t, first, start⟩ := e.exists_cons
  have cut : e.text = e.before ++ c :: (t ++ e.after) := by rw [Entry.text, first, List.cons_append]
  rw [cut]
  exact (lineText_position (start.not_endsLine _) e.before rfl).1

/-- The start of the text, where the document as a whole is shown, is inside the text unless the
    first line is empty. -/
theorem Json.Document.inside_or_empty (d : Document) :
    Inside d.text 1 1 ∨ 1 ≤ (lines d.text).length ∧ lineText d.text 1 = [] := by
  have some : d.text ≠ [] := by
    obtain ⟨c, t, first, -⟩ := d.root.exists_cons
    simp [Document.text, first]
  have first : 1 ≤ (lines d.text).length := List.length_pos_of_ne_nil (lines_ne_nil some)
  by_cases empty : lineText d.text 1 = []
  · exact .inr ⟨first, empty⟩
  · exact .inl ⟨Nat.le_refl 1, first, Nat.le_refl 1, List.length_pos_of_ne_nil empty⟩

/-- The diagnostic shows the whole text, from a first line on in which nothing stands. -/
structure Diagnostic.AtEmptyStart (source : String) (g : Diagnostic) : Prop where
  whole : g.source = source
  start : g.line = some 1 ∧ g.column = some 1
  line  : 1 ≤ (lines source.toList).length
  empty : lineText source.toList 1 = []

/-- A diagnostic of an accepted text has a line and a column inside the text, unless it is shown at
    the document as a whole and the first line is empty: then it stands at the start of that. -/
theorem lint_inside [Formats] {source : String} {v : Json} (h : parse? source.toList = .ok v) :
    ∀ g ∈ lint source,
      (∃ line column, g.line = some line ∧ g.column = some column ∧
        Inside source.toList line column) ∨ g.AtEmptyStart source := by
  intro g hg
  obtain ⟨d, text, -, all⟩ := lint_document h
  obtain ⟨w, -, q, e, -, leads, rfl⟩ := exists_of_forall₂ all hg
  rw [Document.located]
  by_cases root : q = []
  · rw [if_pos root, text]
    rcases d.inside_or_empty with inside | ⟨first, empty⟩
    · exact .inl ⟨1, 1, rfl, rfl, text ▸ inside⟩
    · exact .inr ⟨String.ofList_toList, ⟨rfl, rfl⟩, text ▸ first, text ▸ empty⟩
  · rw [if_neg root, ← text, ← leads.text]
    exact .inl ⟨_, _, rfl, rfl, e.inside⟩

/-- A text whose first line is empty and whose object has one stray member. -/
def strayMember : String := "\r\n\x7b\"é\":1,\r\n \"StartAt\":3\x7d"

/-- Its value. -/
def strayDocument : Json := .object [("é", .number (.int 1)), ("StartAt", .number (.int 3))]

theorem lint_inside_strayMember :
    parse? strayMember.toList = .ok strayDocument ∧ ∀ g ∈ lint strayMember,
      (∃ line column, g.line = some line ∧ g.column = some column ∧
        Inside strayMember.toList line column) ∨ g.AtEmptyStart strayMember := by
  have parses : parse? strayMember.toList = .ok strayDocument := by decide +kernel
  exact ⟨parses, lint_inside parses⟩

/-- The smallest text of the kind: both of its diagnostics stand in the first line, in which there
    is no first column. -/
theorem lint_lineFeed_outside :
    parse? "\n\x7b\x7d".toList = .ok (.object []) ∧
      (lint "\n\x7b\x7d").map (fun g => (g.line, g.column)) =
        [(some 1, some 1), (some 1, some 1)] ∧
      ¬ Inside "\n\x7b\x7d".toList 1 1 := by
  have parses : parse? "\n\x7b\x7d".toList = .ok (.object []) := by decide +kernel
  have violated : documentViolations (.object []) =
      [⟨[.key "StartAt"], .required⟩, ⟨[.key "States"], .required⟩] := by decide +kernel
  have start : resolve "\n\x7b\x7d".toList [.key "StartAt"] =
      .ok ⟨⟨1, 1⟩, "\n\x7b\x7d".toList⟩ := by decide +kernel
  have states : resolve "\n\x7b\x7d".toList [.key "States"] =
      .ok ⟨⟨1, 1⟩, "\n\x7b\x7d".toList⟩ := by decide +kernel
  refine ⟨parses, ?_, ?_⟩
  · rw [lint, document?, parses]
    simp only [Except.mapError, violated, placed]
    rw [List.mapM_cons, start, List.mapM_cons, states]
    rfl
  · intro inside
    exact absurd inside.column_le (by decide)

end FlowLint
