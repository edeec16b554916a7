import FlowLint.Diagnostic.Lint
import FlowLint.Format.Standard
import FlowLint.Proofs.Json.Faults
import FlowLint.Proofs.Text.Reader

/-!
Where a text is reported that is no JSON. The reader gives up at a byte, and the diagnostic stands
at that byte and shows its line; only where the byte is a line feed does it stand one byte further
on, at the start of the next line, and shows that.
-/

namespace FlowLint

open Json Text

/-- The diagnostic stands at a byte of the text and shows the line of that byte. -/
structure Diagnostic.PointsAt (text : List Char) (offset : Nat) (g : Diagnostic) : Prop where
  line   : g.line = some (position text offset).line
  column : g.column = some (position text offset).column
  source : g.source = .ofList (lineText text (position text offset).line)

/-- What was read up to a fault ends with a byte of the text. -/
theorem Json.Fault.Within.exists_last {text : List Char} {f : Fault} (h : f.Within text)
    (ascii : Ascii text) (notEnd : f.cause.isEnd = false) :
    ∃ before c after, text = before ++ c :: after ∧ f.taken text = byteLength before + 1 := by
  obtain ⟨there, some⟩ := h.read notEnd
  have shorter := byteLength_le_of_suffix h.left
  obtain ⟨o, ho⟩ : ∃ o, f.taken text = o + 1 := by
    refine Nat.exists_eq_add_one_of_ne_zero ?_
    rw [Fault.taken]
    omega
  have inside : o < text.length := by
    rw [← ascii.byteLength_eq]
    rw [Fault.taken] at ho
    omega
  have before : Ascii (text.take o) := fun c hc => ascii c (List.mem_of_mem_take hc)
  refine ⟨text.take o, text[o], text.drop (o + 1), by simp, ?_⟩
  rw [ho, before.byteLength_eq, List.length_take, Nat.min_eq_left (Nat.le_of_lt inside)]

section

variable {before : List Char} {c : Char} (after : List Char) (message : String)

theorem position_cut_pos (hb : Ascii before) (c : Char) :
    1 ≤ (position (before ++ c :: after) (byteLength before)).line ∧
      1 ≤ (position (before ++ c :: after) (byteLength before)).column := by
  rw [position_append, foldl_next_eq hb]
  exact ⟨Nat.le_add_right .., Nat.le_add_left ..⟩

/-- A reader that has just taken a byte is reported at that byte, if it is no line feed. -/
theorem pointsAt_malformed (h : Ascii (before ++ [c])) (plain : c ≠ '\n') :
    (Diagnostic.malformed (before ++ c :: after) message
        (readerPosition (before ++ c :: after) (byteLength before + 1))).PointsAt
      (before ++ c :: after) (byteLength before) := by
  obtain ⟨line, column⟩ := position_cut_pos after (List.forall_mem_append.1 h).1 c
  rw [readerPosition_eq h after rfl, if_neg plain]
  refine ⟨?_, ?_, ?_⟩
  · simp [Diagnostic.malformed, Nat.max_eq_left line]
  · simp [Diagnostic.malformed, Nat.max_eq_left column]
  · simp [Diagnostic.malformed, Nat.max_eq_left line]

/-- After a line feed the report is of the byte that follows. -/
theorem pointsAt_malformed_feed (h : Ascii (before ++ ['\n'])) :
    (Diagnostic.malformed (before ++ '\n' :: after) message
        (readerPosition (before ++ '\n' :: after) (byteLength before + 1))).PointsAt
      (before ++ '\n' :: after) (byteLength before + 1) := by
  have next : position (before ++ '\n' :: after) (byteLength before + 1) =
      ⟨(position (before ++ '\n' :: after) (byteLength before)).line + 1, 1⟩ := by
    have text : before ++ '\n' :: after = (before ++ ['\n']) ++ after := by simp
    have taken : byteLength before + 1 = byteLength (before ++ ['\n']) := by simp; rfl
    rw [position_append, taken, text, position_append, List.foldl_append]
    rfl
  rw [readerPosition_eq h after rfl, if_pos rfl]
  refine ⟨?_, ?_, ?_⟩ <;> rw [next] <;> simp [Diagnostic.malformed]

/-- One line further down is not at the line feed. -/
theorem not_pointsAt_malformed_feed (h : Ascii (before ++ ['\n'])) :
    ¬ (Diagnostic.malformed (before ++ '\n' :: after) message
        (readerPosition (before ++ '\n' :: after) (byteLength before + 1))).PointsAt
      (before ++ '\n' :: after) (byteLength before) := by
  rintro ⟨line, -, -⟩
  rw [readerPosition_eq h after rfl, if_pos rfl] at line
  simp [Diagnostic.malformed] at line

end

/-- A text in ASCII that is not accepted because of a byte gives one diagnostic. That stands at the
    byte and shows the line in which it is, exactly if it is no line feed; at a line feed it stands
    one byte further on. -/
theorem lint_points [Formats] {source : String} {f : Fault} (ascii : Ascii source.toList)
    (rejected : tree? source.toList = .error f) (notEnd : f.cause.isEnd = false) :
    ∃ before c after g, source.toList = before ++ c :: after ∧
      f.taken source.toList = byteLength before + 1 ∧ lint source = [g] ∧
      (g.PointsAt source.toList (byteLength before) ↔ c ≠ '\n') ∧
      (c = '\n' → g.PointsAt source.toList (byteLength before + 1)) ∧
      (¬ EndsLine c after → ∃ k, g.column = some (k + 1) ∧ g.source.toList[k]? = some c) := by
  obtain ⟨before, c, after, cut, taken⟩ := (within_of_tree? rejected).exists_last ascii notEnd
  have reported : lint source = [.malformed source.toList f.cause.message
      (readerPosition source.toList (byteLength before + 1))] := by
    rw [lint, document?, parse?, rejected, ← taken]
    rfl
  have upTo : Ascii (before ++ [c]) := by
    intro d hd
    refine ascii d (cut ▸ ?_)
    rw [List.append_cons]
    exact List.mem_append_left _ hd
  refine ⟨before, c, after, _, cut, taken, reported, ?_⟩
  rw [cut]
  refine ⟨⟨?_, pointsAt_malformed after _ upTo⟩, ?_, fun ends => ?_⟩
  · rintro points rfl
    exact not_pointsAt_malformed_feed after _ upTo points
  · rintro rfl
    exact pointsAt_malformed_feed after _ upTo
  · have plain : c ≠ '\n' := fun feed => ends (.inl feed)
    obtain ⟨line, column, shown⟩ := pointsAt_malformed after f.cause.message upTo plain
    obtain ⟨-, char⟩ := lineText_position ends before rfl
    have pos := (position_cut_pos after (List.forall_mem_append.1 upTo).1 c).2
    refine ⟨_, column.trans (congrArg some (Nat.sub_add_cancel pos).symm), ?_⟩
    rw [shown, String.toList_ofList]
    exact char

/-- A misspelled word in the second line, noticed at its third letter. -/
def misspelled : String := "\x7b\n \"a\": [1, trve]\x7d"

theorem lint_points_misspelled :
    Ascii misspelled.toList ∧
      tree? misspelled.toList = .error (.onNext .expectedKeyword "ve]\x7d".toList) ∧
      ∃ before c after g, misspelled.toList = before ++ c :: after ∧
        (Fault.onNext .expectedKeyword "ve]\x7d".toList).taken misspelled.toList =
          byteLength before + 1 ∧
        lint misspelled = [g] ∧ (g.PointsAt misspelled.toList (byteLength before) ↔ c ≠ '\n') ∧
        (c = '\n' → g.PointsAt misspelled.toList (byteLength before + 1)) ∧
        (¬ EndsLine c after → ∃ k, g.column = some (k + 1) ∧ g.source.toList[k]? = some c) := by
  have ascii : Ascii misspelled.toList := by decide
  have rejected : tree? misspelled.toList =
      .error (.onNext .expectedKeyword "ve]\x7d".toList) := by decide +kernel
  exact ⟨ascii, rejected, lint_points ascii rejected rfl⟩

/-- A literal that is still open at the end of its line. -/
def openLiteral : String := "\x7b\"a\": \"b\n\x7d"

/-- The byte at fault is the line feed, the ninth byte of the first line; reported is the brace in
    the second. -/
theorem lint_openLiteral_points_past :
    Ascii openLiteral.toList ∧
      tree? openLiteral.toList = .error (.onNext .controlCharacter "\n\x7d".toList) ∧
      (Fault.onNext .controlCharacter "\n\x7d".toList).taken openLiteral.toList = 8 + 1 ∧
      position openLiteral.toList 8 = ⟨1, 9⟩ ∧
      (lint openLiteral).map (fun g => (g.line, g.column, g.source)) =
        [(some 2, some 1, "\x7d")] ∧
      ∀ g ∈ lint openLiteral, ¬ g.PointsAt openLiteral.toList 8 := by
  have rejected : tree? openLiteral.toList =
      .error (.onNext .controlCharacter "\n\x7d".toList) := by decide +kernel
  have reported : lint openLiteral = [.malformed openLiteral.toList
      SyntaxCause.controlCharacter.message ⟨2, 0⟩] := by
    rw [lint, document?, parse?, rejected]
    rfl
  refine ⟨by decide, rejected, by decide, by decide, by rw [reported]; rfl,
    fun g hg points => ?_⟩
  rw [reported, List.mem_singleton] at hg
  have line := points.line
  rw [hg] at line
  revert line
  decide

end FlowLint
