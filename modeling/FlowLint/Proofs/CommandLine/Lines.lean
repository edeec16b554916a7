import FlowLint.Proofs.CommandLine.Runs
import FlowLint.Proofs.Machine.Names
import FlowLint.Proofs.Text.Lines
import Mathlib.Algebra.Order.BigOperators.Group.List

/-!
The lines of the output as text. Each diagnostic takes a line, and one more for each line feed in a
name that its message repeats, as names are repeated as they are. Names come from the grammar and
from the members of documents, so nothing else that a document holds can add a line.
-/

namespace FlowLint

open Json Text

/-! ### Reports -/

theorem textOutput_eq_ended (rs : List Report) :
    (textOutput rs).toList = ended ((rs.flatMap Report.lines).map String.toList) := by
  rw [textOutput, String.toList_join, ended, List.flatMap_map, List.flatMap_map]
  exact congrArg (List.flatMap · _) (funext fun s => String.toList_append)

namespace Report

variable {file source : String}

theorem feeds_row {g : Diagnostic} (hf : OneLine file) (code : OneLine g.code) :
    feeds s!"{file}:{g.text}" = feeds g.message := by
  obtain ⟨s, plain, -, text⟩ := g.text_eq code
  have colon : OneLine ":" := by decide
  simp only [toString, text, feeds_append, feeds_of_oneLine hf, feeds_of_oneLine colon,
    feeds_of_oneLine plain, Nat.zero_add]

theorem closed_row {g : Diagnostic} (code : OneLine g.code) (closed : Closed g.message) :
    Closed s!"{file}:{g.text}" := by
  obtain ⟨s, -, hs, text⟩ := g.text_eq code
  have before : Closed (file ++ ":") := closed_append_right file (by decide) (by decide)
  rw [text]
  exact closed_append before (closed_append hs closed)

variable [Formats]

/-- The lines of a report have the line feeds of the names that its diagnostics repeat. -/
theorem sum_feeds_lines (hf : OneLine file) (source : String) :
    ((ofSource file source).lines.map feeds).sum = ((repeatedNames source).map feeds).sum := by
  rw [← sum_feeds_lint, lines, List.map_map]
  refine congrArg List.sum (List.map_congr_left fun g hg => ?_)
  exact feeds_row hf (closed_lint hg).1

theorem closed_lines {row : String} (h : row ∈ (ofSource file source).lines) : Closed row := by
  obtain ⟨g, hg, rfl⟩ := List.mem_map.1 h
  obtain ⟨code, closed⟩ := closed_lint hg
  exact closed_row code closed

end Report

/-- A document without line feeds in the names of its members has none in a name that is
    repeated. -/
theorem oneLine_repeatedNames [Formats] {source : String}
    (h : ∀ v, parse? source.toList = .ok v → v.Named OneLine) :
    ∀ name ∈ repeatedNames source, OneLine name := by
  intro name hn
  rw [repeatedNames] at hn
  cases parsed : parse? source.toList with
  | error e =>
    rw [document?, parsed] at hn
    cases hn
  | ok v =>
    rw [document?, parsed] at hn
    obtain ⟨w, hw, hn⟩ := List.mem_flatMap.1 hn
    have known : ∀ word ∈ Machine.words, OneLine word := by decide
    exact named_documentViolations known oneLine_nat (h v parsed) w hw name hn

namespace CommandLine

/-! ### Inputs -/

/-- The texts that a run reads. Where the standard input is named again, there is nothing left
    of it. -/
def Inputs.texts (inputs : Inputs) : List String → Except ReadFailure (List String)
  | []            => .ok []
  | name :: names => do
    let source ← inputs.read name
    let rest ← (inputs.after name).texts names
    return source :: rest

/-- Reading an input takes no other away. -/
theorem Inputs.readable_after {inputs : Inputs} {other : String} (name : String)
    (h : ∃ source, inputs.read other = .ok source) :
    ∃ source, (inputs.after name).read other = .ok source := by
  by_cases dash : other = "-"
  · subst dash
    by_cases same : name = "-"
    · subst same
      exact ⟨"", rfl⟩
    · rwa [Inputs.after_file same]
  · rwa [Inputs.read_after dash]

/-- Where each input can be read, so can all of them, and each gives the report on its text. -/
theorem exists_texts [Formats] {names : List String} : ∀ {inputs : Inputs},
    (∀ name ∈ names, ∃ source, inputs.read name = .ok source) →
      ∃ sources, inputs.texts names = .ok sources ∧ sources.length = names.length ∧
        reports inputs names = .ok ((names.zip sources).map fun x =>
          .ofSource (shownName x.1) x.2) := by
  induction names with
  | nil => exact fun _ => ⟨[], rfl, rfl, rfl⟩
  | cons name names ih =>
    intro inputs readable
    obtain ⟨⟨source, read⟩, others⟩ := List.forall_mem_cons.1 readable
    obtain ⟨sources, texts, length, reported⟩ :=
      ih fun other ho => Inputs.readable_after name (others other ho)
    refine ⟨source :: sources, ?_, congrArg Nat.succ length, ?_⟩
    · rw [Inputs.texts, read, texts]
      rfl
    · rw [reports, read, reported]
      rfl

theorem oneLine_shownName {name : String} (h : OneLine name) : OneLine (shownName name) := by
  rw [shownName]
  split
  · decide
  · exact h

/-! ### Output -/

section

variable [Formats]

/-- A row for each diagnostic of each input. -/
def rows (names sources : List String) : List String :=
  (names.zip sources).flatMap fun x => (lint x.2).map fun g => s!"{shownName x.1}:{g.text}"

/-- The output is a row for each diagnostic. The lines are more by the line feeds in the names that
    messages repeat; they are the rows if there are none, as where no document has one in the name
    of a member. -/
structure ShowsRows (names sources : List String) (out : List Char) : Prop where
  written : out = ended ((rows names sources).map String.toList)
  length : (rows names sources).length = (sources.flatMap lint).length
  count : (lines out).length = (sources.flatMap lint).length +
    ((sources.flatMap repeatedNames).map feeds).sum
  lines : (∀ name ∈ sources.flatMap repeatedNames, OneLine name) →
    lines out = (rows names sources).map String.toList
  plain : (∀ source ∈ sources, ∀ v, parse? source.toList = .ok v → v.Named OneLine) →
    ∀ name ∈ sources.flatMap repeatedNames, OneLine name

section

variable {names sources : List String}

theorem rows_eq_flatMap_lines : rows names sources =
    ((names.zip sources).map fun x => Report.ofSource (shownName x.1) x.2).flatMap
      Report.lines := by
  rw [List.flatMap_map]
  rfl

theorem length_rows (same : sources.length = names.length) :
    (rows names sources).length = (sources.flatMap lint).length := by
  have texts : sources = (names.zip sources).map Prod.snd :=
    (List.map_snd_zip (Nat.le_of_eq same)).symm
  conv_rhs => rw [texts]
  simp only [rows, List.flatMap_map, List.length_flatMap, List.length_map]

/-- The rows have the line feeds of the names that messages repeat. -/
theorem sum_feeds_rows (same : sources.length = names.length)
    (plain : ∀ name ∈ names, OneLine name) :
    ((rows names sources).map feeds).sum = ((sources.flatMap repeatedNames).map feeds).sum := by
  have texts : sources = (names.zip sources).map Prod.snd :=
    (List.map_snd_zip (Nat.le_of_eq same)).symm
  have inputs : ∀ x ∈ names.zip sources, OneLine x.1 := fun x hx =>
    plain x.1 (List.of_mem_zip hx).1
  conv_rhs => rw [texts, List.flatMap_map]
  rw [rows_eq_flatMap_lines, List.flatMap_map]
  generalize names.zip sources = pairs at inputs
  induction pairs with
  | nil => rfl
  | cons x pairs ih =>
    obtain ⟨first, others⟩ := List.forall_mem_cons.1 inputs
    rw [List.flatMap_cons, List.flatMap_cons, List.map_append, List.map_append, List.sum_append,
      List.sum_append, Report.sum_feeds_lines (oneLine_shownName first), ih others]

theorem closed_rows : ∀ row ∈ rows names sources, Closed row := by
  intro row hrow
  rw [rows_eq_flatMap_lines] at hrow
  obtain ⟨r, hr, hrow⟩ := List.mem_flatMap.1 hrow
  obtain ⟨x, -, rfl⟩ := List.mem_map.1 hr
  exact Report.closed_lines hrow

end

/-- A run on inputs that can all be read, with names of one line, shows a row for each diagnostic,
    and only names that messages repeat can make more than a line of a row. -/
theorem run_showsRows {args names : List String}
    (asked : request? args = some (.lint .text names)) {inputs : Inputs}
    (readable : ∀ name ∈ names, ∃ source, inputs.read name = .ok source)
    (plain : ∀ name ∈ names, OneLine name) :
    ∃ sources, inputs.texts names = .ok sources ∧ sources.length = names.length ∧
      ShowsRows names sources (run args inputs).stdout.toList := by
  obtain ⟨sources, texts, same, reported⟩ := exists_texts readable
  have out : (run args inputs).stdout.toList = ended ((rows names sources).map String.toList) := by
    rw [run, asked]
    simp only [lintRun, reported]
    rw [rows_eq_flatMap_lines]
    exact textOutput_eq_ended _
  refine ⟨sources, texts, same, out, length_rows same, ?_, fun oneLine => ?_, fun named => ?_⟩
  · rw [out, length_lines_ended, List.length_map, length_rows same, List.map_map]
    exact congrArg _ (sum_feeds_rows same plain)
  · have none : ((rows names sources).map feeds).sum = 0 := by
      rw [sum_feeds_rows same plain, List.sum_eq_zero_iff, List.forall_mem_map]
      exact fun name hn => feeds_of_oneLine (oneLine name hn)
    rw [List.sum_eq_zero_iff, List.forall_mem_map] at none
    rw [out, lines_ended]
    · exact List.forall_mem_map.2 fun row hrow => feeds_eq_zero_iff.1 (none row hrow)
    · exact List.forall_mem_map.2 closed_rows
  · intro name hn
    obtain ⟨source, hs, hn⟩ := List.mem_flatMap.1 hn
    exact oneLine_repeatedNames (named source hs) name hn

end

theorem run_showsRows_fileAndDash :
    request? ["a.json", "-"] = some (.lint .text ["a.json", "-"]) ∧
      ∃ sources, fileAndDash.texts ["a.json", "-"] = .ok sources ∧ sources.length = 2 ∧
        ShowsRows ["a.json", "-"] sources (run ["a.json", "-"] fileAndDash).stdout.toList := by
  have asked : request? ["a.json", "-"] = some (.lint .text ["a.json", "-"]) := by decide
  have readable : ∀ name ∈ ["a.json", "-"], ∃ source, fileAndDash.read name = .ok source :=
    List.forall_mem_cons.2 ⟨⟨"\x7b\x7d", rfl⟩, List.forall_mem_singleton.2 ⟨"[", rfl⟩⟩
  exact ⟨asked, run_showsRows asked readable (by decide)⟩

/-- A machine with a member that is not allowed and has a line feed in its name. -/
def brokenName : String :=
  "\x7b\"StartAt\":\"A\",\"States\":\x7b\"A\":\x7b\"Type\":\"Succeed\"\x7d\x7d,\"x\\ny\":1\x7d"

/-- Its value. -/
def brokenDocument : Json :=
  .object [("StartAt", .string "A"),
    ("States", .object [("A", .object [("Type", .string "Succeed")])]),
    ("x\ny", .number (.int 1))]

/-- Only the standard input, which holds the machine. -/
def brokenOnly : Inputs := ⟨fun _ => .error .missing, brokenName.toUTF8⟩

/-- The one diagnostic takes two lines. -/
theorem run_brokenOnly_twoLines :
    request? [] = some (.lint .text ["-"]) ∧ OneLine "-" ∧
      brokenOnly.read "-" = .ok brokenName ∧ (lint brokenName).length = 1 ∧
      lines (run [] brokenOnly).stdout.toList =
        ["<stdin>:1:50: error[V002] \"x".toList, "y\" is not allowed".toList] := by
  have parsed : parse? brokenName.toList = .ok brokenDocument := by decide +kernel
  have violated : documentViolations brokenDocument = [⟨[.key "x\ny"], .notAllowed⟩] := by
    decide +kernel
  have found : Locate.resolve brokenName.toList [.key "x\ny"] =
      .ok ⟨⟨1, 50⟩, "\"x\\ny\":1".toList⟩ := by decide +kernel
  have linted : lint brokenName =
      [.structural ⟨[.key "x\ny"], .notAllowed⟩ ⟨⟨1, 50⟩, "\"x\\ny\":1".toList⟩] := by
    rw [lint, document?, parsed]
    simp only [Except.mapError, violated, placed]
    rw [List.mapM_cons, found]
    rfl
  have asked : request? [] = some (.lint .text ["-"]) := by decide
  have read : brokenOnly.read "-" = .ok brokenName := rfl
  have reported : brokenOnly.report "-" = .ok (.ofSource "<stdin>" brokenName) := by
    rw [Inputs.report, read]
    rfl
  have out : (run [] brokenOnly).stdout =
      "<stdin>:1:50: error[V002] \"x\ny\" is not allowed\n" := by
    rw [run, asked]
    simp only [lintRun_stdout reported, output, textOutput, Report.ofSource, linted]
    rfl
  refine ⟨asked, by decide, read, by rw [linted]; rfl, ?_⟩
  rw [out]
  decide

end CommandLine

end FlowLint
