import FlowLint.Diagnostic.Encoding
import FlowLint.Report
import FlowLint.Proofs.Diagnostic.Lint
import FlowLint.Proofs.Json.Layout
import FlowLint.Proofs.Text.Reader

/-!
Reports as JSON say all there is to say: the text is accepted, and from the value that it holds each
report and each of its diagnostics can be had back. What a lint says of a text fits the numbers of
JSON as long as the bytes of the text can be counted in 64 bits.
-/

namespace FlowLint

open Json Locate Text

/-! ### Diagnostics -/

/-- The line and the column, where there are any, fit 64 bits. -/
def Diagnostic.Fits (d : Diagnostic) : Prop :=
  (∀ n ∈ d.line, n < UInt64.size) ∧ ∀ n ∈ d.column, n < UInt64.size

/-- The value of a count. -/
def Json.count (n : Nat) : Json := .number (.int n)

/-- The value that the parts of a diagnostic make up. -/
def Diagnostic.json (d : Diagnostic) : Json :=
  .object
    [("kind",     .string d.kind.name),
     ("severity", .string d.severity.name),
     ("code",     .string d.code),
     ("message",  .string d.message),
     ("source",   .string d.source),
     ("line",     orNull .count d.line),
     ("column",   orNull .count d.column),
     ("path",     orNull .string d.path)]

theorem DiagnosticKind.ofName?_name (k : DiagnosticKind) : ofName? k.name = some k := by
  cases k <;> decide

theorem Severity.ofName?_name (s : Severity) : ofName? s.name = some s := by cases s <;> decide

namespace Diagnostic

theorem count?_orNull (o : Option Nat) : count? (orNull .count o) = some o := by
  cases o with
  | none => rfl
  | some n => simp [orNull, Json.count, count?]

theorem text?_orNull (o : Option String) : text? (orNull .string o) = some o := by cases o <;> rfl

/-- The value of a diagnostic stands for that diagnostic and no other. -/
theorem ofJson?_json (d : Diagnostic) : ofJson? d.json = some d := by
  have known {ms : List (String × Json)} (h : ∀ m ∈ ms, m.1 ∈ partNames) :
      ms.filter (fun m => partNames.contains m.1) = ms := by
    rw [List.filter_eq_self]
    simpa using h
  rw [json, ofJson?, ofMembers?, known (by simp [partNames]), guard, if_pos (by simp)]
  simp [lookup_cons_ite, ofParts?, name?, DiagnosticKind.ofName?_name, Severity.ofName?_name,
    count?_orNull, text?_orNull]

/-- It names no part twice. -/
theorem noRepeats_json (d : Diagnostic) : d.json.NoRepeats := by
  refine .object (by simp) ?_
  have count : ∀ o, (orNull Json.count o).NoRepeats := noRepeats_orNull fun n => .number (.int n)
  have text : ∀ o, (orNull Json.string o).NoRepeats := noRepeats_orNull .string
  simp [count, text, NoRepeats.string]

/-- A diagnostic is laid out as its value. -/
theorem writes_layout {d : Diagnostic} (h : d.Fits) : Layout.Writes 1 d.layout d.json := by
  have count {o : Option Nat} (fits : ∀ n ∈ o, n < UInt64.size) :
      Layout.Writes 0 (.orNull .count o) (orNull .count o) :=
    Layout.writes_orNull fun n hn => Layout.writes_count (Nat.le_of_lt_succ (fits n hn))
  have path : Layout.Writes 0 (.orNull .text d.path) (orNull .string d.path) :=
    Layout.writes_orNull fun s _ => Layout.writes_text s
  exact Layout.writes_object <|
    .cons ⟨rfl, Layout.writes_text _⟩ <| .cons ⟨rfl, Layout.writes_text _⟩ <|
    .cons ⟨rfl, Layout.writes_text _⟩ <| .cons ⟨rfl, Layout.writes_text _⟩ <|
    .cons ⟨rfl, Layout.writes_text _⟩ <| .cons ⟨rfl, count h.1⟩ <| .cons ⟨rfl, count h.2⟩ <|
    .cons ⟨rfl, path⟩ .nil

end Diagnostic

/-! ### Reports -/

namespace Report

/-- The value of a report. -/
def json (r : Report) : Json :=
  .object [("file", .string r.file), ("diagnostics", .array (r.diagnostics.map Diagnostic.json))]

/-- All lines and columns of a report fit 64 bits. -/
def Fits (r : Report) : Prop := ∀ d ∈ r.diagnostics, d.Fits

/-- The value tells the file and each diagnostic of the report. -/
structure ReadsBack (r : Report) (v : Json) : Prop where
  file        : v.get? "file" = some (.string r.file)
  diagnostics : ∃ ds, v.get? "diagnostics" = some (.array ds) ∧
    List.Forall₂ (fun d w => Diagnostic.ofJson? w = some d) r.diagnostics ds

theorem readsBack_json (r : Report) : r.ReadsBack r.json where
  file        := rfl
  diagnostics := by
    refine ⟨r.diagnostics.map Diagnostic.json, rfl, ?_⟩
    rw [List.forall₂_map_right_iff, List.forall₂_same]
    exact fun d _ => d.ofJson?_json

theorem noRepeats_json (r : Report) : r.json.NoRepeats := by
  have diagnostics := noRepeats_array_map Diagnostic.noRepeats_json r.diagnostics
  exact .object (by simp) (by simp [diagnostics, NoRepeats.string])

theorem writes_layout {r : Report} (h : r.Fits) : Layout.Writes 3 r.layout r.json := by
  have diagnostics := Layout.writes_array_map fun d hd => Diagnostic.writes_layout (h d hd)
  exact Layout.writes_object <|
    .cons ⟨rfl, Layout.writes_text _⟩ <| .cons ⟨rfl, diagnostics⟩ .nil

end Report

/-- The output as JSON is accepted, as the values of the reports. -/
theorem parse?_jsonOutput {rs : List Report} (h : ∀ r ∈ rs, r.Fits) :
    parse? (jsonOutput rs).toList = .ok (.array (rs.map Report.json)) := by
  have laid := Layout.writes_array_map fun r hr => Report.writes_layout (h r hr)
  have distinct := noRepeats_array_map Report.noRepeats_json rs
  rw [jsonOutput, String.toList_ofList]
  exact laid.parses (by decide) distinct

/-- The output as JSON is accepted, and it holds a value for each report, in order, from which the
    report can be read back. -/
theorem jsonOutput_reads_back {rs : List Report} (h : ∀ r ∈ rs, r.Fits) :
    ∃ items, parse? (jsonOutput rs).toList = .ok (.array items) ∧
      List.Forall₂ Report.ReadsBack rs items := by
  refine ⟨rs.map Report.json, parse?_jsonOutput h, ?_⟩
  rw [List.forall₂_map_right_iff, List.forall₂_same]
  exact fun r _ => r.readsBack_json

/-- Reports with a name that has to be escaped, with a text of several lines, with the largest
    column and without diagnostics. -/
def oddReports : List Report :=
  [⟨"a\"b\\c\x01.json",
    [⟨.malformed, .error, "S001", "é\x7f\u2028", "\t\x7b\r\n\x7d\x00", some 0,
        some 0xFFFFFFFFFFFFFFFF, none⟩,
     ⟨.internal, .warning, "", "", "", none, none, some "States.A/B"⟩]⟩,
   ⟨"<stdin>", []⟩]

theorem jsonOutput_reads_back_oddReports : (∀ r ∈ oddReports, r.Fits) ∧
    ∃ items, parse? (jsonOutput oddReports).toList = .ok (.array items) ∧
      List.Forall₂ Report.ReadsBack oddReports items := by
  have fits : ∀ r ∈ oddReports, r.Fits := by simp [oddReports, Report.Fits, Diagnostic.Fits]
  exact ⟨fits, jsonOutput_reads_back fits⟩

/-- Items between brackets, one to a line. -/
def bracketed (items : List String) : String := "[\n  " ++ ",\n  ".intercalate items ++ "\n]\n"

/-- Some reports as JSON are the texts of the reports between brackets. -/
theorem jsonOutput_eq_bracketed {rs : List Report} (some : rs ≠ []) :
    jsonOutput rs = bracketed (rs.map fun r => .ofList (r.layout 1)) := by
  rw [← String.toList_inj, jsonOutput, bracketed, String.toList_ofList]
  simp only [String.toList_append, String.toList_intercalate, List.map_map]
  rw [Layout.array, Layout.container, if_neg (by simpa using some)]
  simp [Layout.newline, Function.comp_def]

/-! ### Reports on texts -/

/-- A place that is no further on than the count of bytes allows fits. -/
theorem Diagnostic.fits_of_le {d : Diagnostic} {line column size : Nat}
    (hl : d.line = some line) (hc : d.column = some column) (short : size + 1 < UInt64.size)
    (h : line ≤ size + 1 ∧ column ≤ size + 1) : d.Fits := by
  rw [Fits, hl, hc]
  constructor <;> rintro n ⟨⟩ <;> omega

section

variable [Formats] {source : String}

/-- A lint names no line and no column that is higher than the count of bytes allows. -/
theorem fits_of_mem_lint (short : byteLength source.toList + 1 < UInt64.size) {g : Diagnostic}
    (hg : g ∈ lint source) : g.Fits := by
  cases accepted : parse? source.toList with
  | error e =>
    rw [lint, document?, accepted] at hg
    rw [List.mem_singleton.1 hg]
    rw [parse?] at accepted
    split at accepted
    · cases accepted
    next f rejected =>
      cases accepted
      have taken : f.taken source.toList ≤ byteLength source.toList := Nat.min_le_left ..
      obtain ⟨line, column⟩ := readerPosition_le taken
      have above : 1 ≤ byteLength source.toList + 1 := Nat.le_add_left ..
      exact Diagnostic.fits_of_le rfl rfl short
        ⟨Nat.max_le.2 ⟨line, above⟩, Nat.max_le.2 ⟨Nat.le_succ_of_le column, above⟩⟩
  | ok v =>
    obtain ⟨d, text, -, all⟩ := lint_document accepted
    obtain ⟨w, -, q, e, -, leads, rfl⟩ := exists_of_forall₂ all hg
    refine Diagnostic.fits_of_le rfl rfl short ?_
    rw [← text, Document.located]
    split
    · exact ⟨Nat.le_add_left .., Nat.le_add_left ..⟩
    · exact position_le _ _

theorem Report.fits_ofSource (file : String) (short : byteLength source.toList + 1 < UInt64.size) :
    (ofSource file source).Fits := fun _ => fits_of_mem_lint short

end

end FlowLint
