import FlowLint.CommandLine
import FlowLint.Proofs.Diagnostic.Output

/-!
Runs on several inputs against runs on each alone. As long as the standard input is named once, no
input changes what another one holds, so a run either puts the single reports together or is about
the first input that cannot be read.
-/

namespace FlowLint

open Json Text

/-! ### Verdicts -/

section

variable [Formats]

/-- The text is accepted and nothing in it is wrong. -/
def Clean (source : String) : Prop := ∃ v, parse? source.toList = .ok v ∧ documentViolations v = []

/-- Whatever a lint reports is an error. -/
theorem severity_of_mem_lint {source : String} {g : Diagnostic} (hg : g ∈ lint source) :
    g.severity = .error := by
  cases accepted : parse? source.toList with
  | error e =>
    rw [lint, document?, accepted] at hg
    rw [List.mem_singleton.1 hg]
    rfl
  | ok v =>
    obtain ⟨d, -, -, all⟩ := lint_document accepted
    obtain ⟨w, -, q, e, -, -, rfl⟩ := exists_of_forall₂ all hg
    rfl

/-- A lint reports nothing exactly if nothing is wrong. -/
theorem lint_eq_nil_iff (source : String) : lint source = [] ↔ Clean source := by
  cases accepted : parse? source.toList with
  | error e =>
    constructor
    · intro h
      rw [lint, document?, accepted] at h
      cases h
    · rintro ⟨v, parses, -⟩
      rw [accepted] at parses
      cases parses
  | ok v =>
    obtain ⟨d, -, -, all⟩ := lint_document accepted
    constructor
    · intro h
      rw [h, List.forall₂_nil_right_iff] at all
      exact ⟨v, accepted, all⟩
    · rintro ⟨w, parses, none⟩
      cases accepted.symm.trans parses
      rw [none, List.forall₂_nil_left_iff] at all
      exact all

theorem Report.hasError_ofSource (file source : String) :
    (ofSource file source).hasError = false ↔ Clean source := by
  rw [← lint_eq_nil_iff, hasError, ofSource, List.any_eq_false]
  constructor
  · intro none
    refine List.eq_nil_iff_forall_not_mem.2 fun g hg => none g hg ?_
    rw [severity_of_mem_lint hg]
    rfl
  · intro nil g hg
    rw [nil] at hg
    cases hg

end

/-- Where something fails, a list of results is the first error. -/
theorem mapM_eq_first_error {f : α → Except ε β} {xs : List α} (h : ∃ x ∈ xs, ∃ e, f x = .error e) :
    ∃ before x after e, xs = before ++ x :: after ∧ (∀ b ∈ before, ∃ y, f b = .ok y) ∧
      f x = .error e ∧ xs.mapM f = .error e := by
  induction xs with
  | nil =>
    obtain ⟨x, hx, -⟩ := h
    cases hx
  | cons x xs ih =>
    cases hx : f x with
    | error e =>
      refine ⟨[], x, xs, e, rfl, nofun, hx, ?_⟩
      rw [List.mapM_cons, hx]
      rfl
    | ok y =>
      have later : ∃ x ∈ xs, ∃ e, f x = .error e := by
        obtain ⟨x', hx', e, he⟩ := h
        rcases List.mem_cons.1 hx' with rfl | hx'
        · rw [hx] at he
          cases he
        · exact ⟨x', hx', e, he⟩
      obtain ⟨before, x', after, e, rfl, good, he, failed⟩ := ih later
      refine ⟨x :: before, x', after, e, rfl, ?_, he, ?_⟩
      · exact List.forall_mem_cons.2 ⟨⟨y, hx⟩, good⟩
      · rw [List.mapM_cons, hx, failed]
        rfl

namespace CommandLine

/-! ### Inputs -/

/-- What can be read of the inputs has a length that 64 bits can count. -/
def Inputs.Short (inputs : Inputs) (names : List String) : Prop :=
  ∀ name ∈ names, ∀ source, inputs.read name = .ok source →
    byteLength source.toList + 1 < UInt64.size

/-- The report on one input, or why there is none. -/
def Inputs.report [Formats] (inputs : Inputs) (name : String) : Except ReadError Report :=
  ((inputs.read name).mapError (⟨name, ·⟩)).map (.ofSource (shownName name))

variable {inputs : Inputs} {name : String} {names : List String}

theorem Inputs.after_file (h : name ≠ "-") : inputs.after name = inputs := if_neg h

/-- Reading an input leaves the files as they are. -/
theorem Inputs.read_after {other : String} (h : other ≠ "-") :
    (inputs.after name).read other = inputs.read other := by
  rw [Inputs.read, Inputs.read, if_neg h, if_neg h, Inputs.after]
  split <;> rfl

section

variable [Formats]

/-- The standard input is not missed where it is not named. -/
theorem reports_after (h : "-" ∉ names) :
    reports (inputs.after name) names = reports inputs names := by
  induction names with
  | nil => rfl
  | cons other names ih =>
    have file : other ≠ "-" := fun e => h (e ▸ List.mem_cons_self)
    have others := ih fun hn => h (List.mem_cons_of_mem _ hn)
    rw [reports, reports, Inputs.read_after file, Inputs.after_file file, Inputs.after_file file,
      others]

/-- With the standard input named once at most, each input is reported as if it were the only
    one. -/
theorem reports_eq_mapM (once : names.count "-" ≤ 1) :
    reports inputs names = names.mapM inputs.report := by
  induction names with
  | nil => rfl
  | cons name names ih =>
    have others : reports (inputs.after name) names = reports inputs names := by
      by_cases dash : name = "-"
      · subst dash
        rw [List.count_cons_self] at once
        exact reports_after (List.count_eq_zero.1 (by omega))
      · rw [Inputs.after_file dash]
    have fewer : names.count "-" ≤ 1 := (List.count_le_count_cons ..).trans once
    rw [reports, others, ih fewer, List.mapM_cons, Inputs.report]
    cases inputs.read name <;> rfl

/-- A run on one input. -/
theorem reports_singleton {r : Report} (h : inputs.report name = .ok r) :
    reports inputs [name] = .ok [r] := by
  rw [reports_eq_mapM (List.count_le_length.trans (by simp)), List.mapM_cons, h]
  rfl

theorem Inputs.report_eq_ok {r : Report} (h : inputs.report name = .ok r) :
    ∃ source, inputs.read name = .ok source ∧ r = .ofSource (shownName name) source := by
  rw [Inputs.report] at h
  cases read : inputs.read name with
  | error failure =>
    rw [read] at h
    cases h
  | ok source =>
    rw [read] at h
    cases h
    exact ⟨source, rfl, rfl⟩

theorem Inputs.report_eq_error {e : ReadError} (h : inputs.report name = .error e) :
    ∃ failure, inputs.read name = .error failure ∧ e = ⟨name, failure⟩ := by
  rw [Inputs.report] at h
  cases read : inputs.read name with
  | error failure =>
    rw [read] at h
    cases h
    exact ⟨failure, rfl, rfl⟩
  | ok source =>
    rw [read] at h
    cases h

/-! ### Outcomes -/

/-- The outcome of a run puts together what the inputs give when each is alone. As JSON that is one
    array: in the text, where each input alone gives one item between brackets, and in the value,
    where the item of an input tells its name and the diagnostics of its text. -/
structure Combines (format : OutputFormat) (names : List String) (inputs : Inputs) (o : Outcome) :
    Prop where
  clean  : o.code = 0 ↔ ∀ name ∈ names, ∃ source, inputs.read name = .ok source ∧ Clean source
  codes  : o.code = 0 ∨ o.code = 1
  text   : format = .text →
    o.stdout = .join (names.map fun name => (lintRun .text [name] inputs).stdout)
  json   : format = .json → ∃ items, o.stdout = bracketed items ∧
    List.Forall₂ (fun name item => (lintRun .json [name] inputs).stdout = bracketed [item])
      names items
  values : format = .json → inputs.Short names →
    ∃ items, parse? o.stdout.toList = .ok (.array items) ∧
      List.Forall₂ (fun name item =>
        parse? (lintRun .json [name] inputs).stdout.toList = .ok (.array [item]) ∧
          ∃ source, inputs.read name = .ok source ∧
            Report.ReadsBack ⟨shownName name, lint source⟩ item) names items
  silent : o.stderr = ""

end

/-- The outcome names the first input that cannot be read and says why, and it shows nothing of what
    was read before. -/
def Refuses (names : List String) (inputs : Inputs) (o : Outcome) : Prop :=
  ∃ before name after failure, names = before ++ name :: after ∧
    (∀ n ∈ before, ∃ source, inputs.read n = .ok source) ∧ inputs.read name = .error failure ∧
      o.code = 1 ∧ o.stdout = "" ∧
        o.stderr = "Error: failed to read definition " ++
          (if name = "-" then "from stdin" else "file: " ++ name) ++
            "\n\nCaused by:\n    " ++ failure.message ++ "\n"

/-- An error names its input, which for the standard input is in words. -/
theorem message_eq (name : String) (failure : ReadFailure) :
    (ReadError.mk name failure).message = "Error: failed to read definition " ++
      (if name = "-" then "from stdin" else "file: " ++ name) ++
        "\n\nCaused by:\n    " ++ failure.message ++ "\n" := by
  rw [ReadError.message, ← String.toList_inj]
  dsimp only
  split <;> simp [toString]

/-- Without files the standard input is meant, so something is read in any case. -/
theorem ne_nil_of_request? {args : List String} {format : OutputFormat}
    (asked : request? args = some (.lint format names)) : names ≠ [] := by
  rintro rfl
  obtain ⟨request, -, meant⟩ := Option.map_eq_some_iff.1 asked
  split at meant
  · cases meant
  next none => exact none _ meant

theorem textOutput_eq_join (rs : List Report) :
    textOutput rs = .join (rs.map fun r => textOutput [r]) := by
  induction rs with
  | nil => rfl
  | cons r rs ih =>
    rw [List.map_cons, String.join_cons, ← ih]
    simp [textOutput, String.join_append]

section

variable [Formats]

theorem lintRun_stdout {format : OutputFormat} {r : Report} (h : inputs.report name = .ok r) :
    (lintRun format [name] inputs).stdout = output format [r] := by
  rw [lintRun, reports_singleton h]

/-- A report holds no error exactly if its input is clean. -/
theorem hasError_iff {r : Report} (h : inputs.report name = .ok r) :
    r.hasError = false ↔ ∃ source, inputs.read name = .ok source ∧ Clean source := by
  obtain ⟨source, read, rfl⟩ := Inputs.report_eq_ok h
  rw [Report.hasError_ofSource]
  constructor
  · intro clean
    exact ⟨source, read, clean⟩
  · rintro ⟨other, same, clean⟩
    cases read.symm.trans same
    exact clean

theorem any_hasError_iff {rs : List Report}
    (h : List.Forall₂ (fun name r => inputs.report name = .ok r) names rs) :
    rs.any Report.hasError = false ↔
      ∀ name ∈ names, ∃ source, inputs.read name = .ok source ∧ Clean source := by
  induction h with
  | nil => simp
  | cons report _ ih =>
    rw [List.any_cons, Bool.or_eq_false_iff, List.forall_mem_cons, ih, hasError_iff report]

/-- As JSON the texts of the reports stand in one array. -/
theorem exists_items {rs : List Report}
    (h : List.Forall₂ (fun name r => inputs.report name = .ok r) names rs) (some : rs ≠ []) :
    ∃ items, jsonOutput rs = bracketed items ∧
      List.Forall₂ (fun name item => (lintRun .json [name] inputs).stdout = bracketed [item])
        names items := by
  refine ⟨_, jsonOutput_eq_bracketed some, ?_⟩
  rw [List.forall₂_map_right_iff]
  refine h.imp fun name r report => ?_
  rw [lintRun_stdout report]
  exact jsonOutput_eq_bracketed (List.cons_ne_nil r [])

/-- The report on a short input fits. -/
theorem Inputs.Short.fits {r : Report} (short : inputs.Short names) (hn : name ∈ names)
    (h : inputs.report name = .ok r) : r.Fits := by
  obtain ⟨source, read, rfl⟩ := Inputs.report_eq_ok h
  exact Report.fits_ofSource (shownName name) (short name hn source read)

/-- The array holds what is said about each input. -/
theorem exists_values {rs : List Report}
    (h : List.Forall₂ (fun name r => inputs.report name = .ok r) names rs)
    (short : inputs.Short names) :
    ∃ items, parse? (jsonOutput rs).toList = .ok (.array items) ∧
      List.Forall₂ (fun name item =>
        parse? (lintRun .json [name] inputs).stdout.toList = .ok (.array [item]) ∧
          ∃ source, inputs.read name = .ok source ∧
            Report.ReadsBack ⟨shownName name, lint source⟩ item) names items := by
  have each : List.Forall₂ (fun name r => name ∈ names ∧ inputs.report name = .ok r) names rs :=
    (List.forall₂_and_left names rs).2 ⟨fun _ hn => hn, h⟩
  have fits : ∀ r ∈ rs, r.Fits := by
    intro r hr
    obtain ⟨name, hn, -, report⟩ := exists_of_forall₂ each hr
    exact short.fits hn report
  refine ⟨_, parse?_jsonOutput fits, ?_⟩
  rw [List.forall₂_map_right_iff]
  refine each.imp fun name r ⟨hn, report⟩ => ⟨?_, ?_⟩
  · rw [lintRun_stdout report]
    exact parse?_jsonOutput (List.forall_mem_singleton.2 (short.fits hn report))
  · obtain ⟨source, read, rfl⟩ := Inputs.report_eq_ok report
    exact ⟨source, read, Report.readsBack_json _⟩

/-- Where all is read, the single reports are put together. -/
theorem combines_lintRun (format : OutputFormat) (some : names ≠ []) (once : names.count "-" ≤ 1)
    (readable : ∀ name ∈ names, ∃ source, inputs.read name = .ok source) :
    Combines format names inputs (lintRun format names inputs) := by
  have reported : ∀ name ∈ names, ∃ r, inputs.report name = .ok r := by
    intro name hn
    obtain ⟨source, read⟩ := readable name hn
    exact ⟨_, by rw [Inputs.report, read]; rfl⟩
  obtain ⟨rs, all, each⟩ := mapM_eq_ok_of_forall reported
  rw [← reports_eq_mapM once] at all
  have outcome : lintRun format names inputs =
      ⟨if rs.any Report.hasError then 1 else 0, output format rs, ""⟩ := by rw [lintRun, all]
  rw [outcome]
  refine ⟨?_, ?_, ?_, ?_, ?_, rfl⟩
  · rw [← any_hasError_iff each]
    cases rs.any Report.hasError <;> simp
  · cases rs.any Report.hasError <;> simp
  · rintro rfl
    have single : names.map (fun name => (lintRun .text [name] inputs).stdout) =
        rs.map fun r => textOutput [r] := by
      rw [← List.forall₂_eq_eq_eq, List.forall₂_map_left_iff, List.forall₂_map_right_iff]
      exact each.imp fun name r report => lintRun_stdout report
    rw [single]
    exact textOutput_eq_join rs
  · rintro rfl
    have reports : rs ≠ [] := fun nil => some (List.forall₂_nil_right_iff.1 (nil ▸ each))
    exact exists_items each reports
  · rintro rfl
    exact exists_values each

/-- Where something cannot be read, nothing is shown of what was read before. -/
theorem refuses_lintRun (format : OutputFormat) (once : names.count "-" ≤ 1)
    (unreadable : ∃ name ∈ names, ∃ failure, inputs.read name = .error failure) :
    Refuses names inputs (lintRun format names inputs) := by
  have failing : ∃ name ∈ names, ∃ e, inputs.report name = .error e := by
    obtain ⟨name, hn, failure, read⟩ := unreadable
    exact ⟨name, hn, _, by rw [Inputs.report, read]; rfl⟩
  obtain ⟨before, name, after, e, cut, good, failed, first⟩ := mapM_eq_first_error failing
  rw [← reports_eq_mapM once] at first
  obtain ⟨failure, read, rfl⟩ := Inputs.report_eq_error failed
  have outcome : lintRun format names inputs = ⟨1, "", (ReadError.mk name failure).message⟩ := by
    rw [lintRun, first]
  rw [outcome]
  refine ⟨before, name, after, failure, cut, fun n hn => ?_, read, rfl, rfl, ?_⟩
  · obtain ⟨r, report⟩ := good n hn
    obtain ⟨source, read, -⟩ := Inputs.report_eq_ok report
    exact ⟨source, read⟩
  · exact message_eq name failure

/-- A run on inputs that can all be read puts together what each gives alone: it succeeds exactly if
    each is accepted and has nothing wrong in it, and shows one after the other. Otherwise it shows
    nothing, and names the first that cannot be read. -/
theorem run_lints {args : List String} {format : OutputFormat} {names : List String}
    (asked : request? args = some (.lint format names)) (once : names.count "-" ≤ 1)
    (inputs : Inputs) :
    ((∀ name ∈ names, ∃ source, inputs.read name = .ok source) →
        Combines format names inputs (run args inputs)) ∧
      ((∃ name ∈ names, ∃ failure, inputs.read name = .error failure) →
        Refuses names inputs (run args inputs)) := by
  have ran : run args inputs = lintRun format names inputs := by rw [run, asked]
  rw [ran]
  exact ⟨combines_lintRun format (ne_nil_of_request? asked) once, refuses_lintRun format once⟩

end

/-- One file that is JSON, and standard input that is not. -/
def fileAndDash : Inputs where
  file name     := if name = "a.json" then .ok "\x7b\x7d".toUTF8 else .error .missing
  standardInput := "[".toUTF8

theorem run_lints_fileAndDash :
    Combines .json ["a.json", "-"] fileAndDash
        (run ["--format", "json", "a.json", "-"] fileAndDash) ∧
      Refuses ["-", "b.json", "a.json"] fileAndDash
        (run ["-", "b.json", "a.json"] fileAndDash) := by
  have two : request? ["--format", "json", "a.json", "-"] = some (.lint .json ["a.json", "-"]) := by
    decide
  have three : request? ["-", "b.json", "a.json"] =
      some (.lint .text ["-", "b.json", "a.json"]) := by decide
  have unreadable : fileAndDash.read "b.json" = .error .missing := rfl
  refine ⟨(run_lints two (by decide) fileAndDash).1 ?_,
    (run_lints three (by decide) fileAndDash).2 ⟨"b.json", by decide, .missing, unreadable⟩⟩
  intro name hn
  obtain rfl | rfl : name = "a.json" ∨ name = "-" := by simpa using hn
  · exact ⟨"\x7b\x7d", rfl⟩
  · exact ⟨"[", rfl⟩

end CommandLine

end FlowLint
