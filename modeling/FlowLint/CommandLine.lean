import FlowLint.Format.Standard
import FlowLint.Report

/-!
The command line: which files to lint and how to show the result. A run is a function of the
arguments and of what can be read; nothing is shown unless all of it could be read. The program runs
by the standard formats.
-/

namespace FlowLint.CommandLine

/-! ### Arguments -/

inductive OutputFormat where
  | text | json
  deriving DecidableEq, Repr

/-- The format of that name. -/
def OutputFormat.ofName? : String → Option OutputFormat
  | "text" => some .text
  | "json" => some .json
  | _      => none

/-- What the arguments ask for. -/
inductive Request where
  | help
  | version
  | lint (format : OutputFormat) (files : List String)
  deriving DecidableEq, Repr

/-- An argument that names a file, or the standard input by a single dash. -/
def isFile (arg : String) : Bool := arg == "-" || (!arg.isEmpty && arg.toList.head? != some '-')

/-- The format in an argument that holds both the option and its value. -/
def joinedFormat? (arg : String) : Option OutputFormat :=
  if "--format=".toList.isPrefixOf arg.toList then
    OutputFormat.ofName? (.ofList (arg.toList.drop 9))
  else none

/-- The text that an argument asks to be shown in place of a run. After a single dash the first
    letter decides and what stands behind it is not read, as all letters ask for such a text. -/
def shown? (arg : String) : Option Request :=
  match arg.toList with
  | '-' :: 'h' :: _ => some .help
  | '-' :: 'V' :: _ => some .version
  | _               =>
    if arg = "--help" then some .help
    else if arg = "--version" then some .version
    else none

/-- Reads arguments from left to right: the format so far, which may be given once, and the files so
    far. A text to be shown ends the reading, and so does the first mistake. -/
def requestFrom? (format : Option OutputFormat) (files : List String) : List String → Option Request
  | []                       => some (.lint (format.getD .text) files)
  | "--" :: rest             =>
    if rest.all (!·.isEmpty) then some (.lint (format.getD .text) (files ++ rest)) else none
  | "--format" :: name :: rest =>
    match format, OutputFormat.ofName? name with
    | none, some f => requestFrom? (some f) files rest
    | _,    _      => none
  | arg :: rest              =>
    if isFile arg then requestFrom? format (files ++ [arg]) rest
    else
      match shown? arg, format, joinedFormat? arg with
      | some text, _,    _      => some text
      | none,      none, some f => requestFrom? (some f) files rest
      | none,      _,    _      => none

/-- What the arguments ask for, none if they are not understood. Without files the standard input is
    meant. -/
def request? (args : List String) : Option Request :=
  (requestFrom? none [] args).map fun
    | .lint format [] => .lint format ["-"]
    | request         => request

/-! ### Inputs -/

/-- Why an input cannot be read. -/
inductive ReadFailure where
  | missing | denied | directory | notDirectory | nameTooLong | notText
  | other (reason : String)
  deriving DecidableEq, Repr

/-- The wording of a failure. -/
def ReadFailure.message : ReadFailure → String
  | .missing      => "No such file or directory (os error 2)"
  | .denied       => "Permission denied (os error 13)"
  | .directory    => "Is a directory (os error 21)"
  | .notDirectory => "Not a directory (os error 20)"
  | .nameTooLong  => "File name too long (os error 36)"
  | .notText      => "stream did not contain valid UTF-8"
  | .other reason => reason

/-- What a run can read: the bytes of each file and of the standard input. -/
structure Inputs where
  file          : String → Except ReadFailure ByteArray
  standardInput : ByteArray

/-- Bytes as text. -/
def decode (bytes : ByteArray) : Except ReadFailure String :=
  match String.fromUTF8? bytes with
  | some s => .ok s
  | none   => .error .notText

/-- The name by which an input is shown. -/
def shownName (name : String) : String := if name = "-" then "<stdin>" else name

/-- The text of an input. -/
def Inputs.read (inputs : Inputs) (name : String) : Except ReadFailure String :=
  if name = "-" then decode inputs.standardInput else (inputs.file name).bind decode

/-- The inputs once one of them was read: the standard input is read up. -/
def Inputs.after (inputs : Inputs) (name : String) : Inputs :=
  if name = "-" then { inputs with standardInput := .empty } else inputs

/-- An input that cannot be read, and why. -/
structure ReadError where
  name    : String
  failure : ReadFailure
  deriving DecidableEq, Repr

/-- The wording of an error. -/
def ReadError.message (e : ReadError) : String :=
  let what :=
    if e.name = "-" then "failed to read definition from stdin"
    else s!"failed to read definition file: {e.name}"
  s!"Error: {what}\n\nCaused by:\n    {e.failure.message}\n"

/-- A report for each input in order, or the first error. -/
def reports [Formats] (inputs : Inputs) : List String → Except ReadError (List Report)
  | []            => .ok []
  | name :: names => do
    let source ← (inputs.read name).mapError (⟨name, ·⟩)
    let rest ← reports (inputs.after name) names
    return .ofSource (shownName name) source :: rest

/-! ### Runs -/

/-- What a run leaves behind. -/
structure Outcome where
  code   : Nat
  stdout : String
  stderr : String
  deriving DecidableEq, Repr

/-- Reports in a format. -/
def output : OutputFormat → List Report → String
  | .text => textOutput
  | .json => jsonOutput

/-- What `--help` shows. -/
def helpText : String := .join <| List.map (· ++ "\n") [
  "statelint - checks state machine definitions against the workflow grammar",
  "",
  "Usage: statelint [OPTIONS] [FILES]...",
  "",
  "Arguments:",
  "  [FILES]...  Definition files to lint (reads stdin when empty or `-`)",
  "",
  "Options:",
  "      --format <FORMAT>  Output format [default: text] [possible values: text, json]",
  "  -h, --help             Print help",
  "  -V, --version          Print version"]

/-- What `--version` shows. -/
def versionText : String := "statelint 0.2.1\n"

/-- What is said about arguments that are not understood. -/
def usageText : String := "usage: statelint [--format text|json] [--help] [--version] [FILE]...\n"

/-- A run on the given inputs: code 1 for an error in some input or in reading it. -/
def lintRun [Formats] (format : OutputFormat) (names : List String) (inputs : Inputs) : Outcome :=
  match reports inputs names with
  | .error e => ⟨1, "", e.message⟩
  | .ok rs   => ⟨if rs.any Report.hasError then 1 else 0, output format rs, ""⟩

/-- A run: code 2 for arguments that are not understood. -/
def run [Formats] (args : List String) (inputs : Inputs) : Outcome :=
  match request? args with
  | none                      => ⟨2, "", usageText⟩
  | some .help                => ⟨0, helpText, ""⟩
  | some .version             => ⟨0, versionText, ""⟩
  | some (.lint format names) => lintRun format names inputs

end FlowLint.CommandLine
