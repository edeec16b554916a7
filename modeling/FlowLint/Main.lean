import FlowLint.CommandLine

/-!
The program: collects what the arguments name, runs, and hands on the outcome.
-/

namespace FlowLint.CommandLine

/-- The bytes of a file, or why there are none. -/
def readBytes (name : String) : IO (Except ReadFailure ByteArray) := do
  try
    return .ok (← IO.FS.readBinFile name)
  catch e =>
    match e with
    | .noFileOrDirectory ..     => return .error .missing
    | .permissionDenied ..      => return .error .denied
    | .inappropriateType _ 21 _ => return .error .directory
    | .inappropriateType ..     => return .error .notDirectory
    | .invalidArgument ..       => return .error .nameTooLong
    | e                         => return .error (.other (toString e))

/-- All that is left to read. -/
def readAll (stream : IO.FS.Stream) : IO ByteArray := do
  let mut bytes := ByteArray.empty
  repeat
    let more ← stream.read 65536
    if more.isEmpty then break
    bytes := bytes ++ more
  return bytes

/-- What the request needs, read beforehand. -/
def collect : Option Request → IO Inputs
  | some (.lint _ names) => do
    let files ← (names.filter (· != "-")).mapM fun name => do return (name, ← readBytes name)
    let standardInput ← if names.contains "-" then readAll (← IO.getStdin) else pure ByteArray.empty
    return ⟨fun name => (files.lookup name).getD (.error .missing), standardInput⟩
  | _ => return ⟨fun _ => .error .missing, .empty⟩

end FlowLint.CommandLine

open FlowLint.CommandLine in
def main (args : List String) : IO UInt32 := do
  let outcome := run args (← collect (request? args))
  IO.print outcome.stdout
  IO.eprint outcome.stderr
  return outcome.code.toUInt32
