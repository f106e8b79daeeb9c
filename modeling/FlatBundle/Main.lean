import FlatBundle.CommandLine

/-!
The command: reads records, builds their bundle and writes it.
-/

namespace FlatBundle

def helpText : String :=
  "\n".intercalate [
    "Flatten a CommonJS module graph into a single scope",
    "",
    "Usage: flatbundle [OPTIONS] [INPUT]",
    "",
    "Arguments:",
    "  [INPUT]  JSON array or newline-delimited JSON of module records. Reads stdin when omitted",
    "",
    "Options:",
    "      --basedir <BASEDIR>      Source map file names are made relative to this directory",
    "  -o, --outfile <OUTFILE>      Write the bundle to this file",
    "  -s, --standalone <NAME>      Wrap the bundle in UMD, exporting it under this global name",
    "      --standalone-module <ID> Id of the module whose exports the standalone bundle returns",
    "      --no-iife                Don't wrap the bundle in an IIFE",
    "  -d, --debug                  Inline a source map into the bundle",
    "  -h, --help                   Print help",
    "  -V, --version                Print version"]

def versionText : String :=
  "flatbundle"

/-- What went wrong with a file, in the words of the system. -/
def describeFailure (action path : String) : IO.Error → String
  | .noFileOrDirectory _ code details => Report.systemFailure action path details code.toNat
  | .permissionDenied _ code details => Report.systemFailure action path details code.toNat
  | .inappropriateType _ code details => Report.systemFailure action path details code.toNat
  | .resourceExhausted _ code details => Report.systemFailure action path details code.toNat
  | e => "Failed to " ++ action ++ " " ++ path ++ ": " ++ toString e

partial def readStream (stream : IO.FS.Stream) (text : String) : IO String := do
  let line ← stream.getLine
  if line.isEmpty then return text else readStream stream (text ++ line)

def readInput (i : Invocation) : IO (Except String String) := do
  try
    match i.input with
    | some path => return .ok (← IO.FS.readFile path)
    | none => return .ok (← readStream (← IO.getStdin) "")
  catch e => return .error (describeFailure "read" (i.input.getD "stdin") e)

def writeOutput (i : Invocation) (code : String) : IO (Except String Unit) := do
  try
    match i.outfile with
    | some path => IO.FS.writeFile path code
    | none => do
      let stream ← IO.getStdout
      stream.putStr code
      stream.flush
    return .ok ()
  catch e => return .error (describeFailure "write" (i.outfile.getD "stdout") e)

/-- Tells what went wrong and gives the exit code of a failure. -/
def giveUp (errors : List String) : IO UInt32 := do
  for e in errors do
    IO.eprintln (Report.error e)
  return 1

def runInvocation (i : Invocation) : IO UInt32 := do
  let start ← IO.monoMsNow
  match ← readInput i with
  | .error e => giveUp [e]
  | .ok text =>
    match i.build text with
    | .error errors => giveUp errors
    | .ok built =>
      for w in built.warnings do
        IO.eprintln (Report.warning w)
      match ← writeOutput i built.code with
      | .error e => giveUp [e]
      | .ok () =>
        if i.outfile.isSome then
          IO.eprintln (Report.done ++ " Finished in " ++ toString ((← IO.monoMsNow) - start) ++ " ms")
        return 0

end FlatBundle

open FlatBundle in
def main (args : List String) : IO UInt32 := do
  match Invocation.ofArguments args with
  | .error .usage =>
    IO.eprintln "Usage: flatbundle [OPTIONS] [INPUT]"
    return 2
  | .error .help =>
    IO.println helpText
    return 0
  | .error .version =>
    IO.println versionText
    return 0
  | .ok i => runInvocation i
