import ConfigExpr.Command.Elapsed
import ConfigExpr.Command.Listing
import ConfigExpr.Command.Usage

/-!
# The program

Reads the command line, the environment and the file, takes the time, and writes what the commands
say.
-/

namespace ConfigExpr

def usage : String :=
  "usage: eval PATH [-a NAME=VALUE]... [--raw] [--max-depth N]\n" ++
  "       matrix PATH -p NAME -v A,B [-a NAME=VALUE]...\n" ++
  "       repl\n" ++
  "       tokens\n"

/-- The system's code for a directory in the place of a file. -/
def directoryCode : UInt32 := 21

def FileFault.ofError : IO.Error → FileFault
  | .noFileOrDirectory .. => .notFound
  | .permissionDenied .. => .permissionDenied
  | .alreadyExists .. => .alreadyExists
  | .invalidArgument .. => .invalidInput
  | .timeExpired .. => .timedOut
  | .interrupted .. => .interrupted
  | .unexpectedEof => .unexpectedEnd
  | .inappropriateType _ code _ =>
    if code = directoryCode ∨ code = -directoryCode then .isDirectory else .notDirectory
  | _ => .other

def readContent (path : String) : IO (Except FileFault ByteArray) := do
  try
    return .ok (← IO.FS.readBinFile path)
  catch e =>
    return .error (FileFault.ofError e)

def isSet (name : String) : IO Bool := do
  match ← IO.getEnv name with
  | some value => return !value.isEmpty
  | none => return false

/-- Whether the standard error is to be coloured. -/
def wantsColour : IO Bool := do
  let stderr ← IO.getStderr
  let terminal ← stderr.isTty
  match ColourChoice.of (← isSet "FORCE_COLOR") (← isSet "NO_COLOR") terminal with
  | .always => return true
  | .never => return false
  | .auto => return terminal

/-- Runs an action and gives its result with the time it took. -/
def timed {α : Type} (action : IO α) : IO (α × String) := do
  let before ← IO.monoNanosNow
  let result ← action
  let after ← IO.monoNanosNow
  return (result, Elapsed.text (after - before))

def finish (output : Output) : IO UInt32 := do
  IO.eprint output.stderr
  IO.print output.stdout
  return output.exit.toUInt32

def runEvaluation (c : Evaluation) (colour : Bool) : IO UInt32 := do
  IO.eprint (c.opening colour)
  let (result, elapsed) ← timed do
    return c.result (← readContent c.path)
  finish (c.closing colour elapsed result)

def runExpansion (c : Expansion) (colour : Bool) : IO UInt32 := do
  IO.eprint (c.opening colour)
  let (result, elapsed) ← timed do
    match loadProgram c.path (← readContent c.path) with
    | .error problem => return .error problem
    | .ok (source, program) =>
      let entries ← c.values.zipIdx.mapM fun (value, i) => do
        let (result, elapsed) ← timed do
          return c.resultFor program i value
        return ExpansionEntry.mk value result elapsed
      return .ok (source, entries)
  finish (c.closing colour elapsed result)

/-- Prompts for a line; `none` at the end of the input. -/
def promptLine : IO (Option String) := do
  IO.print Session.prompt
  (← IO.getStdout).flush
  let line ← (← IO.getStdin).getLine
  return if line.isEmpty then none else some line

partial def runSession (s : Session) (colour : Bool) : IO UInt32 := do
  match ← promptLine with
  | none => return 0
  | some line =>
    match s.feed line with
    | none => return 0
    | some (next, reply) =>
      match reply with
      | .problem _ => IO.eprint (reply.text colour)
      | _ => IO.print (reply.text colour)
      runSession next colour

partial def runListing : IO UInt32 := do
  match ← promptLine with
  | none => return 0
  | some line =>
    match listLine line with
    | none => return 0
    | some text =>
      IO.print text
      runListing

end ConfigExpr

open ConfigExpr in
def main (words : List String) : IO UInt32 := do
  let colour ← wantsColour
  match Command.ofWords? words with
  | none =>
    IO.eprint usage
    return 2
  | some (.evaluate c) => runEvaluation c colour
  | some (.expand c) => runExpansion c colour
  | some .session => runSession .start colour
  | some .listing => runListing
