import BffLayout.CommandLine.Run

/-!
The program: reads the files that the command names, runs it, and prints and writes its outcome.
While it stays to watch, it looks at the files again in short intervals.
-/
namespace BffLayout.CommandLine

/-- An error number, which the system gives with either sign. -/
def errorNumber (code : UInt32) : Nat := min code.toNat (UInt32.size - code.toNat)

def readFile (path : String) : IO (Except ReadFailure String) := do
  try
    let bytes ← IO.FS.readBinFile path
    match String.fromUTF8? bytes with
    | some text => return .ok text
    | none => return .error .notText
  catch
    | .noFileOrDirectory .. => return .error .missing
    | .inappropriateType _ code _ =>
      return .error (if errorNumber code = 20 then .notDirectory else .directory)
    | .invalidArgument _ code details =>
      return .error (if errorNumber code = 36 then .nameTooLong else .other details)
    | e => return .error (.other (toString e))

/-- Reads all the files at once. -/
def readFiles (paths : List String) : IO (List (String × Except ReadFailure String)) :=
  paths.mapM fun path => return (path, ← readFile path)

def reader (contents : List (String × Except ReadFailure String)) : Reader :=
  fun path => (contents.lookup path).getD (.error .missing)

def perform (o : Outcome) : IO UInt32 := do
  try
    if let some (path, content) := o.write then IO.FS.writeFile path content
  catch e =>
    let path := (o.write.map Prod.fst).getD ""
    IO.eprint s!"Error: Cannot write {path}: {e}\n"
    return 3
  IO.print o.stdout
  IO.eprint o.stderr
  return o.code.toUInt32

def sameText : Except ReadFailure String → Except ReadFailure String → Bool
  | .ok a, .ok b => a == b
  | .error a, .error b => a == b
  | _, _ => false

/-- Performs the outcome of a run. A fault leaves nothing to be performed. -/
def performRun (run : Run Outcome) : IO UInt32 :=
  match run with
  | .ok o => perform o
  | .error _ => do
    IO.eprint "The run was stopped by a fault.\n"
    return 101

/-- Checks the changed files again, for as long as the program runs. -/
partial def watch (shell : Shell) (cfg : Config) (paths : List String)
    (known : List (String × Except ReadFailure String)) : IO UInt32 := do
  IO.sleep 200
  let current ← readFiles paths
  let changed := paths.filter fun path => !sameText (reader known path) (reader current path)
  unless changed.isEmpty do
    IO.print "\n"
    let _ ← performRun (runCheckM Machine.release.engine cfg (reader current) shell.printer changed false)
    IO.print "Watching for changes...\n"
  watch shell cfg paths current

def execute (shell : Shell) (args : List String) : IO UInt32 := do
  match shell.parse args with
  | .error stop => perform stop.outcome
  | .ok invocation =>
    let paths := invocation.command.files
    let contents ← readFiles paths
    let run := invocation.runM Machine.release.engine (reader contents) shell.printer
    let code ← performRun run
    match run.toOption.any Outcome.watching, Config.make invocation.unit invocation.tab with
    | true, .ok cfg => watch shell cfg paths contents
    | _, _ => return code

end BffLayout.CommandLine

open BffLayout.CommandLine in
def main (args : List String) : IO UInt32 := do
  let unit ← IO.getEnv Setting.unit.variableName
  let tab ← IO.getEnv Setting.tab.variableName
  execute (.standard fun name => if name = Setting.unit.variableName then unit else
    if name = Setting.tab.variableName then tab else none) args
