import BffLayout.Completion
import BffLayout.Report
import BffLayout.CommandLine.Arguments
import BffLayout.CommandLine.FileTree

/-!
Runs of the command line. A run is a function of the arguments, the environment and the files, and
its outcome says what is printed, what is written and how the program exits: zero for success, one
for mismatches, two for arguments and queries that cannot be served, three for files.
-/
namespace BffLayout.CommandLine

def programName : String := "bffindent"

def programVersion : String := "0.1.0"

structure Outcome where
  code : Nat
  stdout : String
  stderr : String
  /-- A file to be replaced, with its new content. -/
  write : Option (String × String)
  /-- Whether the program stays to check the files again when they change. -/
  watching : Bool
  deriving DecidableEq, Repr

/-- How the files are read. -/
abbrev Reader := String → Except ReadFailure String

namespace Outcome

def success (stdout : String) : Outcome := ⟨0, stdout, "", none, false⟩

def failure (code : Nat) (stderr : String) : Outcome := ⟨code, "", stderr, none, false⟩

/-- The configuration or the query is at fault. -/
def ofError (e : Error) : Outcome :=
  let hint := match e.hint? with
    | some hint => s!"  = hint: {hint}\n"
    | none => ""
  failure 2 (s!"error[{e.code}]: {e.message}\n" ++ hint)

end Outcome

def unreadable (path : String) (f : ReadFailure) : String := s!"Error: Cannot read {path}: {f.message}\n"

/-- What the check of one file finds. -/
inductive Verdict where
  | clean
  | mismatched
  | unreadable
  deriving DecidableEq, Repr

structure Checked where
  verdict : Verdict
  stdout : String
  stderr : String
  deriving DecidableEq, Repr

/-- A file that cannot be read weighs more than a mismatch. -/
def exitCode (verdicts : List Verdict) : Nat :=
  if verdicts.contains .unreadable then 3 else if verdicts.contains .mismatched then 1 else 0

def helpText : String :=
  "Indentation inference and completion for FASTBuild BFF files\n\n" ++
  "Usage: bffindent [OPTIONS] <COMMAND>\n\n" ++
  "Commands:\n" ++
  "  indent FILE [-w|--write]     Re-indent a file and print the result\n" ++
  "  check FILE... [-w|--watch]   Report lines whose indentation differs from the computed one\n" ++
  "  line FILE LINE               Print the computed indent of one line\n" ++
  "  complete FILE LINE COLUMN    Print completion candidates at a cursor position\n\n" ++
  "Options:\n" ++
  "  -v, --verbose      Increase log verbosity\n" ++
  "  --indent-unit N    Columns per indentation level (default 4)\n" ++
  "  --tab-width N      Columns a tab advances to in existing indentation (default 4)\n" ++
  "  -h, --help         Print help\n" ++
  "  -V, --version      Print version\n"

def Stop.outcome : Stop → Outcome
  | help => .success helpText
  | version => .success s!"{programName} {programVersion}\n"
  | usage => .failure 2 "error: the arguments cannot be taken\n\nFor more information, try '--help'.\n"

/-- What the program is built around: how arguments are read, and how notices are printed. -/
structure Shell where
  parse : List String → Except Stop Invocation
  printer : Report.Printer

section OnEngine

variable {m : Type → Type} [Monad m] (e : Engine m) (cfg : Config) (read : Reader)

/-- Runs `f` on the text of a file. -/
def withTextM (path : String) (f : String → m Outcome) : m Outcome :=
  match read path with
  | .ok text => f text
  | .error failure => pure (.failure 3 (unreadable path failure))

/-- Prints the re-indented file, or writes it back if a line changes. -/
def runIndentM (path : String) (write : Bool) : m Outcome :=
  withTextM read path fun text => do
    let buffer := Buffer.ofText text
    let placed ← buffer.reindentM e cfg
    let changed := buffer.changes placed
    if write then
      let done := Outcome.success s!"Re-indented {changed} line(s) in {path}\n"
      if 0 < changed then do
        let content ← placed.toTextM e.toPlatform
        pure { done with write := some (path, content) }
      else pure done
    else do
      let content ← placed.toTextM e.toPlatform
      pure (.success content)

def checkFileM (printer : Report.Printer) (path : String) : m Checked :=
  match read path with
  | .error failure => pure ⟨.unreadable, "", unreadable path failure⟩
  | .ok text => do
    match ← (Buffer.ofText text).checkM e cfg with
    | [] => pure ⟨.clean, s!"{path}: ok\n", ""⟩
    | mismatches =>
      pure ⟨.mismatched, String.join (mismatches.map fun m => m.summary path ++ "\n"),
        Report.render printer path text mismatches⟩

/-- The outcome of a check of all the paths; to stay and watch them, all have to lead somewhere. -/
def checkOutcome (paths : List String) (watch : Bool) (checked : List Checked) : Outcome :=
  let stdout := String.join (checked.map Checked.stdout)
  let stderr := String.join (checked.map Checked.stderr)
  let unresolved := paths.findSome? fun path =>
    match read path with
    | .error failure => if failure.isUnresolved then some (path, failure) else none
    | .ok _ => none
  match watch, unresolved with
  | false, _ => ⟨exitCode (checked.map Checked.verdict), stdout, stderr, none, false⟩
  | true, some (path, failure) =>
    ⟨3, stdout, stderr ++ s!"Error: Cannot resolve path {path}: {failure.message}\n", none, false⟩
  | true, none =>
    ⟨0, stdout ++ "\nWatching for changes... (Press Ctrl+C to stop)\n", stderr, none, true⟩

def runCheckM (printer : Report.Printer) (paths : List String) (watch : Bool) : m Outcome := do
  let checked ← paths.mapM (checkFileM e cfg read printer)
  pure (checkOutcome read paths watch checked)

def runLineM (path : String) (index : Nat) : m Outcome :=
  withTextM read path fun text =>
    match (Buffer.ofText text).focus index with
    | .ok f => do
      let n ← f.indentM e cfg
      pure (.success s!"{n}\n")
    | .error error => pure (.ofError error)

def runComplete (path : String) (p : Position) : Outcome :=
  Id.run <| withTextM read path fun text =>
    match (Buffer.ofText text).complete p with
    | .ok (some c) => .success (String.join (c.candidates.map fun name => name ++ "\n"))
    | .ok none => .success ""
    | .error error => .ofError error

def runCommandM (printer : Report.Printer) : Command → m Outcome
  | .indent file write => runIndentM e cfg read file write
  | .check files watch => runCheckM e cfg read printer files watch
  | .line file line => runLineM e cfg read file (line - 1)
  | .complete file line column => pure (runComplete read file ⟨line - 1, column - 1⟩)

/-- The configuration is looked at before any file. -/
def Invocation.runM (printer : Report.Printer) (i : Invocation) : m Outcome :=
  match Config.make i.unit i.tab with
  | .ok cfg => runCommandM e cfg read printer i.command
  | .error error => pure (.ofError error)

/-- A run of the program. -/
def Shell.runM (shell : Shell) (args : List String) : m Outcome :=
  match shell.parse args with
  | .ok invocation => invocation.runM e read shell.printer
  | .error stop => pure stop.outcome

end OnEngine

def runIndent (cfg : Config) (read : Reader) (path : String) (write : Bool) : Outcome :=
  Id.run (runIndentM (.on .plain) cfg read path write)

def checkFile (cfg : Config) (read : Reader) (printer : Report.Printer) (path : String) : Checked :=
  Id.run (checkFileM (.on .plain) cfg read printer path)

def runCommand (cfg : Config) (read : Reader) (printer : Report.Printer) (c : Command) : Outcome :=
  Id.run (runCommandM (.on .plain) cfg read printer c)

def Shell.run (shell : Shell) (read : Reader) (args : List String) : Outcome :=
  Id.run (shell.runM (.on .plain) read args)

/-- The program's own reader of arguments, and its drawings without colours. -/
def Shell.standard (env : Environment) : Shell := ⟨read env, Report.drawing false⟩

/-- The files after a run. -/
def FileTree.after (t : FileTree) (o : Outcome) : FileTree :=
  match o.write with
  | some (path, content) => t.write path content
  | none => t

/-- The files that a command reads. -/
def Command.files : Command → List String
  | .indent file _ | .line file _ | .complete file _ _ => [file]
  | .check files _ => files

end BffLayout.CommandLine
