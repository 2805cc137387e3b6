import BffLayout.Proofs.Files
import BffLayout.Proofs.LineEnds

/-!
Sessions of the command line. Files are written by one run and read by the next, and several paths
may lead to the same file. Once every file has been written in its place, the program has nothing
more to say about any of them and nothing more to write.
-/
namespace BffLayout.CommandLine

namespace FileSystem

variable (fs : FileSystem) (shell : Shell)

def after (s : fs.State) (o : Outcome) : fs.State :=
  match o.write with
  | some (path, content) => fs.write s path content
  | none => s

/-- One run of the program, and the files after it. -/
def step (s : fs.State) (args : List String) : Outcome × fs.State :=
  (shell.run (fs.read s) args, fs.after s (shell.run (fs.read s) args))

/-- Runs of the program one after another, and the files after the last. -/
def session (s : fs.State) : List (List String) → List Outcome × fs.State
  | [] => ([], s)
  | args :: rest =>
    let first := fs.step shell s args
    let others := session first.2 rest
    (first.1 :: others.1, others.2)

/-- Whether a path leads to a text. -/
def Readable (s : fs.State) (path : String) : Prop := ∃ text, fs.read s path = .ok text

/-- Whether a path leads to a text that placing keeps line by line. -/
def InPlace (cfg : Config) (s : fs.State) (path : String) : Prop :=
  ∃ text, fs.read s path = .ok text ∧ (Buffer.ofText text).reindent cfg = Buffer.ofText text

end FileSystem

/-- An empty text has nothing to change. -/
theorem ne_empty_of_changes {cfg : Config} {text : String}
    (h : 0 < (Buffer.ofText text).changes ((Buffer.ofText text).reindent cfg)) : text ≠ "" := by
  rintro rfl
  have hzero : (Buffer.ofText "").changes ((Buffer.ofText "").reindent cfg) = 0 := rfl
  rw [hzero] at h
  cases h

/-- The outcome of a run that writes a file, for a text that can be read. -/
theorem runIndent_write {cfg : Config} {read : Reader} {path text : String} (h : read path = .ok text) :
    runIndent cfg read path true =
      { Outcome.success s!"Re-indented {(Buffer.ofText text).changes
          ((Buffer.ofText text).reindent cfg)} line(s) in {path}\n" with
        write := if 0 < (Buffer.ofText text).changes ((Buffer.ofText text).reindent cfg)
          then some (path, reindentText cfg text) else none } := by
  simp only [runIndent, runIndentM, withTextM, h, if_true]
  by_cases hchanged : 0 < (Buffer.ofText text).changes ((Buffer.ofText text).reindent cfg)
  · rw [if_pos hchanged]
    exact if_pos hchanged
  · rw [if_neg hchanged]
    exact if_neg hchanged

namespace FileSystem

section Write

variable {fs : FileSystem} {cfg : Config} {s : fs.State} {path text : String}
  (h : fs.read s path = .ok text)

include h

theorem after_runIndent : fs.after s (runIndent cfg (fs.read s) path true) =
    if 0 < (Buffer.ofText text).changes ((Buffer.ofText text).reindent cfg)
    then fs.write s path (reindentText cfg text) else s := by
  rw [runIndent_write h, after]
  by_cases hchanged : 0 < (Buffer.ofText text).changes ((Buffer.ofText text).reindent cfg)
  · simp only [hchanged, if_true]
  · simp only [hchanged, if_false]

theorem inPlace_written : fs.InPlace cfg (fs.after s (runIndent cfg (fs.read s) path true)) path := by
  rw [after_runIndent h]
  split
  · next hchanged =>
    exact ⟨_, fs.read_write _ h (ne_empty_of_changes hchanged), Buffer.reindent_reindentText cfg text⟩
  · next hsame => exact ⟨text, h, Buffer.reindent_of_changes (Nat.eq_zero_of_not_pos hsame)⟩

/-- At any other path the text is as before, or it is the one that has been written. -/
theorem read_written {other old : String} (hother : fs.read s other = .ok old) :
    fs.read (fs.after s (runIndent cfg (fs.read s) path true)) other = .ok old ∨
      fs.InPlace cfg (fs.after s (runIndent cfg (fs.read s) path true)) other := by
  rw [after_runIndent h]
  split
  · rcases fs.read_write_other (reindentText cfg text) h hother with hsame | hwritten
    · exact .inl hsame
    · exact .inr ⟨_, hwritten, Buffer.reindent_reindentText cfg text⟩
  · exact .inl hother

theorem readable_written {other : String} (hother : fs.Readable s other) :
    fs.Readable (fs.after s (runIndent cfg (fs.read s) path true)) other := by
  obtain ⟨old, hold⟩ := hother
  rcases read_written h hold with hsame | ⟨new, hnew, -⟩
  · exact ⟨old, hsame⟩
  · exact ⟨new, hnew⟩

theorem inPlace_kept {other : String} (hother : fs.InPlace cfg s other) :
    fs.InPlace cfg (fs.after s (runIndent cfg (fs.read s) path true)) other := by
  obtain ⟨old, hold, hplaced⟩ := hother
  rcases read_written h hold with hsame | hnew
  · exact ⟨old, hsame, hplaced⟩
  · exact hnew

end Write

end FileSystem

theorem join_empty (paths : List String) : String.join (paths.map fun _ => "") = "" := by
  induction paths with
  | nil => rfl
  | cons path rest ih => rw [List.map_cons, String.join_cons, ih, String.append_empty]

section InPlace

variable {fs : FileSystem} {cfg : Config} {printer : Report.Printer} {s : fs.State}

/-- There is nothing to write to a file that is in place. -/
theorem runIndent_inPlace {path : String} (h : fs.InPlace cfg s path) :
    runIndent cfg (fs.read s) path true = .success s!"Re-indented 0 line(s) in {path}\n" := by
  obtain ⟨text, hread, hplaced⟩ := h
  rw [runIndent_write hread, hplaced, Buffer.changes_self]
  rfl

theorem checkFile_inPlace {path : String} (h : fs.InPlace cfg s path) :
    checkFile cfg (fs.read s) printer path = ⟨.clean, s!"{path}: ok\n", ""⟩ := by
  obtain ⟨text, hread, hplaced⟩ := h
  have hcheck : (Buffer.ofText text).checkM (m := Id) (.on .plain) cfg = [] :=
    Buffer.check_of_placed hplaced
  simp only [checkFile, checkFileM, hread, hcheck]
  rfl

theorem runCommand_check (cfg : Config) (read : Reader) (printer : Report.Printer)
    (paths : List String) (watch : Bool) :
    runCommand cfg read printer (.check paths watch) =
      checkOutcome read paths watch (paths.map (checkFile cfg read printer)) :=
  congrArg (checkOutcome read paths watch) List.idRun_mapM

/-- Files that are in place pass the check. -/
theorem runCheck_inPlace {paths : List String} (h : ∀ path ∈ paths, fs.InPlace cfg s path) :
    runCommand cfg (fs.read s) printer (.check paths false) =
      .success (String.join (paths.map fun path => s!"{path}: ok\n")) := by
  have hchecked : paths.map (checkFile cfg (fs.read s) printer) =
      paths.map fun path => ⟨.clean, s!"{path}: ok\n", ""⟩ :=
    List.map_congr_left fun path hpath => checkFile_inPlace (h path hpath)
  have hcode : exitCode (paths.map fun _ => Verdict.clean) = 0 := by
    simp [exitCode]
  rw [runCommand_check, hchecked]
  simp only [checkOutcome, List.map_map, Function.comp_def, hcode, join_empty, Outcome.success]

end InPlace

theorem Shell.run_of_parse {shell : Shell} {read : Reader} {args : List String} {unit tab : Nat}
    {command : Command} {cfg : Config} (hargs : shell.parse args = .ok ⟨unit, tab, command⟩)
    (hcfg : Config.make unit tab = .ok cfg) :
    shell.run read args = runCommand cfg read shell.printer command := by
  simp only [run, runM, hargs, Invocation.runM, hcfg, runCommand]

namespace FileSystem

section Session

variable {fs : FileSystem} {shell : Shell} {unit tab : Nat} {cfg : Config}
  (hcfg : Config.make unit tab = .ok cfg) {write : String → List String}

include hcfg

/-- Writing one file after another: no run fails, and in the end all of them are in place. -/
theorem session_write {paths : List String}
    (hwrite : ∀ path ∈ paths, shell.parse (write path) = .ok ⟨unit, tab, .indent path true⟩)
    {s : fs.State} (hread : ∀ path ∈ paths, fs.Readable s path) :
    (∀ o ∈ (fs.session shell s (paths.map write)).1, o.code = 0) ∧
      ∀ path, fs.InPlace cfg s path ∨ path ∈ paths →
        fs.InPlace cfg (fs.session shell s (paths.map write)).2 path := by
  induction paths generalizing s with
  | nil =>
    refine ⟨fun o ho => absurd ho List.not_mem_nil, ?_⟩
    rintro path (h | h)
    · exact h
    · cases h
  | cons first rest ih =>
    obtain ⟨text, htext⟩ := hread first List.mem_cons_self
    have hrun : shell.run (fs.read s) (write first) = runIndent cfg (fs.read s) first true :=
      Shell.run_of_parse (hwrite first List.mem_cons_self) hcfg
    have hrest := ih (fun path hpath => hwrite path (List.mem_cons_of_mem _ hpath))
      (s := fs.after s (runIndent cfg (fs.read s) first true))
      fun path hpath => readable_written htext (hread path (List.mem_cons_of_mem _ hpath))
    simp only [List.map_cons, session, step, hrun]
    constructor
    · intro o ho
      rcases List.mem_cons.mp ho with rfl | ho
      · rw [runIndent_write htext]
        rfl
      · exact hrest.1 o ho
    · intro path hpath
      apply hrest.2
      rcases hpath with h | h
      · exact .inl (inPlace_kept htext h)
      · rcases List.mem_cons.mp h with rfl | h
        · exact .inl (inPlace_written htext)
        · exact .inr h

/-- Writing every file and then checking them all. The runs that write succeed; then the check finds
every file in order, and another run that writes changes no line and no file. -/
theorem write_then_check {paths : List String} {check : List String}
    (hwrite : ∀ path ∈ paths, shell.parse (write path) = .ok ⟨unit, tab, .indent path true⟩)
    (hcheck : shell.parse check = .ok ⟨unit, tab, .check paths false⟩)
    {s : fs.State} (hread : ∀ path ∈ paths, ∃ text, fs.read s path = .ok text) :
    (∀ o ∈ (fs.session shell s (paths.map write)).1, o.code = 0) ∧
    fs.step shell (fs.session shell s (paths.map write)).2 check =
      (.success (String.join (paths.map fun path => s!"{path}: ok\n")),
        (fs.session shell s (paths.map write)).2) ∧
    ∀ path ∈ paths, fs.step shell (fs.session shell s (paths.map write)).2 (write path) =
      (.success s!"Re-indented 0 line(s) in {path}\n", (fs.session shell s (paths.map write)).2) := by
  obtain ⟨hcode, hplaced⟩ := session_write hcfg hwrite hread
  refine ⟨hcode, ?_, ?_⟩
  · have hrun : shell.run (fs.read (fs.session shell s (paths.map write)).2) check = _ :=
      (Shell.run_of_parse hcheck hcfg).trans (runCheck_inPlace fun path hpath => hplaced path (.inr hpath))
    rw [step, hrun]
    rfl
  · intro path hpath
    have hrun : shell.run (fs.read (fs.session shell s (paths.map write)).2) (write path) = _ :=
      (Shell.run_of_parse (hwrite path hpath) hcfg).trans (runIndent_inPlace (hplaced path (.inr hpath)))
    rw [step, hrun]
    rfl

end Session

end FileSystem

/-- The program where no variable of the environment is set. -/
def plainShell : Shell := .standard fun _ => none

/-- A file with mixed line ends that two paths lead to. -/
def mixedEnds : FileTree := ⟨[(["a"], .text "\x7b\r\r\n.A = 1\r\n \r\r\n\x7d\r")]⟩

/-- The arguments to write a file with levels of two columns. -/
def writeArgs (path : String) : List String := ["indent", path, "--write", "--indent-unit", "2"]

theorem after_fileTree (t : FileTree) (o : Outcome) : FileTree.fileSystem.after t o = t.after o := rfl

/-- The files after each path has been written. -/
def mixedEndsWritten : FileTree :=
  (FileTree.fileSystem.session plainShell mixedEnds (["a", "./a"].map writeArgs)).2

theorem write_then_check_mixedEnds :
    FileTree.fileSystem.step plainShell mixedEndsWritten
        ["check", "a", "--indent-unit=2", "./a"] =
      (.success "a: ok\n./a: ok\n", mixedEndsWritten) ∧
    plainShell.run mixedEndsWritten.read (writeArgs "./a") =
      .success "Re-indented 0 line(s) in ./a\n" ∧
    mixedEndsWritten.after (plainShell.run mixedEndsWritten.read (writeArgs "./a")) =
      mixedEndsWritten := by
  have hcfg : Config.make 2 4 = .ok ⟨2, 4, by decide, by decide⟩ := rfl
  have hwrite : ∀ path ∈ ["a", "./a"],
      plainShell.parse (writeArgs path) = .ok ⟨2, 4, .indent path true⟩ := by
    rw [List.forall_mem_cons, List.forall_mem_singleton]
    exact ⟨rfl, rfl⟩
  have hcheck : plainShell.parse ["check", "a", "--indent-unit=2", "./a"] =
      .ok ⟨2, 4, .check ["a", "./a"] false⟩ := rfl
  have hread : ∀ path ∈ ["a", "./a"], ∃ text, FileTree.fileSystem.read mixedEnds path = .ok text := by
    rw [List.forall_mem_cons, List.forall_mem_singleton]
    exact ⟨⟨_, rfl⟩, ⟨_, rfl⟩⟩
  obtain ⟨-, hchecked, hwritten⟩ := FileSystem.write_then_check hcfg hwrite hcheck hread
  have hlast := hwritten "./a" (List.mem_cons_of_mem _ List.mem_cons_self)
  rw [FileSystem.step] at hlast
  obtain ⟨houtcome, hfiles⟩ := Prod.mk.inj hlast
  exact ⟨hchecked, houtcome, (after_fileTree _ _).symm.trans hfiles⟩

end BffLayout.CommandLine
