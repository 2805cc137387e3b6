import BffLayout.Proofs.Session
import BffLayout.Proofs.Returns

/-!
The two outputs of a re-indented file. One run prints it, another one writes it back, and the file
then holds what would have been printed, with one exception. A file in which no line moves is not
written, so carriage returns stay in it that are not printed.
-/
namespace BffLayout.CommandLine

theorem runIndent_print {cfg : Config} {read : Reader} {path text : String} (h : read path = .ok text) :
    runIndent cfg read path false = .success (reindentText cfg text) := by
  simp only [runIndent, runIndentM, withTextM, h, Bool.false_eq_true, if_false]
  rfl

namespace FileSystem

variable {fs : FileSystem} {shell : Shell} {unit tab : Nat} {cfg : Config}

/-- What a file holds after it has been written. -/
theorem read_after_runIndent (cfg : Config) {s : fs.State} {path text : String}
    (h : fs.read s path = .ok text) :
    fs.read (fs.after s (runIndent cfg (fs.read s) path true)) path =
      .ok (if 0 < (Buffer.ofText text).changes ((Buffer.ofText text).reindent cfg)
        then reindentText cfg text else text) := by
  rw [after_runIndent h]
  split
  · next hchanged => exact fs.read_write _ h (ne_empty_of_changes hchanged)
  · exact h

/-- What a file holds after it has been written is what would have been printed, if a line changes
or no line ends in a carriage return, and only then. -/
theorem written_eq_printed_iff (hcfg : Config.make unit tab = .ok cfg) {path : String}
    {write print : List String}
    (hwrite : shell.parse write = .ok ⟨unit, tab, .indent path true⟩)
    (hprint : shell.parse print = .ok ⟨unit, tab, .indent path false⟩)
    {s : fs.State} {text : String} (hread : fs.read s path = .ok text) :
    fs.step shell s print = (.success (reindentText cfg text), s) ∧
    (fs.step shell s write).1.code = 0 ∧
    fs.read (fs.step shell s write).2 path =
      .ok (if 0 < (Buffer.ofText text).changes ((Buffer.ofText text).reindent cfg)
        then reindentText cfg text else text) ∧
    (fs.read (fs.step shell s write).2 path = .ok (fs.step shell s print).1.stdout ↔
      0 < (Buffer.ofText text).changes ((Buffer.ofText text).reindent cfg) ∨
        ∀ line ∈ splitLines text.toList, line.getLast? ≠ some '\r') := by
  have hprinted : fs.step shell s print = (.success (reindentText cfg text), s) := by
    have hrun : shell.run (fs.read s) print = .success (reindentText cfg text) :=
      (Shell.run_of_parse hprint hcfg).trans (runIndent_print hread)
    rw [step, hrun]
    rfl
  have hwritten : shell.run (fs.read s) write = runIndent cfg (fs.read s) path true :=
    Shell.run_of_parse hwrite hcfg
  have hafter := read_after_runIndent cfg hread
  rw [hprinted, step, hwritten]
  refine ⟨rfl, ?_, hafter, ?_⟩
  · rw [runIndent_write hread]
    rfl
  · rw [hafter]
    by_cases hchanged : 0 < (Buffer.ofText text).changes ((Buffer.ofText text).reindent cfg)
    · simp only [hchanged, if_true, true_or, Outcome.success]
    · have hplaced : reindentText cfg text = (Buffer.ofText text).toText :=
        congrArg Buffer.toText (Buffer.reindent_of_changes (Nat.eq_zero_of_not_pos hchanged))
      rw [if_neg hchanged, hplaced, ← Buffer.toText_ofText_eq_iff, Outcome.success, Except.ok.injEq]
      simp only [hchanged, false_or, eq_comm]

end FileSystem

def oneFile (text : String) : FileTree := ⟨[(["a"], .text text)]⟩

/-- A file with carriage returns in which one line moves. -/
def looseLine : FileTree := oneFile "\x7b\r\n.A = 1\r\n\x7d\r\n"

theorem written_eq_printed_iff_looseLine :
    (FileTree.fileSystem.step plainShell looseLine ["indent", "a"]).1.stdout =
      "\x7b\n    .A = 1\n\x7d\n" ∧
    FileTree.fileSystem.read
        (FileTree.fileSystem.step plainShell looseLine ["indent", "a", "-w"]).2 "a" =
      .ok "\x7b\n    .A = 1\n\x7d\n" := by
  have hread : FileTree.fileSystem.read looseLine "a" = .ok "\x7b\r\n.A = 1\r\n\x7d\r\n" := rfl
  have hcfg : Config.make 4 4 = .ok .standard := rfl
  have hwrite : plainShell.parse ["indent", "a", "-w"] = .ok ⟨4, 4, .indent "a" true⟩ := rfl
  have hprint : plainShell.parse ["indent", "a"] = .ok ⟨4, 4, .indent "a" false⟩ := rfl
  have hstdout : (FileTree.fileSystem.step plainShell looseLine ["indent", "a"]).1.stdout =
      "\x7b\n    .A = 1\n\x7d\n" := rfl
  obtain ⟨-, -, -, hiff⟩ := FileSystem.written_eq_printed_iff hcfg hwrite hprint hread
  refine ⟨hstdout, ?_⟩
  rw [← hstdout]
  exact hiff.mpr (.inl (by decide))

/-- A file that stands as it should, with a carriage return: printed without it, kept with it. -/
theorem run_indent_keptReturn :
    (plainShell.run (oneFile "b\r\n").read ["indent", "a"]).stdout = "b\n" ∧
    (oneFile "b\r\n").after (plainShell.run (oneFile "b\r\n").read ["indent", "a", "-w"]) =
      oneFile "b\r\n" := by
  constructor
  · rfl
  · rfl

end BffLayout.CommandLine
