import BffLayout.Indent

/-!
Re-indentation of a whole buffer, top to bottom: every line is placed against the lines above it
as they have just been placed. Blank lines become empty, and a line that starts inside a block
comment is kept as it is.
-/
namespace BffLayout

/-- A line that does not stand where it should. -/
structure Mismatch where
  line : Nat
  expected : Nat
  actual : Nat
  deriving DecidableEq, Repr

section OnPlatform

variable {m : Type → Type} [Monad m] (p : Platform m) (indent : Focus → m Nat)

/-- The line in focus at its proper column. -/
def Focus.placedM (f : Focus) : m Line :=
  match f.row.start with
  | .block => pure f.row.toLine
  | .code => do
    let n ← if f.row.isBlank then pure 0 else indent f
    f.row.setIndentationM p n

/-- Places the remaining rows one after another below `above`. -/
def reindentBelowM : (above : List Row) → List Row → m (List Row)
  | _, [] => pure []
  | above, r :: rest => do
    let l ← Focus.placedM p indent ⟨above, r⟩
    let others ← reindentBelowM (Row.of r.index l :: above) rest
    pure (Row.of r.index l :: others)

/-- What there is to say about a line, given the line that it becomes. -/
def Line.mismatchM (tab index : Nat) (l placed : Line) : m (Option Mismatch) := do
  let actual ← l.indentationM p tab
  let expected ← placed.indentationM p tab
  pure (if actual = expected then none else some ⟨index, expected, actual⟩)

/-- The text of a buffer, for which there has to be room. -/
def Buffer.toTextM (b : Buffer) : m String := do
  p.room (bytes (joinLines (b.lines.map Line.chars)))
  pure b.toText

end OnPlatform

section OnEngine

variable {m : Type → Type} [Monad m] (e : Engine m) (cfg : Config)

def Buffer.reindentM (b : Buffer) : m Buffer := do
  let rows ← reindentBelowM e.toPlatform (Focus.indentM e cfg) [] b.rows
  pure ⟨rows.map Row.toLine⟩

/-- The lines with content whose indentation re-indenting would change. -/
def Buffer.checkM (b : Buffer) : m (List Mismatch) := do
  let placed ← b.reindentM e cfg
  let compared := (b.rows.zip placed.lines).filter fun x => !x.1.isBlank
  let found ← compared.mapM fun x => x.1.mismatchM e.toPlatform cfg.tab x.1.index x.2
  pure (found.filterMap id)

def reindentTextM (text : String) : m String := do
  let placed ← (Buffer.ofText text).reindentM e cfg
  placed.toTextM e.toPlatform

end OnEngine

/-- The engine that the program runs with. -/
def Machine.engine (machine : Machine) : Engine Run := .on machine.platform

/-- The row in focus at its proper column. -/
def Focus.reindented (cfg : Config) (f : Focus) : Row :=
  Row.of f.row.index (Id.run (f.placedM .plain (Focus.indentM (.on .plain) cfg)))

def reindentBelow (cfg : Config) (above rows : List Row) : List Row :=
  Id.run (reindentBelowM .plain (Focus.indentM (.on .plain) cfg) above rows)

def Line.mismatch? (tab index : Nat) (l placed : Line) : Option Mismatch :=
  Id.run (l.mismatchM .plain tab index placed)

theorem Focus.reindented_eq (cfg : Config) (f : Focus) :
    f.reindented cfg = match f.row.start with
      | .block => f.row
      | .code => Row.of f.row.index
          (f.row.setIndentation (if f.row.isBlank then 0 else f.indent cfg)) := by
  unfold reindented placedM
  cases f.row.start with
  | block => exact Row.ext_line rfl rfl
  | code => cases f.row.isBlank <;> rfl

theorem Line.mismatch?_eq (tab index : Nat) (l placed : Line) :
    l.mismatch? tab index placed = if l.indentation tab = placed.indentation tab then none
      else some ⟨index, placed.indentation tab, l.indentation tab⟩ := rfl

theorem reindentBelow_nil (cfg : Config) (above : List Row) : reindentBelow cfg above [] = [] := rfl

theorem reindentBelow_cons (cfg : Config) (above : List Row) (r : Row) (rest : List Row) :
    reindentBelow cfg above (r :: rest) =
      Focus.reindented cfg ⟨above, r⟩ ::
        reindentBelow cfg (Focus.reindented cfg ⟨above, r⟩ :: above) rest := rfl

namespace Buffer

def reindent (cfg : Config) (b : Buffer) : Buffer := Id.run (b.reindentM (.on .plain) cfg)

/-- How many lines differ between two buffers, line by line. -/
def changes (b c : Buffer) : Nat := (b.lines.zip c.lines).countP fun (l, m) => l.chars != m.chars

def check (cfg : Config) (b : Buffer) : List Mismatch := Id.run (b.checkM (.on .plain) cfg)

theorem reindent_eq (cfg : Config) (b : Buffer) :
    b.reindent cfg = ⟨(reindentBelow cfg [] b.rows).map Row.toLine⟩ := rfl

theorem check_eq_filterMap (cfg : Config) (b : Buffer) :
    b.check cfg = ((b.rows.zip (b.reindent cfg).lines).filter fun x => !x.1.isBlank).filterMap fun x =>
      x.1.mismatch? cfg.tab x.1.index x.2 := by
  have hfound := List.idRun_mapM (l := (b.rows.zip (b.reindent cfg).lines).filter fun x => !x.1.isBlank)
    (f := fun x => x.1.mismatchM .plain cfg.tab x.1.index x.2)
  refine (congrArg (List.filterMap id) hfound).trans ?_
  rw [List.filterMap_map]
  rfl

end Buffer

def reindentText (cfg : Config) (text : String) : String := Id.run (reindentTextM (.on .plain) cfg text)

theorem reindentText_eq (cfg : Config) (text : String) :
    reindentText cfg text = ((Buffer.ofText text).reindent cfg).toText := rfl

/-- One line about a mismatch, numbered from one. -/
def Mismatch.summary (m : Mismatch) (file : String) : String :=
  s!"{file}:{m.line + 1}: expected indent {m.expected}, found {m.actual}"

end BffLayout
