import BffLayout.Line

/-!
Buffers. A buffer holds its lines, each with the state it starts in, so that a line can be read
without those above it. Questions about structure are asked of a row in focus: a numbered line
together with the rows above it, nearest first. Nothing below the row can take part in an answer.
-/
namespace BffLayout

structure Position where
  line : Nat
  column : Nat
  deriving DecidableEq, Repr

/-- A line and its number. A row keeps the brackets of its line, since every search backwards
passes over them. -/
structure Row extends Line where
  index : Nat
  marks : List (Nat × Char)
  marks_eq : marks = toLine.brackets
  deriving DecidableEq, Repr

structure Spot where
  row : Row
  column : Nat
  deriving DecidableEq, Repr

/-- A character outside strings and comments, with its place. -/
structure CodeChar extends Spot where
  char : Char
  deriving DecidableEq, Repr

/-- A row and the rows above it, nearest first. -/
structure Focus where
  above : List Row
  row : Row
  deriving DecidableEq, Repr

structure Buffer where
  lines : List Line
  deriving DecidableEq, Repr

def Spot.position (s : Spot) : Position := ⟨s.row.index, s.column⟩

namespace Row

def of (index : Nat) (l : Line) : Row := ⟨l, index, l.brackets, rfl⟩

/-- A row is its line and its number. -/
theorem ext_line {r s : Row} (line : r.toLine = s.toLine) (index : r.index = s.index) : r = s := by
  obtain ⟨l, i, m, rfl⟩ := r
  obtain ⟨l', i', m', rfl⟩ := s
  cases line
  cases index
  rfl

def code (r : Row) : List CodeChar := r.codeChars.map fun (column, c) => ⟨⟨r, column⟩, c⟩

def brackets (r : Row) : List CodeChar := r.marks.map fun (column, c) => ⟨⟨r, column⟩, c⟩

/-- The brackets are those of the code. -/
theorem brackets_eq (r : Row) : r.brackets = r.code.filter fun c => isBracket c.char := by
  simp only [brackets, code, r.marks_eq, Line.brackets, List.filter_map]
  rfl

end Row

/-- The code of the rows, last character first. -/
def codeBack (above : List Row) : List CodeChar := above.flatMap fun r => r.code.reverse

/-- The nearest row that is not blank, in focus. -/
def nearest? : List Row → Option Focus
  | [] => none
  | r :: above => if r.isBlank then nearest? above else some ⟨above, r⟩

namespace Focus

/-- The code before `column` of the row in focus, last character first. -/
def codeBefore (f : Focus) (column : Nat) : List CodeChar :=
  (f.row.code.filter fun c => c.column < column).reverse ++ codeBack f.above

/-- The brackets in that code. -/
def bracketsBefore (f : Focus) (column : Nat) : List CodeChar :=
  (f.row.brackets.filter fun c => c.column < column).reverse ++
    f.above.flatMap fun r => r.brackets.reverse

theorem bracketsBefore_eq (f : Focus) (column : Nat) :
    f.bracketsBefore column = (f.codeBefore column).filter fun c => isBracket c.char := by
  simp only [bracketsBefore, codeBefore, codeBack, Row.brackets_eq, List.filter_append,
    List.filter_reverse, List.filter_flatMap, List.filter_filter, Bool.and_comm]

def previous? (f : Focus) : Option Focus := nearest? f.above

end Focus

/-- Every line in focus below the rows `above`, where the first one has number `index`. -/
def fociBelow : (above : List Row) → (index : Nat) → List Line → List Focus
  | _, _, [] => []
  | above, index, l :: rest =>
    ⟨above, Row.of index l⟩ :: fociBelow (Row.of index l :: above) (index + 1) rest

/-- The lines of a text, where the first one starts in state `s`. -/
def linesFrom : ScanState → List (List Char) → List Line
  | _, [] => []
  | s, cs :: rest => ⟨s, cs⟩ :: linesFrom (Line.next ⟨s, cs⟩) rest

/-- Reading lines keeps their text. -/
@[simp] theorem map_chars_linesFrom (s : ScanState) (lines : List (List Char)) :
    (linesFrom s lines).map Line.chars = lines := by
  induction lines generalizing s with
  | nil => rfl
  | cons cs rest ih => rw [linesFrom, List.map_cons, ih]

namespace Buffer

def ofLines (lines : List (List Char)) : Buffer := ⟨linesFrom .code lines⟩

def ofText (text : String) : Buffer := ofLines ((splitLines text.toList).map dropReturn)

def toText (b : Buffer) : String := String.ofList (joinLines (b.lines.map Line.chars))

def count (b : Buffer) : Nat := b.lines.length

def rows (b : Buffer) : List Row := b.lines.zipIdx.map fun (l, i) => Row.of i l

/-- The rows before line `index`, nearest first. -/
def above (b : Buffer) (index : Nat) : List Row := (b.rows.take index).reverse

def focus? (b : Buffer) (index : Nat) : Option Focus :=
  b.rows[index]?.map fun r => ⟨b.above index, r⟩

/-- Every line in focus, from the top. -/
def foci (b : Buffer) : List Focus := fociBelow [] 0 b.lines

/-- The state line `index` starts in; a missing line starts in code. -/
def startState (b : Buffer) (index : Nat) : ScanState :=
  match b.lines[index]? with
  | some l => l.start
  | none => .code

/-- Whether line `index` is blank; a missing line is. -/
def isBlank (b : Buffer) (index : Nat) : Bool :=
  match b.lines[index]? with
  | some l => l.isBlank
  | none => true

/-- The indentation of line `index`; a missing line has none. -/
def indentation (b : Buffer) (index tab : Nat) : Nat :=
  match b.lines[index]? with
  | some l => l.indentation tab
  | none => 0

/-- The number of the last line before `index` that is not blank. -/
def previousNonBlank? (b : Buffer) (index : Nat) : Option Nat :=
  (nearest? (b.above index)).map fun f => f.row.index

/-- Replaces the indentation of one line and keeps the state every line starts in. -/
def setIndentation (b : Buffer) (index n : Nat) : Buffer :=
  ⟨b.lines.modify index fun l => l.setIndentation n⟩

/-- The code before a position, last character first; nothing if its line is missing. -/
def codeBefore (b : Buffer) (p : Position) : List CodeChar :=
  match b.focus? p.line with
  | some f => f.codeBefore p.column
  | none => []

/-- The lines in focus are those found by number. -/
theorem getElem?_foci (b : Buffer) (index : Nat) : b.foci[index]? = b.focus? index := by
  suffices h : ∀ (lines : List Line) (above : List Row) (first index : Nat),
      (fociBelow above first lines)[index]? =
        ((lines.zipIdx first).map fun (l, i) => Row.of i l)[index]?.map fun r =>
          ⟨(((lines.zipIdx first).map fun (l, i) => Row.of i l).take index).reverse ++ above, r⟩ by
    simpa [foci, focus?, Buffer.above, rows] using h b.lines [] 0 index
  intro lines
  induction lines with
  | nil => simp [fociBelow]
  | cons l rest ih =>
    intro above first index
    cases index with
    | zero => simp [fociBelow]
    | succ n => simp [fociBelow, ih]

end Buffer

end BffLayout
