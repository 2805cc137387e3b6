import BffLayout.Lexis
import BffLayout.Text

/-!
Lines and their brackets. A line is its characters and the scan state they start in, which together
fix the kind of every character. Code is what remains when strings and comments are left out; a line
leads with a code character when its first character that is not white is code. Braces and square
brackets nest; parentheses are matched but do not move any line.
-/
namespace BffLayout

inductive Bracket where
  | brace
  | square
  | paren
  deriving DecidableEq, Repr

namespace Bracket

def opener : Bracket → Char
  | brace => '\x7b'
  | square => '['
  | paren => '('

def closer : Bracket → Char
  | brace => '\x7d'
  | square => ']'
  | paren => ')'

/-- Whether the bracket moves the lines it encloses. -/
def nests : Bracket → Bool
  | brace | square => true
  | paren => false

def all : List Bracket := [brace, square, paren]

def ofOpener? (c : Char) : Option Bracket := all.find? fun b => b.opener == c

def ofCloser? (c : Char) : Option Bracket := all.find? fun b => b.closer == c

end Bracket

def isBracket (c : Char) : Bool := (Bracket.ofOpener? c).isSome || (Bracket.ofCloser? c).isSome

def nestingOpener? (c : Char) : Option Bracket := (Bracket.ofOpener? c).filter Bracket.nests

def nestingCloser? (c : Char) : Option Bracket := (Bracket.ofCloser? c).filter Bracket.nests

def isNestingCloser (c : Char) : Bool := (nestingCloser? c).isSome

structure Line where
  start : ScanState
  chars : List Char
  deriving DecidableEq, Repr

/-- A maximal run of characters of one kind; `stop` is the column after the last of them. -/
structure Span where
  kind : Kind
  start : Nat
  stop : Nat
  deriving DecidableEq, Repr

/-- The maximal runs of `cells`, whose first cell stands in column `column`. -/
def spansFrom : Nat → List Cell → List Span
  | _, [] => []
  | column, c :: rest =>
    match spansFrom (column + 1) rest with
    | [] => [⟨c.kind, column, column + 1⟩]
    | s :: more =>
      if s.kind = c.kind then ⟨c.kind, column, s.stop⟩ :: more
      else ⟨c.kind, column, column + 1⟩ :: s :: more

namespace Line

def length (l : Line) : Nat := l.chars.length

def cells (l : Line) : List Cell := l.start.mode.tag l.chars

/-- What the line is in the middle of when it ends. -/
def finish (l : Line) : Mode := l.start.mode.run l.chars

/-- The kind of text left open at the end of the line. -/
def openAtEnd (l : Line) : Kind := l.finish.kind

/-- The state in which the line below starts. -/
def next (l : Line) : ScanState := l.finish.atLineEnd

def spans (l : Line) : List Span := spansFrom 0 l.cells

/-- The line cut before `column`. -/
def upTo (l : Line) (column : Nat) : Line := { l with chars := l.chars.take column }

/-- The code characters with their columns, left to right. -/
def codeChars (l : Line) : List (Nat × Char) :=
  l.cells.zipIdx.filterMap fun (cell, column) =>
    if cell.kind = .code then some (column, cell.char) else none

/-- The brackets in code with their columns, left to right. -/
def brackets (l : Line) : List (Nat × Char) := l.codeChars.filter fun p => isBracket p.2

/-- The first character that is not white. -/
def first? (l : Line) : Option (Nat × Cell) :=
  (l.cells.zipIdx.find? fun (cell, _) => !isWhite cell.char).map fun (cell, column) => (column, cell)

/-- The first character that is not white, provided that it is code. -/
def leading? (l : Line) : Option (Nat × Char) :=
  match l.first? with
  | some (column, ⟨c, .code⟩) => some (column, c)
  | _ => none

/-- The last code character that is not white. -/
def trailing? (l : Line) : Option (Nat × Char) :=
  l.codeChars.reverse.find? fun (_, c) => !isWhite c

def leadsWith (l : Line) (p : Char → Bool) : Bool :=
  match l.leading? with
  | some (_, c) => p c
  | none => false

/-- A line is blank when it holds nothing but white characters. -/
def isBlank (l : Line) : Bool := allWhite l.chars

def indentation (l : Line) (tab : Nat) : Nat := indentWidth tab l.chars

/-- The line with `n` spaces in place of its leading white characters, empty if it was blank. -/
def setIndentation (l : Line) (n : Nat) : Line := { l with chars := withIndent n l.chars }

section OnPlatform

variable {m : Type → Type} [Monad m] (p : Platform m)

def indentationM (l : Line) (tab : Nat) : m Nat := indentWidthM p tab l.chars

def setIndentationM (l : Line) (n : Nat) : m Line := do
  let chars ← withIndentM p n l.chars
  pure { l with chars }

end OnPlatform

@[simp] theorem length_cells (l : Line) : l.cells.length = l.length := Mode.length_tag ..

@[simp] theorem start_setIndentation (l : Line) (n : Nat) : (l.setIndentation n).start = l.start := rfl

end Line

end BffLayout
