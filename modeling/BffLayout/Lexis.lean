/-!
Lexical kinds. The scanner reads a line one character at a time, sees at most one character
ahead, and gives every character one kind. Only an open block comment lasts beyond the end of
its line: strings and line comments end with it.
-/
namespace BffLayout

inductive Kind where
  | code
  | string
  | lineComment
  | blockComment
  deriving DecidableEq, Repr

/-- What a line can start in the middle of. -/
inductive ScanState where
  | code
  | block
  deriving DecidableEq, Repr

/-- What the scanner is in the middle of. -/
inductive Mode where
  | code
  | string (quote : Char)
  /-- In a string, after the caret that takes the next character's meaning away. -/
  | escape (quote : Char)
  | lineComment
  /-- Between the two characters that open a block comment. -/
  | opening
  | block
  /-- In a block comment, after a star that a slash would make its end. -/
  | star
  deriving DecidableEq, Repr

structure Cell where
  char : Char
  kind : Kind
  deriving DecidableEq, Repr

def isQuote (c : Char) : Bool := c == '\x22' || c == '\x27'

namespace Mode

/-- The kind of `c` and the mode after it; `next` is the character that follows on the line. -/
def step : Mode → Char → Option Char → Kind × Mode
  | code, c, next =>
    if isQuote c then (.string, string c)
    else if c = ';' then (.lineComment, lineComment)
    else if c = '/' ∧ next = some '/' then (.lineComment, lineComment)
    else if c = '/' ∧ next = some '*' then (.blockComment, opening)
    else (.code, code)
  | string quote, c, _ =>
    (.string, if c = quote then code else if c = '^' then escape quote else string quote)
  | escape quote, _, _ => (.string, string quote)
  | lineComment, _, _ => (.lineComment, lineComment)
  | opening, _, _ => (.blockComment, block)
  | block, c, _ => (.blockComment, if c = '*' then star else block)
  | star, c, _ => (.blockComment, if c = '/' then code else if c = '*' then star else block)

def run : Mode → List Char → Mode
  | m, [] => m
  | m, c :: rest => run (m.step c rest.head?).2 rest

/-- Every character of `cs` with its kind. -/
def tag : Mode → List Char → List Cell
  | _, [] => []
  | m, c :: rest =>
    let (kind, after) := m.step c rest.head?
    ⟨c, kind⟩ :: tag after rest

/-- The kind of text that a mode is in the middle of. -/
def kind : Mode → Kind
  | code => .code
  | string _ | escape _ => .string
  | lineComment => .lineComment
  | opening | block | star => .blockComment

/-- What is left of a mode when its line ends. -/
def atLineEnd (m : Mode) : ScanState :=
  match m.kind with
  | .blockComment => .block
  | _ => .code

@[simp] theorem tag_nil (m : Mode) : m.tag [] = [] := rfl

@[simp] theorem tag_cons (m : Mode) (c : Char) (rest : List Char) :
    m.tag (c :: rest) = ⟨c, (m.step c rest.head?).1⟩ :: (m.step c rest.head?).2.tag rest := rfl

@[simp] theorem run_nil (m : Mode) : m.run [] = m := rfl

@[simp] theorem run_cons (m : Mode) (c : Char) (rest : List Char) :
    m.run (c :: rest) = (m.step c rest.head?).2.run rest := rfl

@[simp] theorem map_char_tag (m : Mode) (cs : List Char) : (m.tag cs).map Cell.char = cs := by
  induction cs generalizing m with
  | nil => rfl
  | cons c rest ih => simp [ih]

@[simp] theorem length_tag (m : Mode) (cs : List Char) : (m.tag cs).length = cs.length := by
  induction cs generalizing m with
  | nil => rfl
  | cons c rest ih => simp [ih]

end Mode

/-- The mode in which a line that starts in this state is read. -/
def ScanState.mode : ScanState → Mode
  | code => .code
  | block => .block

end BffLayout
