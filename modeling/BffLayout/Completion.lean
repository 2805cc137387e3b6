import BffLayout.Statement
import BffLayout.Vocabulary

/-!
Completion at a cursor. The name being typed is the run of name characters that ends at the cursor,
and the character before it says what is named: a property after a point, a directive after a hash,
a variable after a dollar sign that opens a reference, else a plain word. Comments complete nothing,
and strings only references.
-/
namespace BffLayout

inductive Context where
  | property
  | directive
  | reference
  | word
  deriving DecidableEq, Repr

structure Completion where
  context : Context
  typed : String
  /-- The function whose body the cursor is in, for a property. -/
  function : Option String
  candidates : List String
  deriving DecidableEq, Repr

/-- Splits the name characters that stand side by side, ending before column `stop` of one row, off
code read backwards. -/
def nameBack (index stop : Nat) : List CodeChar → List Char × List CodeChar
  | [] => ([], [])
  | c :: before =>
    if c.row.index = index ∧ c.column + 1 = stop ∧ isNameChar c.char then
      let (name, rest) := nameBack index c.column before
      (c.char :: name, rest)
    else ([], c :: before)

def dropWhiteCode (code : List CodeChar) : List CodeChar := code.dropWhile fun c => isWhite c.char

/-- The function name at the end of the code; a name after a point or a dollar sign is a variable,
and no name starts with a digit. -/
def nameAtEnd? (code : List CodeChar) : Option String :=
  match dropWhiteCode code with
  | [] => none
  | last :: before =>
    let (back, rest) := nameBack last.row.index (last.column + 1) (last :: before)
    if rest.head?.any fun c => c.char == '.' || c.char == '$' then none
    else match back.reverse with
      | [] => none
      | c :: name => if c.isAlpha || c == '_' then some (String.ofList (c :: name)) else none

/-- The function that a body opened right after this code belongs to: the code ends with a name, or
with a name and its arguments in parentheses. -/
def header? (code : List CodeChar) : Option String :=
  match dropWhiteCode code with
  | [] => none
  | last :: before =>
    if last.char = Bracket.paren.closer then
      match Bracket.paren.openers 0 before with
      | (_, earlier) :: _ => nameAtEnd? earlier
      | [] => none
    else nameAtEnd? (last :: before)

/-- The innermost function whose body is open at the end of the code. -/
def enclosingFunction? (code : List CodeChar) : Option String :=
  (Bracket.brace.openers 0 code).findSome? fun (_, before) => header? before

def afterCaret (cells : List Cell) : Bool := cells.head?.any fun cell => cell.char == '^'

/-- The unescaped dollar signs in the run of kind `k` at the start of cells read backwards. -/
def dollarsBack (k : Kind) : List Cell → Nat
  | [] => 0
  | cell :: before =>
    if cell.kind = k then
      (if cell.char = '$' ∧ afterCaret before = false then 1 else 0) + dollarsBack k before
    else 0

/-- Whether the dollar sign that cells read backwards begin with opens a reference, being unescaped
and after an even number of others, rather than closing one. -/
def opensReference : List Cell → Bool
  | [] => false
  | dollar :: before => !afterCaret before && dollarsBack dollar.kind before % 2 == 0

/-- What is named after the cells `before`, read backwards, in text of kind `k`. -/
def Context.of? (k : Kind) (before : List Cell) : Option Context :=
  let mark := before.head?.map Cell.char
  if mark = some '$' ∧ (k = .code ∨ k = .string) ∧ opensReference before then some reference
  else if k ≠ .code then none
  else if mark = some '.' then some property
  else if mark = some '#' then some directive
  else some word

def Context.pool (function : Option String) : Context → List String
  | property => (function.bind Vocabulary.propertiesOf?).getD Vocabulary.properties
  | directive => Vocabulary.directives
  | reference => Vocabulary.builtinVariables
  | word => Vocabulary.words

/-- Whether `name` begins with `typed`, the case of ASCII letters aside. -/
def beginsWith (typed name : List Char) : Bool := (typed.map Char.toLower).isPrefixOf (name.map Char.toLower)

def Focus.complete? (f : Focus) (column : Nat) : Option Completion :=
  let line := f.row.upTo column
  let back := line.cells.reverse
  let typed := (back.takeWhile fun cell => isNameChar cell.char).reverse.map Cell.char
  let before := back.dropWhile fun cell => isNameChar cell.char
  (Context.of? line.openAtEnd before).map fun context =>
    let function := if context = .property then enclosingFunction? (f.codeBefore before.length) else none
    ⟨context, String.ofList typed, function,
      (context.pool function).filter fun name => beginsWith typed name.toList⟩

namespace Buffer

def enclosingFunction? (b : Buffer) (p : Position) : Option String :=
  BffLayout.enclosingFunction? (b.codeBefore p)

/-- The completion at a position, which must lie on a line or at its end. -/
def complete (b : Buffer) (p : Position) : Except Error (Option Completion) :=
  match b.focus? p.line with
  | none => .error (.lineOutOfRange p.line b.count)
  | some f =>
    if p.column ≤ f.row.length then .ok (f.complete? p.column)
    else .error (.columnOutOfRange p.column p.line f.row.length)

end Buffer

end BffLayout
