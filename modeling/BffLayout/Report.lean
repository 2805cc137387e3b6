import BffLayout.Reindent

/-!
Reports. A notice points at the white characters a line begins with, as a range of character offsets
in the source text; lines are counted by line feeds alone, so a carriage return is part of its line.
Any printer can be given the notices. The one here draws a heading, the place, the line of text with
its number, a bar under the labelled characters, and an arm from the middle of the bar to the message.
It shows text by display lines, which end at every character that breaks a line.
-/
namespace BffLayout.Report

/-- The characters from offset `start` to just before offset `stop`. -/
structure Label where
  start : Nat
  stop : Nat
  deriving DecidableEq, Repr

/-- A mismatch and the place in the source that it is about. -/
structure Notice where
  mismatch : Mismatch
  label : Label
  deriving DecidableEq, Repr

def lineOffset (lines : List (List Char)) (index : Nat) : Nat :=
  (lines.take index).foldl (fun offset line => offset + line.length + 1) 0

/-- The number of spaces and tabs at the start of a line, but at least one. -/
def labelWidth (line : List Char) : Nat := max 1 (line.takeWhile fun c => c == ' ' || c == '\t').length

def label? (lines : List (List Char)) (index : Nat) : Option Label :=
  lines[index]?.map fun line => ⟨lineOffset lines index, lineOffset lines index + labelWidth line⟩

/-- One notice for each mismatch on a line of the source, in order. -/
def notices (source : String) (mismatches : List Mismatch) : List Notice :=
  let lines := splitLines source.toList
  mismatches.filterMap fun m => (label? lines m.line).map fun label => ⟨m, label⟩

/-- How notices are printed: what is made of a file and its text beforehand, and a text for each notice. -/
structure Printer where
  Page : Type
  page : (file source : String) → Page
  print : Page → Notice → String

/-- The reports on all mismatches, one after another. -/
def render (printer : Printer) (file source : String) (mismatches : List Mismatch) : String :=
  let page := printer.page file source
  String.join ((notices source mismatches).map (printer.print page))

inductive Paint where
  | warning
  | frame
  | margin
  | text
  deriving DecidableEq, Repr

structure Piece where
  paint : Option Paint
  text : String
  deriving DecidableEq, Repr

/-- A line as it is displayed: its number from zero, the offset of its first character, and its
characters with the break at the end. -/
structure DisplayLine where
  number : Nat
  offset : Nat
  chars : List Char
  deriving DecidableEq, Repr

def Paint.escape : Paint → String
  | warning => "33"
  | frame => "38;5;246"
  | margin => "38;5;240"
  | text => "38;5;249"

def Piece.render (color : Bool) (p : Piece) : String :=
  match color, p.paint with
  | true, some paint => "\x1b[" ++ paint.escape ++ "m" ++ p.text ++ "\x1b[0m"
  | _, _ => p.text

def plain (text : String) : Piece := ⟨none, text⟩

def painted (paint : Paint) (text : String) : Piece := ⟨some paint, text⟩

def spaces (n : Nat) : String := String.ofList (List.replicate n ' ')

/-- Line feed, vertical tab, form feed, carriage return, next line, and the two separators. -/
def isBreak (c : Char) : Bool :=
  [0xA, 0xB, 0xC, 0xD, 0x85, 0x2028, 0x2029].contains c.toNat

/-- Cuts after every break; a carriage return and the line feed after it are one break. -/
def cutAfterBreaks : List Char → List (List Char)
  | [] => []
  | '\r' :: '\n' :: rest => ['\r', '\n'] :: cutAfterBreaks rest
  | c :: rest =>
    if isBreak c then [c] :: cutAfterBreaks rest
    else match cutAfterBreaks rest with
      | [] => [[c]]
      | line :: more => (c :: line) :: more

/-- Numbers the lines and gives each its offset. -/
def displayFrom : (number offset : Nat) → List (List Char) → List DisplayLine
  | _, _, [] => []
  | number, offset, cs :: rest => ⟨number, offset, cs⟩ :: displayFrom (number + 1) (offset + cs.length) rest

def displayLines (source : String) : List DisplayLine := displayFrom 0 0 (cutAfterBreaks source.toList)

/-- The display line that holds the character at `offset`; the last one beyond the end. -/
def lineAt? (lines : List DisplayLine) (offset : Nat) : Option DisplayLine :=
  (lines.takeWhile fun line => line.offset ≤ offset).getLast?

namespace DisplayLine

/-- The characters that are drawn: all up to the last that is not white. -/
def shown (line : DisplayLine) : List Char := (line.chars.reverse.dropWhile isWhite).reverse

/-- The columns that the character with index `i` takes; tabs stop at multiples of four characters. -/
def columns (line : DisplayLine) (i : Nat) : Nat :=
  if line.shown[i]? = some '\t' then (i / 4 + 1) * 4 - i else 1

def numeral (line : DisplayLine) : String := toString (line.number + 1)

/-- The left margin of a row without a number. -/
def margin (line : DisplayLine) : List Piece :=
  [plain " ", painted .margin (spaces (line.numeral.length + 1) ++ "│"), plain " "]

/-- The text, where the first `w` characters are labelled. -/
def textRow (line : DisplayLine) (w : Nat) : List Piece :=
  let cells := line.shown.zipIdx.flatMap fun (c, i) =>
    let drawn := String.ofList [if isWhite c then ' ' else c]
    List.replicate (line.columns i) (painted (if i < w then .warning else .text) drawn)
  [plain " ", painted .frame (line.numeral ++ " │"), plain " "] ++ cells ++ [plain "\n"]

/-- A row of line drawing. The pieces for column `i` are `bar i`, drawn as often as the column is wide. -/
def drawnRow (line : DisplayLine) (w : Nat) (bar : Nat → Piece × Piece) : List Piece :=
  line.margin ++ (List.range (w + 2)).flatMap fun i =>
    (bar i).1 :: List.replicate (line.columns i - 1) (bar i).2

/-- The bar under `w` labelled characters, with a joint in the middle. -/
def barRow (line : DisplayLine) (w : Nat) : List Piece :=
  let bar := fun i =>
    if i = w / 2 then (painted .warning "┬", painted .warning "─")
    else if i < w then (painted .warning "─", painted .warning "─")
    else (plain " ", plain " ")
  line.drawnRow w bar ++ [plain "\n"]

/-- The arm from the joint to the message. -/
def armRow (line : DisplayLine) (w : Nat) (message : String) : List Piece :=
  let arm := fun i =>
    if i < w / 2 then (plain " ", plain " ")
    else if i = w / 2 then (painted .warning "╰", painted .warning "─")
    else (painted .warning "─", painted .warning "─")
  line.drawnRow w arm ++ [plain (" " ++ message ++ "\n")]

end DisplayLine

def Notice.message (n : Notice) : String :=
  s!"expected {n.mismatch.expected} columns, found {n.mismatch.actual}"

/-- The rows about the label; a label that goes beyond its display line leaves an empty row. -/
def Notice.body (n : Notice) (line : DisplayLine) : List Piece :=
  let w := n.label.stop - n.label.start
  if n.label.stop > line.offset + line.chars.length then line.margin ++ [plain "\n"]
  else line.textRow w ++ line.barRow w ++ line.armRow w n.message

def Notice.heading (n : Notice) : List Piece :=
  [painted .warning "Warning:", plain s!" wrong indentation on line {n.mismatch.line + 1}\n"]

/-- The file, the line and the column, inside the top of the frame. -/
def Notice.place (n : Notice) (file : String) (line : DisplayLine) : List Piece :=
  let indent := plain (spaces (line.numeral.length + 2))
  let column := n.label.start - line.offset + 1
  [indent, painted .frame "╭", painted .frame "─", painted .frame "[",
    plain s!"{file}:{line.numeral}:{column}", painted .frame "]", plain "\n",
    indent, painted .frame "│", plain "\n"]

def DisplayLine.bottom (line : DisplayLine) : List Piece :=
  [painted .frame (String.ofList (List.replicate (line.numeral.length + 2) '─') ++ "╯"), plain "\n"]

def Notice.draw (file : String) (lines : List DisplayLine) (n : Notice) : List Piece :=
  match lineAt? lines n.label.start with
  | none => n.heading
  | some line => n.heading ++ n.place file line ++ n.body line ++ line.bottom

/-- Draws every notice on its own. -/
def drawing (color : Bool) : Printer where
  Page := String × List DisplayLine
  page file source := (file, displayLines source)
  print page n := String.join ((n.draw page.1 page.2).map (Piece.render color))

end BffLayout.Report
