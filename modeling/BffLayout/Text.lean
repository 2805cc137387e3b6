import BffLayout.Machine

/-!
Text: its white characters, its names, its columns and its lines. White characters are those with the
White_Space property, which zero-width characters and the byte order mark do not have. A tab moves to
the next multiple of the tab width and any other character takes one column. A line feed separates two
lines, so the empty text is one empty line. One carriage return before a line feed or the end of the
text belongs to the line break.
-/
namespace BffLayout

/-- The inclusive code point ranges of White_Space, in ascending order. -/
def whiteRanges : List (Nat × Nat) :=
  [(0x9, 0xD), (0x20, 0x20), (0x85, 0x85), (0xA0, 0xA0), (0x1680, 0x1680), (0x2000, 0x200A),
    (0x2028, 0x2029), (0x202F, 0x202F), (0x205F, 0x205F), (0x3000, 0x3000)]

def isWhite (c : Char) : Bool :=
  whiteRanges.any fun r => r.1 ≤ c.toNat && c.toNat ≤ r.2

def allWhite (cs : List Char) : Bool := cs.all isWhite

/-- The text without its leading white characters. -/
def dropWhite (cs : List Char) : List Char := cs.dropWhile isWhite

/-- The leading white characters of the text. -/
def takeWhite (cs : List Char) : List Char := cs.takeWhile isWhite

theorem takeWhite_append_dropWhite (cs : List Char) : takeWhite cs ++ dropWhite cs = cs :=
  List.takeWhile_append_dropWhile

theorem dropWhite_eq_nil_iff (cs : List Char) : dropWhite cs = [] ↔ allWhite cs = true := by
  induction cs with
  | nil => simp [dropWhite, allWhite]
  | cons c rest ih => cases h : isWhite c <;> simp_all [dropWhite, allWhite]

/-- Names are made of ASCII letters, ASCII digits and underscores. -/
def isNameChar (c : Char) : Bool := c.isAlphanum || c == '_'

/-- The column after `c`, when `c` starts in column `w` and columns have no bound. -/
def nextColumn (tab w : Nat) (c : Char) : Nat :=
  if c = '\t' then (w / tab + 1) * tab else w + 1

section Columns

variable {m : Type → Type} [Monad m] (p : Platform m)

def advanceM (tab w : Nat) (c : Char) : m Nat := p.word (nextColumn tab w c)

/-- Columns taken by a text that starts a line. A tab width of zero counts as one. -/
def widthM (tab : Nat) (cs : List Char) : m Nat := cs.foldlM (advanceM p (max tab 1)) 0

def visualColumnM (tab : Nat) (cs : List Char) (column : Nat) : m Nat := widthM p tab (cs.take column)

def indentWidthM (tab : Nat) (cs : List Char) : m Nat := widthM p tab (takeWhite cs)

end Columns

def advance (tab w : Nat) (c : Char) : Nat := Id.run (advanceM .plain tab w c)

def width (tab : Nat) (cs : List Char) : Nat := Id.run (widthM .plain tab cs)

theorem width_eq (tab : Nat) (cs : List Char) : width tab cs = cs.foldl (advance (max tab 1)) 0 :=
  List.idRun_foldlM ..

/-- The visual column of the character with index `column`. -/
def visualColumn (tab : Nat) (cs : List Char) (column : Nat) : Nat := width tab (cs.take column)

/-- The visual column of the first character that is not white. -/
def indentWidth (tab : Nat) (cs : List Char) : Nat := width tab (takeWhite cs)

/-- The length of the text in memory. -/
def bytes (cs : List Char) : Nat := cs.foldr (fun c n => c.utf8Size + n) 0

/-- The same content after `n` spaces; an all-white text becomes empty instead. -/
def withIndentM {m : Type → Type} [Monad m] (p : Platform m) (n : Nat) (cs : List Char) : m (List Char) :=
  match dropWhite cs with
  | [] => pure []
  | content => do
    p.room (n + bytes content)
    pure (List.replicate n ' ' ++ content)

def withIndent (n : Nat) (cs : List Char) : List Char := Id.run (withIndentM .plain n cs)

theorem withIndent_eq (n : Nat) (cs : List Char) :
    withIndent n cs = match dropWhite cs with
      | [] => []
      | content => List.replicate n ' ' ++ content := by
  unfold withIndent withIndentM
  cases dropWhite cs <;> rfl

/-- Cuts at every line feed. -/
def splitLines : List Char → List (List Char)
  | [] => [[]]
  | c :: rest =>
    if c = '\n' then [] :: splitLines rest
    else match splitLines rest with
      | [] => [[c]]
      | line :: more => (c :: line) :: more

def joinLines (lines : List (List Char)) : List Char := List.intercalate ['\n'] lines

/-- Drops one carriage return from the end. -/
def dropReturn (cs : List Char) : List Char :=
  if cs.getLast? = some '\r' then cs.dropLast else cs

end BffLayout
