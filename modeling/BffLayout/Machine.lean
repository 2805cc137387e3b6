/-!
What a run is given and what can end it. A configuration holds the columns of one level and the width of
a tab, both positive. Each cause of an error has a code, one message and at most one hint; lines and
columns are numbered from zero, as they were asked for. On the machine columns are words of 64 bits, depths
and moves are signed numbers of 32 and 64 bits, and a text has to find room in memory. A function that
needs such numbers or texts is written over any platform. On the plain one numbers wrap around and there
is room for every text, so it is a function like any other; on a machine a run may stop with a fault.
-/
namespace BffLayout

inductive Error where
  | indentUnitZero
  | tabWidthZero
  | lineOutOfRange (line count : Nat)
  | columnOutOfRange (column line length : Nat)
  deriving DecidableEq, Repr

namespace Error

/-- Whether the configuration is at fault rather than a line or column. -/
def isConfiguration : Error → Bool
  | indentUnitZero | tabWidthZero => true
  | lineOutOfRange .. | columnOutOfRange .. => false

def code : Error → String
  | indentUnitZero => "E001"
  | tabWidthZero => "E002"
  | lineOutOfRange .. => "E010"
  | columnOutOfRange .. => "E011"

def message : Error → String
  | indentUnitZero => "Indent unit must be a positive number of columns"
  | tabWidthZero => "Tab width must be a positive number of columns"
  | lineOutOfRange line count => s!"Line {line} is out of range (buffer has {count} lines)"
  | columnOutOfRange column line length =>
    s!"Column {column} is out of range (line {line} has {length} characters)"

def hint? : Error → Option String
  | indentUnitZero | tabWidthZero => some "The default is 4"
  | lineOutOfRange .. | columnOutOfRange .. => none

/-- The message after its code. -/
def display (e : Error) : String := s!"[{e.code}] {e.message}"

end Error

structure Config where
  unit : Nat
  tab : Nat
  unit_pos : 0 < unit
  tab_pos : 0 < tab

namespace Config

/-- Four columns for a level and for a tab. -/
def standard : Config := ⟨4, 4, by decide, by decide⟩

/-- The unit is looked at before the tab width. -/
def make (unit tab : Nat) : Except Error Config :=
  if hu : 0 < unit then
    if ht : 0 < tab then .ok ⟨unit, tab, hu, ht⟩ else .error .tabWidthZero
  else .error .indentUnitZero

end Config

/-- The signed number of `bits` bits that agrees with `x` in the low bits, in two's complement. -/
def signed (bits : Nat) (x : Int) : Int := (BitVec.ofInt bits x).toInt

/-- What happens to a column, to a signed number of a width and to a text of so many bytes. -/
structure Platform (m : Type → Type) where
  word : Nat → m Nat
  signed : (bits : Nat) → Int → m Int
  room : (bytes : Nat) → m Unit

def Platform.plain {m : Type → Type} [Monad m] : Platform m where
  word n := pure (n % UInt64.size)
  signed bits x := pure (BffLayout.signed bits x)
  room _ := pure ()

/-- What a machine can run out of: words for a number, and room for a text. -/
inductive Limit where
  | overflow
  | tooLong
  deriving DecidableEq, Repr

/-- What can end a run early: an error that it returns, or a fault. -/
inductive Stop where
  | error (e : Error)
  | belowZero
  /-- A character or a part of a line would be read from beyond its end. -/
  | outOfBounds
  | limit (l : Limit)
  deriving DecidableEq, Repr

abbrev Run (α : Type) : Type := Except Stop α

def down : Nat → Run Nat
  | 0 => .error .belowZero
  | n + 1 => .ok n

/-- A machine that looks at every result or lets it wrap around, and the bytes that a text may have. -/
structure Machine where
  checked : Bool
  room : Nat
  deriving DecidableEq, Repr

namespace Machine

/-- Goes on with `wrapped` in place of `x`, unless the two differ and the machine looks. -/
def keep {α : Type} [DecidableEq α] (machine : Machine) (x wrapped : α) : Run α :=
  if machine.checked ∧ wrapped ≠ x then .error (.limit .overflow) else .ok wrapped

def platform (machine : Machine) : Platform Run where
  word n := machine.keep n (n % UInt64.size)
  signed bits x := machine.keep x (BffLayout.signed bits x)
  room bytes := if bytes ≤ machine.room then .ok () else .error (.limit .tooLong)

/-- A machine of 64 bits, in which lengths are signed, with numbers that wrap around. -/
def release : Machine := ⟨false, Nat.pow 2 63 - 1⟩

def debug : Machine := { release with checked := true }

end Machine

end BffLayout
