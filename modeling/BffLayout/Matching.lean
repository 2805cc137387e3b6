import BffLayout.Buffer

/-!
Matching of brackets. A closer is matched by reading the code before it backwards and counting
closers and openers of its own kind, whatever stands between. A search for an enclosing opener reads
in the same way and goes on outwards until it is told to stop.
-/
namespace BffLayout

namespace Bracket

/-- The openers in code read backwards that no closer read before them answers, nearest first,
each with the code before it. `pending` counts the closers still to be answered. -/
def openers (b : Bracket) : (pending : Nat) → List CodeChar → List (CodeChar × List CodeChar)
  | _, [] => []
  | pending, c :: before =>
    if c.char = b.closer then b.openers (pending + 1) before
    else if c.char = b.opener then
      match pending with
      | 0 => (c, before) :: b.openers 0 before
      | n + 1 => b.openers n before
    else b.openers pending before

theorem openers_closer {b : Bracket} {c : CodeChar} (hc : c.char = b.closer) (pending : Nat)
    (before : List CodeChar) : b.openers pending (c :: before) = b.openers (pending + 1) before := by
  cases pending <;> simp [openers, hc]

theorem openers_opener_zero {b : Bracket} {c : CodeChar} (ho : c.char = b.opener)
    (before : List CodeChar) : b.openers 0 (c :: before) = (c, before) :: b.openers 0 before := by
  cases b <;> simp [openers, ho, opener, closer]

theorem openers_opener_succ {b : Bracket} {c : CodeChar} (ho : c.char = b.opener) (pending : Nat)
    (before : List CodeChar) : b.openers (pending + 1) (c :: before) = b.openers pending before := by
  cases b <;> simp [openers, ho, opener, closer]

theorem openers_other {b : Bracket} {c : CodeChar} (hc : c.char ≠ b.closer) (ho : c.char ≠ b.opener)
    (pending : Nat) (before : List CodeChar) :
    b.openers pending (c :: before) = b.openers pending before := by
  cases pending <;> simp [openers, hc, ho]

theorem isBracket_opener (b : Bracket) : isBracket b.opener = true := by cases b <;> rfl

theorem isBracket_closer (b : Bracket) : isBracket b.closer = true := by cases b <;> rfl

/-- Whatever is no bracket can be left out. -/
theorem openers_filter (b : Bracket) (pending : Nat) (code : List CodeChar) :
    (b.openers pending (code.filter fun c => isBracket c.char)).map Prod.fst =
      (b.openers pending code).map Prod.fst := by
  induction code generalizing pending with
  | nil => rfl
  | cons c before ih =>
    rw [List.filter_cons]
    by_cases hc : c.char = b.closer
    · rw [if_pos (hc ▸ b.isBracket_closer), openers_closer hc, openers_closer hc, ih]
    · by_cases ho : c.char = b.opener
      · rw [if_pos (ho ▸ b.isBracket_opener)]
        cases pending with
        | zero => rw [openers_opener_zero ho, openers_opener_zero ho, List.map_cons, List.map_cons, ih]
        | succ n => rw [openers_opener_succ ho, openers_opener_succ ho, ih]
      · split
        · rw [openers_other hc ho, openers_other hc ho, ih]
        · rw [openers_other hc ho, ih]

/-- Reads code backwards with a depth that closers raise and openers lower, and asks about the opener
that brings it to zero. An answer ends the search; without one it goes on from depth one, to the opener
around. How one is taken from the depth before the search goes on is left open. -/
def scanM {m : Type → Type} [Monad m] {α : Type} (b : Bracket)
    (lower : Nat → (Nat → m (Option α)) → m (Option α)) (ask : CodeChar → m (Option α)) :
    (depth : Nat) → List CodeChar → m (Option α)
  | _, [] => pure none
  | depth, c :: before =>
    if c.char = b.closer then b.scanM lower ask (depth + 1) before
    else if c.char = b.opener then
      lower depth fun depth =>
        if depth = 0 then do
          match ← ask c with
          | some found => pure (some found)
          | none => b.scanM lower ask 1 before
        else b.scanM lower ask depth before
    else b.scanM lower ask depth before

/-- The nearest unanswered opener. -/
def opener? (b : Bracket) (code : List CodeChar) : Option Spot :=
  (b.openers 0 code).head?.map fun (c, _) => c.toSpot

end Bracket

namespace Line

/-- The column of the first character after `column` that is not white, unless it is in a comment. -/
def contentAfter? (l : Line) (column : Nat) : Option Nat :=
  match (l.cells.zipIdx.drop (column + 1)).find? fun (cell, _) => !isWhite cell.char with
  | some (cell, content) =>
    match cell.kind with
    | .code | .string => some content
    | .lineComment | .blockComment => none
  | none => none

/-- One character read forwards: an opener is pushed, and a closer pops the top if it answers it. -/
def pushBracket (stack : List (Bracket × Nat)) (c : Nat × Char) : List (Bracket × Nat) :=
  match nestingOpener? c.2, nestingCloser? c.2, stack with
  | some b, _, _ => (b, c.1) :: stack
  | none, some b, top :: rest => if top.1 = b then rest else stack
  | _, _, _ => stack

/-- The nesting brackets the line leaves open, innermost first, with their columns. -/
def openBrackets (l : Line) : List (Bracket × Nat) := l.codeChars.foldl pushBracket []

/-- What follows the innermost bracket left open, if anything does. -/
def openContent? (l : Line) : Option Nat :=
  match l.openBrackets with
  | (_, column) :: _ => l.contentAfter? column
  | [] => none

/-- The visual column of what follows the innermost bracket left open. -/
def openColumnM {m : Type → Type} [Monad m] (p : Platform m) (l : Line) (tab : Nat) : m (Option Nat) :=
  l.openContent?.mapM (visualColumnM p tab l.chars)

def openColumn? (l : Line) (tab : Nat) : Option Nat := Id.run (l.openColumnM .plain tab)

theorem openColumn?_eq (l : Line) (tab : Nat) :
    l.openColumn? tab = l.openContent?.map (visualColumn tab l.chars) := by
  unfold openColumn? openColumnM
  cases l.openContent? <;> rfl

def leadsWithCloser (l : Line) : Bool := l.leadsWith isNestingCloser

end Line

namespace Focus

/-- The opener that the closer in `column` answers; none if no closer stands there in code. -/
def matchingOpener? (f : Focus) (column : Nat) : Option Spot :=
  match f.row.cells[column]? with
  | some ⟨c, .code⟩ =>
    match Bracket.ofCloser? c with
    | some b => b.opener? (f.bracketsBefore column)
    | none => none
  | _ => none

end Focus

/-- What the rules of indentation rest on: a platform, and a search for the opener that the closer in a
column answers. -/
structure Engine (m : Type → Type) extends Platform m where
  matching : Focus → (column : Nat) → m (Option Spot)

def Engine.on {m : Type → Type} [Monad m] (p : Platform m) : Engine m :=
  { p with matching := fun f column => pure (f.matchingOpener? column) }

namespace Focus

section OnEngine

variable {m : Type → Type} [Monad m] (e : Engine m)

/-- The opener that the nesting closer at the head of the row answers. -/
def leadingOpenerM (f : Focus) : m (Option Spot) :=
  match f.row.leading? with
  | some (column, c) => if isNestingCloser c then e.matching f column else pure none
  | none => pure none

/-- The opener on an earlier row that the nesting closer at the end of the row answers. -/
def trailingOpenerM (f : Focus) : m (Option Spot) :=
  match f.row.trailing? with
  | some (column, c) =>
    if isNestingCloser c then do
      let opener ← e.matching f column
      pure (opener.filter fun s => s.row.index < f.row.index)
    else pure none
  | none => pure none

end OnEngine

def leadingOpener? (f : Focus) : Option Spot := Id.run (f.leadingOpenerM (.on .plain))

def trailingOpener? (f : Focus) : Option Spot := Id.run (f.trailingOpenerM (.on .plain))

theorem leadingOpener?_bind (f : Focus) :
    f.leadingOpener? = f.row.leading?.bind fun x =>
      if isNestingCloser x.2 then f.matchingOpener? x.1 else none := by
  unfold leadingOpener? leadingOpenerM
  cases f.row.leading? <;> rfl

theorem trailingOpener?_bind (f : Focus) :
    f.trailingOpener? = f.row.trailing?.bind fun x =>
      if isNestingCloser x.2 then (f.matchingOpener? x.1).filter fun s => s.row.index < f.row.index
      else none := by
  unfold trailingOpener? trailingOpenerM
  cases f.row.trailing? <;> rfl

end Focus

namespace Buffer

def matchingOpener? (b : Buffer) (p : Position) : Option Position :=
  match b.focus? p.line with
  | some f => (f.matchingOpener? p.column).map Spot.position
  | none => none

def leadingOpener? (b : Buffer) (index : Nat) : Option Position :=
  match b.focus? index with
  | some f => f.leadingOpener?.map Spot.position
  | none => none

/-- Searches the code before a position as if a closer stood there. -/
def scan {m : Type → Type} [Monad m] {α : Type} (b : Buffer) (p : Position) (k : Bracket)
    (ask : Position → m (Option α)) : m (Option α) :=
  k.scanM (fun depth next => next (depth - 1)) (fun c => ask c.position) 1 (b.codeBefore p)

/-- The unanswered openers before a position, nearest first. -/
def openers (b : Buffer) (p : Position) (k : Bracket) : List Position :=
  (k.openers 0 (b.codeBefore p)).map fun (c, _) => c.position

end Buffer

end BffLayout
