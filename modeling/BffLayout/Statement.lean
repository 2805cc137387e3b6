import BffLayout.Matching

/-!
Statements over several lines. A preprocessor directive may open or close a branch of a conditional,
which is one level deeper than the directive. A line that leads with a plus sign continues the
statement above it, and the chain hangs from the nearest line above that is neither blank nor a
continuation.
-/
namespace BffLayout

inductive Directive where
  | ifBranch
  | elseBranch
  | endif
  | define
  | undef
  | includeFile
  | importVariable
  | once
  deriving DecidableEq, Repr

namespace Directive

def ofName? : String → Option Directive
  | "if" => some ifBranch
  | "else" => some elseBranch
  | "endif" => some endif
  | "define" => some define
  | "undef" => some undef
  | "include" => some includeFile
  | "import" => some importVariable
  | "once" => some once
  | _ => none

def opensBranch : Directive → Bool
  | ifBranch | elseBranch => true
  | _ => false

def closesBranch : Directive → Bool
  | elseBranch | endif => true
  | _ => false

end Directive

/-- A nesting opener goes one level deeper and a nesting closer one level back. -/
def depthStep (c : Char) : Int :=
  if (nestingOpener? c).isSome then 1
  else if isNestingCloser c then -1
  else 0

/-- By how many levels a text of code goes deeper. -/
def depthSum (cs : List Char) : Int := cs.foldr (fun c depth => depthStep c + depth) 0

@[simp] theorem depthSum_nil : depthSum [] = 0 := rfl

@[simp] theorem depthSum_cons (c : Char) (cs : List Char) :
    depthSum (c :: cs) = depthStep c + depthSum cs := rfl

namespace Line

/-- The directive the line leads with; spaces and tabs may stand between the hash and the name. -/
def directive? (l : Line) : Option Directive :=
  match l.leading? with
  | some (hash, '#') =>
    let name := (l.chars.drop (hash + 1)).dropWhile fun c => c == ' ' || c == '\t'
    Directive.ofName? (String.ofList (name.takeWhile isNameChar))
  | _ => none

def opensBranch (l : Line) : Bool := l.directive?.any Directive.opensBranch

def closesBranch (l : Line) : Bool := l.directive?.any Directive.closesBranch

/-- By how many levels the line below is deeper. -/
def depthChangeM {m : Type → Type} [Monad m] (p : Platform m) (l : Line) : m Int := do
  let depth ← (l.codeChars.map Prod.snd).foldlM (fun depth c => p.signed 32 (depth + depthStep c)) 0
  p.signed 32 (depth + if l.opensBranch then 1 else 0)

def depthChange (l : Line) : Int := Id.run (l.depthChangeM .plain)

end Line

/-- The statement a chain extends: its line, its indentation and its change of depth. A chain with
nothing above it extends no line, at column zero. -/
structure ChainStart where
  line : Option Nat
  base : Nat
  depth : Int
  deriving DecidableEq, Repr

namespace Line

def isContinuation (l : Line) : Bool := l.leadsWith (· == '+')

/-- Where a continuation below aligns: at the plus sign of a continuation, else at the first
equals sign in code. -/
def anchorColumn? (l : Line) : Option Nat :=
  match l.leading? with
  | some (column, '+') => some column
  | _ => (l.codeChars.find? fun p => p.2 == '=').map Prod.fst

def anchorM {m : Type → Type} [Monad m] (p : Platform m) (l : Line) (tab : Nat) : m (Option Nat) :=
  l.anchorColumn?.mapM (visualColumnM p tab l.chars)

def anchor? (l : Line) (tab : Nat) : Option Nat := Id.run (l.anchorM .plain tab)

theorem anchor?_eq (l : Line) (tab : Nat) :
    l.anchor? tab = l.anchorColumn?.map (visualColumn tab l.chars) := by
  unfold anchor? anchorM
  cases l.anchorColumn? <;> rfl

end Line

/-- The row that a chain ending just below `above` hangs from. -/
def statement? (above : List Row) : Option Row :=
  above.find? fun r => !r.isBlank && !r.isContinuation

namespace ChainStart

def ofRowM {m : Type → Type} [Monad m] (p : Platform m) (tab : Nat) : Option Row → m ChainStart
  | some r => do
    let base ← r.indentationM p tab
    let depth ← r.depthChangeM p
    pure ⟨some r.index, base, depth⟩
  | none => pure ⟨none, 0, 0⟩

def ofRow? (tab : Nat) (r : Option Row) : ChainStart := Id.run (ofRowM .plain tab r)

theorem ofRow?_some (tab : Nat) (r : Row) :
    ofRow? tab (some r) = ⟨some r.index, r.indentation tab, r.depthChange⟩ := rfl

theorem ofRow?_none (tab : Nat) : ofRow? tab none = ⟨none, 0, 0⟩ := rfl

end ChainStart

def chainStart (tab : Nat) (above : List Row) : ChainStart := ChainStart.ofRow? tab (statement? above)

end BffLayout
