import BffLayout.Statement

/-!
Indentation of a line, in two steps. The shape of a row says what decides its column: its own
leading character, or how it follows the nearest row above that is not blank. The column is then
read off the rows and places named by the shape.
-/
namespace BffLayout

/-- How an ordinary line follows the one above. Rows and places are named by `ρ` and `σ`. -/
inductive Follow (ρ σ : Type) where
  | afterChain (start : ChainStart)
  | afterLeadingCloser (opener : Option σ)
  | afterTrailingCloser (opener : σ)
  | alignedContent (column : Nat)
  | nested (previous : ρ)
  deriving DecidableEq, Repr

inductive Shape (ρ σ : Type) where
  /-- No line above has content. -/
  | bufferStart
  | continuation (previous : ρ)
  | closer (opener : Option σ)
  /-- A directive that ends a branch, one level back from where an ordinary line would stand. -/
  | branchEnd (previous : ρ) (follow : Follow ρ σ)
  | follows (follow : Follow ρ σ)
  deriving DecidableEq, Repr

def Follow.map {ρ σ ρ' σ' : Type} (f : ρ → ρ') (g : σ → σ') : Follow ρ σ → Follow ρ' σ'
  | afterChain start => .afterChain start
  | afterLeadingCloser opener => .afterLeadingCloser (opener.map g)
  | afterTrailingCloser opener => .afterTrailingCloser (g opener)
  | alignedContent column => .alignedContent column
  | nested previous => .nested (f previous)

def Shape.map {ρ σ ρ' σ' : Type} (f : ρ → ρ') (g : σ → σ') : Shape ρ σ → Shape ρ' σ'
  | bufferStart => .bufferStart
  | continuation previous => .continuation (f previous)
  | closer opener => .closer (opener.map g)
  | branchEnd previous follow => .branchEnd (f previous) (follow.map f g)
  | follows follow => .follows (follow.map f g)

section OnPlatform

variable {m : Type → Type} [Monad m] (p : Platform m)

/-- The column `levels` units from `base`, but never left of column zero. The base and the unit are
taken as signed numbers. -/
def shiftedM (base : Nat) (levels : Int) (unit : Nat) : m Nat := do
  let move ← p.signed 64 (levels * signed 64 unit)
  let moved ← p.signed 64 (signed 64 base + move)
  pure moved.toNat

/-- The column of a closer: below its opener if content follows that on its own row, else at the
indentation of the opener's row. -/
def Spot.closerColumnM (s : Spot) (tab : Nat) : m Nat :=
  if (s.row.contentAfter? s.column).isSome then visualColumnM p tab s.row.chars s.column
  else s.row.indentationM p tab

def Follow.columnM (cfg : Config) : Follow Row Spot → m Nat
  | afterChain start => shiftedM p start.base start.depth cfg.unit
  | afterLeadingCloser (some opener) => opener.row.indentationM p cfg.tab
  | afterLeadingCloser none => pure 0
  | afterTrailingCloser opener => opener.row.indentationM p cfg.tab
  | alignedContent column => pure column
  | nested previous => do
    let base ← previous.indentationM p cfg.tab
    let depth ← previous.depthChangeM p
    shiftedM p base depth cfg.unit

def Shape.columnM (cfg : Config) : Shape Row Spot → m Nat
  | bufferStart => pure 0
  | continuation previous => do
    let anchor ← previous.anchorM p cfg.tab
    anchor.getDM (previous.indentationM p cfg.tab)
  | closer (some opener) => opener.closerColumnM p cfg.tab
  | closer none => pure 0
  | branchEnd _ follow => do
    let column ← follow.columnM p cfg
    pure (column - cfg.unit)
  | follows follow => follow.columnM p cfg

end OnPlatform

section OnEngine

variable {m : Type → Type} [Monad m] (e : Engine m)

/-- How an ordinary line directly below the row in focus follows it. -/
def Focus.followM (cfg : Config) (f : Focus) : m (Follow Row Spot) :=
  if f.row.isContinuation then do
    let start ← ChainStart.ofRowM e.toPlatform cfg.tab (statement? (f.row :: f.above))
    pure (.afterChain start)
  else if f.row.leadsWithCloser then do
    let opener ← f.leadingOpenerM e
    pure (.afterLeadingCloser opener)
  else do
    match ← f.trailingOpenerM e with
    | some opener => pure (.afterTrailingCloser opener)
    | none =>
      match ← f.row.openColumnM e.toPlatform cfg.tab with
      | some column => pure (.alignedContent column)
      | none => pure (.nested f.row)

def Focus.shapeM (cfg : Config) (f : Focus) : m (Shape Row Spot) :=
  match f.previous? with
  | none => pure .bufferStart
  | some previous =>
    if f.row.isContinuation then pure (.continuation previous.row)
    else if f.row.leadsWithCloser then do
      let opener ← f.leadingOpenerM e
      pure (.closer opener)
    else do
      let follow ← previous.followM e cfg
      pure (if f.row.closesBranch then .branchEnd previous.row follow else .follows follow)

/-- The column at which the row in focus should start. -/
def Focus.indentM (cfg : Config) (f : Focus) : m Nat := do
  let shape ← f.shapeM e cfg
  shape.columnM e.toPlatform cfg

end OnEngine

def shifted (base : Nat) (levels : Int) (unit : Nat) : Nat := Id.run (shiftedM .plain base levels unit)

def Spot.closerColumn (s : Spot) (tab : Nat) : Nat := Id.run (s.closerColumnM .plain tab)

theorem Spot.closerColumn_ite (s : Spot) (tab : Nat) :
    s.closerColumn tab = if (s.row.contentAfter? s.column).isSome
      then visualColumn tab s.row.chars s.column else s.row.indentation tab := by
  unfold closerColumn closerColumnM
  split <;> rfl

namespace Follow

def column (cfg : Config) (follow : Follow Row Spot) : Nat := Id.run (follow.columnM .plain cfg)

theorem column_afterChain (cfg : Config) (start : ChainStart) :
    column cfg (.afterChain start) = shifted start.base start.depth cfg.unit := rfl

theorem column_afterLeadingCloser (cfg : Config) (opener : Option Spot) :
    column cfg (.afterLeadingCloser opener) =
      (opener.map fun s => s.row.indentation cfg.tab).getD 0 := by
  cases opener <;> rfl

theorem column_afterTrailingCloser (cfg : Config) (opener : Spot) :
    column cfg (.afterTrailingCloser opener) = opener.row.indentation cfg.tab := rfl

theorem column_alignedContent (cfg : Config) (n : Nat) : column cfg (.alignedContent n) = n := rfl

theorem column_nested (cfg : Config) (previous : Row) :
    column cfg (.nested previous) =
      shifted (previous.indentation cfg.tab) previous.depthChange cfg.unit := rfl

end Follow

namespace Shape

def column (cfg : Config) (shape : Shape Row Spot) : Nat := Id.run (shape.columnM .plain cfg)

theorem column_bufferStart (cfg : Config) : column cfg .bufferStart = 0 := rfl

theorem column_continuation (cfg : Config) (previous : Row) :
    column cfg (.continuation previous) =
      (previous.anchor? cfg.tab).getD (previous.indentation cfg.tab) := by
  change (previous.anchor? cfg.tab).getDM (m := Id) (previous.indentation cfg.tab) = _
  cases previous.anchor? cfg.tab <;> rfl

theorem column_closer (cfg : Config) (opener : Option Spot) :
    column cfg (.closer opener) = (opener.map fun s => s.closerColumn cfg.tab).getD 0 := by
  cases opener <;> rfl

theorem column_branchEnd (cfg : Config) (previous : Row) (follow : Follow Row Spot) :
    column cfg (.branchEnd previous follow) = follow.column cfg - cfg.unit := rfl

theorem column_follows (cfg : Config) (follow : Follow Row Spot) :
    column cfg (.follows follow) = follow.column cfg := rfl

end Shape

namespace Focus

def follow (cfg : Config) (f : Focus) : Follow Row Spot := Id.run (f.followM (.on .plain) cfg)

theorem follow_eq (cfg : Config) (f : Focus) :
    f.follow cfg =
      if f.row.isContinuation then .afterChain (chainStart cfg.tab (f.row :: f.above))
      else if f.row.leadsWithCloser then .afterLeadingCloser f.leadingOpener?
      else match f.trailingOpener? with
        | some opener => .afterTrailingCloser opener
        | none =>
          match f.row.openColumn? cfg.tab with
          | some column => .alignedContent column
          | none => .nested f.row := by
  unfold follow followM
  split
  · rfl
  · split
    · rfl
    · rfl

def shape (cfg : Config) (f : Focus) : Shape Row Spot := Id.run (f.shapeM (.on .plain) cfg)

theorem shape_eq (cfg : Config) (f : Focus) :
    f.shape cfg = match f.previous? with
      | none => .bufferStart
      | some previous =>
        if f.row.isContinuation then .continuation previous.row
        else if f.row.leadsWithCloser then .closer f.leadingOpener?
        else if f.row.closesBranch then .branchEnd previous.row (previous.follow cfg)
        else .follows (previous.follow cfg) := by
  unfold shape shapeM
  cases f.previous? with
  | none => rfl
  | some previous =>
    split
    · rfl
    · split
      · rfl
      · split <;> rfl

def indent (cfg : Config) (f : Focus) : Nat := Id.run (f.indentM (.on .plain) cfg)

theorem indent_eq_column (cfg : Config) (f : Focus) : f.indent cfg = (f.shape cfg).column cfg := rfl

end Focus

namespace Buffer

def focus (b : Buffer) (index : Nat) : Except Error Focus :=
  match b.focus? index with
  | some f => .ok f
  | none => .error (.lineOutOfRange index b.count)

/-- The shape of a line, with rows and places given by number. -/
def shape (b : Buffer) (cfg : Config) (index : Nat) : Except Error (Shape Nat Position) :=
  (b.focus index).map fun f => (f.shape cfg).map Row.index Spot.position

def indent (b : Buffer) (cfg : Config) (index : Nat) : Except Error Nat :=
  (b.focus index).map (Focus.indent cfg)

end Buffer

/-- The indent of one of `lines` for a given unit, with tabs of standard width. -/
def indentOfLine (lines : List (List Char)) (index unit : Nat) : Except Error Nat := do
  (Buffer.ofLines lines).indent (← Config.make unit Config.standard.tab) index

end BffLayout
