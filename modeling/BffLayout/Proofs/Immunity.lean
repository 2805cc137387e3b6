import BffLayout.Completion
import BffLayout.Proofs.Lookback
import BffLayout.Proofs.Veil

/-!
Immunity of strings and comments. The veil commutes with every step of looking back: matching of
brackets, chains, shapes and names of functions are found under it at the same places. So two
buffers that look alike under the veil are indented alike and have the same functions around every
position.
-/
namespace BffLayout

/-- The row as it looks under the veil. -/
def Row.veil (r : Row) : Row := Row.of r.index r.toLine.veil

def Spot.veil (s : Spot) : Spot := ⟨s.row.veil, s.column⟩

def CodeChar.veil (c : CodeChar) : CodeChar := ⟨c.toSpot.veil, c.char⟩

def Focus.veil (f : Focus) : Focus := ⟨f.above.map Row.veil, f.row.veil⟩

def Buffer.veil (b : Buffer) : Buffer := ⟨b.lines.map Line.veil⟩

@[simp] theorem Row.index_veil (r : Row) : r.veil.index = r.index := rfl

@[simp] theorem Row.toLine_veil (r : Row) : r.veil.toLine = r.toLine.veil := rfl

theorem CodeChar.char_veil (c : CodeChar) : c.veil.char = c.char := rfl

theorem CodeChar.position_veil (c : CodeChar) : c.veil.position = c.position := rfl

theorem Row.code_veil (r : Row) : r.veil.code = r.code.map CodeChar.veil := by
  rw [code, code, toLine_veil, Line.codeChars_veil, List.map_map]
  rfl

namespace Bracket

variable {g : CodeChar → CodeChar} (hg : ∀ c, (g c).char = c.char)

include hg

/-- Matching commutes with any change of places that keeps the characters. -/
theorem openers_map (b : Bracket) (pending : Nat) (code : List CodeChar) :
    b.openers pending (code.map g) = (b.openers pending code).map (Prod.map g (List.map g)) := by
  have hcode : List.Forall₂ (fun c d => c = g d) (code.map g) code := eq_map_iff_forall₂.mp rfl
  have hopeners := b.openers_forall₂ (fun c d (h : c = g d) => h ▸ hg d) pending hcode
  rw [eq_map_iff_forall₂]
  exact hopeners.imp fun p q hpq => Prod.ext hpq.1 (eq_map_iff_forall₂.mpr hpq.2)

end Bracket

theorem Bracket.opener?_veil (b : Bracket) (code : List CodeChar) :
    b.opener? (code.map CodeChar.veil) = (b.opener? code).map Spot.veil := by
  rw [opener?, opener?, openers_map CodeChar.char_veil, List.head?_map, Option.map_map,
    Option.map_map]
  rfl

theorem nearest?_veil (above : List Row) :
    nearest? (above.map Row.veil) = (nearest? above).map Focus.veil := by
  induction above with
  | nil => rfl
  | cons r rest ih =>
    rw [List.map_cons, nearest?, nearest?, Row.toLine_veil, Line.isBlank_veil]
    split
    · exact ih
    · rfl

theorem statement?_veil (above : List Row) :
    statement? (above.map Row.veil) = (statement? above).map Row.veil := by
  have hstop : (fun r : Row => !r.isBlank && !r.isContinuation) ∘ Row.veil =
      fun r => !r.isBlank && !r.isContinuation := by
    funext r
    exact congrArg₂ (fun blank cont => !blank && !cont) r.isBlank_veil r.isContinuation_veil
  rw [statement?, statement?, List.find?_map, hstop]

theorem chainStart_veil (tab : Nat) (above : List Row) :
    chainStart tab (above.map Row.veil) = chainStart tab above := by
  rw [chainStart, chainStart, statement?_veil]
  cases statement? above with
  | none => rfl
  | some r => simp [ChainStart.ofRow?_some]

namespace Focus

@[simp] theorem previous?_veil (f : Focus) : f.veil.previous? = f.previous?.map Focus.veil :=
  nearest?_veil f.above

theorem codeBefore_veil (f : Focus) (column : Nat) :
    f.veil.codeBefore column = (f.codeBefore column).map CodeChar.veil := by
  have hown : f.veil.row.code.filter (fun c => c.column < column) =
      (f.row.code.filter fun c => c.column < column).map CodeChar.veil := by
    rw [veil, Row.code_veil, List.filter_map]
    rfl
  have habove : codeBack f.veil.above = (codeBack f.above).map CodeChar.veil := by
    rw [codeBack, codeBack, veil, List.flatMap_map, List.map_flatMap]
    simp only [Row.code_veil, List.map_reverse]
  rw [codeBefore, codeBefore, hown, habove, List.map_append, List.map_reverse]

theorem bracketsBefore_veil (f : Focus) (column : Nat) :
    f.veil.bracketsBefore column = (f.bracketsBefore column).map CodeChar.veil := by
  rw [bracketsBefore_eq, bracketsBefore_eq, codeBefore_veil, List.filter_map]
  rfl

theorem matchingOpener?_veil (f : Focus) (column : Nat) :
    f.veil.matchingOpener? column = (f.matchingOpener? column).map Spot.veil := by
  have hcell : f.veil.row.cells[column]? = f.row.cells[column]?.map Cell.veil := by
    rw [← List.getElem?_map, ← Line.cells_veil]
    rfl
  rw [matchingOpener?_bind, matchingOpener?_bind, hcell]
  cases f.row.cells[column]? with
  | none => rfl
  | some x =>
    by_cases hx : x.kind = .code
    · simp only [Option.map_some, Option.bind_some, Cell.veil_of_code hx, hx, if_true,
        bracketsBefore_veil, Bracket.opener?_veil, Option.map_bind]
      rfl
    · simp [hx]

theorem leadingOpener?_veil (f : Focus) :
    f.veil.leadingOpener? = f.leadingOpener?.map Spot.veil := by
  rw [leadingOpener?_bind, leadingOpener?_bind, veil, Row.toLine_veil, Line.leading?_veil]
  rcases f.row.leading? with _ | ⟨column, c⟩
  · rfl
  · have hmatch := f.matchingOpener?_veil column
    cases hc : isNestingCloser c <;> simp [hc, ← hmatch, veil]

theorem trailingOpener?_veil (f : Focus) :
    f.veil.trailingOpener? = f.trailingOpener?.map Spot.veil := by
  rw [trailingOpener?_bind, trailingOpener?_bind, veil, Row.toLine_veil, Line.trailing?_veil]
  rcases f.row.trailing? with _ | ⟨column, c⟩
  · rfl
  · have hmatch := f.matchingOpener?_veil column
    rw [veil] at hmatch
    cases hc : isNestingCloser c with
    | false => simp [hc]
    | true =>
      simp only [Option.bind_some, hc, if_true, hmatch]
      cases f.matchingOpener? column with
      | none => rfl
      | some s => by_cases hs : s.row.index < f.row.index <;> simp [Option.filter, Spot.veil, hs]

theorem follow_veil (cfg : Config) (f : Focus) :
    f.veil.follow cfg = (f.follow cfg).map Row.veil Spot.veil := by
  have hchain : chainStart cfg.tab (f.veil.row :: f.veil.above) =
      chainStart cfg.tab (f.row :: f.above) := chainStart_veil cfg.tab (f.row :: f.above)
  have hrow : f.veil.row.toLine = f.row.toLine.veil := rfl
  rw [follow_eq, follow_eq, hchain, hrow, leadingOpener?_veil, trailingOpener?_veil, Line.isContinuation_veil,
    Line.leadsWithCloser_veil, Line.openColumn?_veil]
  split
  · rfl
  · split
    · rfl
    · cases f.trailingOpener? with
      | some s => rfl
      | none => cases f.row.openColumn? cfg.tab <;> rfl

/-- A row has the same shape under the veil, with the veiled rows and places in it. -/
theorem shape_veil (cfg : Config) (f : Focus) :
    f.veil.shape cfg = (f.shape cfg).map Row.veil Spot.veil := by
  have hrow : f.veil.row.toLine = f.row.toLine.veil := rfl
  rw [shape_eq, shape_eq, previous?_veil, hrow, leadingOpener?_veil, Line.isContinuation_veil,
    Line.leadsWithCloser_veil, Line.closesBranch_veil]
  cases f.previous? with
  | none => rfl
  | some previous =>
    simp only [Option.map_some, follow_veil]
    split
    · rfl
    · split
      · rfl
      · split <;> rfl

end Focus

theorem Spot.closerColumn_veil (s : Spot) (tab : Nat) :
    s.veil.closerColumn tab = s.closerColumn tab := by
  simp [closerColumn_ite, veil]

theorem Follow.column_veil (cfg : Config) (w : Follow Row Spot) :
    (w.map Row.veil Spot.veil).column cfg = w.column cfg := by
  cases w with
  | afterChain start => rfl
  | afterLeadingCloser opener => cases opener <;> simp [Follow.map, column_afterLeadingCloser, Spot.veil]
  | afterTrailingCloser opener => simp [Follow.map, column_afterTrailingCloser, Spot.veil]
  | alignedContent column => rfl
  | nested previous => simp [Follow.map, column_nested]

theorem Shape.column_veil (cfg : Config) (w : Shape Row Spot) :
    (w.map Row.veil Spot.veil).column cfg = w.column cfg := by
  cases w with
  | bufferStart => rfl
  | continuation previous => simp [Shape.map, column_continuation]
  | closer opener => cases opener <;> simp [Shape.map, column_closer, Spot.closerColumn_veil]
  | branchEnd previous follow => simp [Shape.map, column_branchEnd, Follow.column_veil]
  | follows follow => simp [Shape.map, column_follows, Follow.column_veil]

/-- The veil keeps the numbers of rows and places. -/
theorem Follow.map_veil (w : Follow Row Spot) :
    (w.map Row.veil Spot.veil).map Row.index Spot.position = w.map Row.index Spot.position := by
  cases w with
  | afterLeadingCloser opener => cases opener <;> rfl
  | afterChain | afterTrailingCloser | alignedContent | nested => rfl

theorem Shape.map_veil (w : Shape Row Spot) :
    (w.map Row.veil Spot.veil).map Row.index Spot.position = w.map Row.index Spot.position := by
  cases w with
  | closer opener => cases opener <;> rfl
  | branchEnd previous follow =>
    exact congrArg (Shape.branchEnd previous.index) follow.map_veil
  | follows follow => exact congrArg Shape.follows follow.map_veil
  | bufferStart | continuation => rfl

section Names

variable {g : CodeChar → CodeChar} (hchar : ∀ c, (g c).char = c.char)
  (hplace : ∀ c, (g c).position = c.position)

include hchar

theorem dropWhiteCode_map (code : List CodeChar) :
    dropWhiteCode (code.map g) = (dropWhiteCode code).map g := by
  rw [dropWhiteCode, dropWhiteCode, List.dropWhile_map]
  simp only [Function.comp_def, hchar]

include hplace

/-- Names are read off characters and their positions, and so is the function around a position. -/
theorem nameBack_map (index stop : Nat) (code : List CodeChar) :
    nameBack index stop (code.map g) = (nameBack index stop code).map id (List.map g) := by
  induction code generalizing stop with
  | nil => rfl
  | cons c before ih =>
    have hindex : (g c).row.index = c.row.index := congrArg Position.line (hplace c)
    have hcolumn : (g c).column = c.column := congrArg Position.column (hplace c)
    simp only [List.map_cons, nameBack, hchar, hindex, hcolumn, ih]
    split <;> rfl

theorem nameAtEnd?_map (code : List CodeChar) : nameAtEnd? (code.map g) = nameAtEnd? code := by
  rw [nameAtEnd?, nameAtEnd?, dropWhiteCode_map hchar]
  cases dropWhiteCode code with
  | nil => rfl
  | cons last before =>
    have hindex : (g last).row.index = last.row.index := congrArg Position.line (hplace last)
    have hcolumn : (g last).column = last.column := congrArg Position.column (hplace last)
    simp only [List.map_cons, hindex, hcolumn]
    rw [← List.map_cons, nameBack_map hchar hplace]
    simp only [Prod.map, id, List.head?_map, Option.any_map, hchar]

theorem header?_map (code : List CodeChar) : header? (code.map g) = header? code := by
  rw [header?, header?, dropWhiteCode_map hchar]
  cases dropWhiteCode code with
  | nil => rfl
  | cons last before =>
    simp only [List.map_cons, hchar, Bracket.openers_map hchar]
    split
    · cases Bracket.paren.openers 0 before with
      | nil => rfl
      | cons p rest => exact nameAtEnd?_map hchar hplace p.2
    · rw [← List.map_cons, nameAtEnd?_map hchar hplace]

theorem enclosingFunction?_map (code : List CodeChar) :
    enclosingFunction? (code.map g) = enclosingFunction? code := by
  rw [enclosingFunction?, enclosingFunction?, Bracket.openers_map hchar, List.findSome?_map]
  congr 1
  funext p
  exact header?_map hchar hplace p.2

end Names

namespace Buffer

theorem rows_veil (b : Buffer) : b.veil.rows = b.rows.map Row.veil := by
  rw [rows, rows, veil, List.zipIdx_map, List.map_map, List.map_map]
  rfl

theorem focus?_veil (b : Buffer) (index : Nat) :
    b.veil.focus? index = (b.focus? index).map Focus.veil := by
  rw [focus?, focus?, above, above, rows_veil, List.getElem?_map, Option.map_map, Option.map_map,
    ← List.map_take, ← List.map_reverse]
  rfl

theorem focus_veil (b : Buffer) (index : Nat) :
    b.veil.focus index = (b.focus index).map Focus.veil := by
  rw [focus, focus, focus?_veil]
  cases b.focus? index with
  | some f => rfl
  | none => simp [veil, count, Except.map]

@[simp] theorem shape_veil (cfg : Config) (b : Buffer) (index : Nat) :
    b.veil.shape cfg index = b.shape cfg index := by
  rw [shape, shape, focus_veil]
  cases b.focus index with
  | error e => rfl
  | ok f =>
    simp only [Except.map, Focus.shape_veil, Shape.map_veil]

@[simp] theorem indent_veil (cfg : Config) (b : Buffer) (index : Nat) :
    b.veil.indent cfg index = b.indent cfg index := by
  rw [indent, indent, focus_veil]
  cases b.focus index with
  | error e => rfl
  | ok f => simp only [Except.map, Focus.indent_eq_column, Focus.shape_veil, Shape.column_veil]

@[simp] theorem enclosingFunction?_veil (b : Buffer) (p : Position) :
    b.veil.enclosingFunction? p = b.enclosingFunction? p := by
  rw [enclosingFunction?, enclosingFunction?, codeBefore, codeBefore, focus?_veil]
  cases b.focus? p.line with
  | none => rfl
  | some f =>
    simp only [Option.map_some, Focus.codeBefore_veil]
    exact enclosingFunction?_map CodeChar.char_veil CodeChar.position_veil _

/-- Whether a text differs from the buffer at most in plain characters of strings and comments. -/
def Admits (b : Buffer) (lines : List (List Char)) : Prop :=
  List.Forall₂ (fun l cs => List.Forall₂ Cell.Admits l.cells cs) b.lines lines
  deriving Decidable

theorem veil_of_admits {lines lines' : List (List Char)} (h : (ofLines lines).Admits lines') :
    (ofLines lines').veil = (ofLines lines).veil := by
  suffices hlines : ∀ s : ScanState,
      List.Forall₂ (fun l cs => List.Forall₂ Cell.Admits l.cells cs) (linesFrom s lines) lines' →
        (linesFrom s lines').map Line.veil = (linesFrom s lines).map Line.veil from
    congrArg Buffer.mk (hlines .code h)
  clear h
  induction lines generalizing lines' with
  | nil =>
    intro s h
    cases h
    rfl
  | cons cs rest ih =>
    intro s h
    rw [linesFrom] at h
    obtain ⟨ds, more, hline, hrest, rfl⟩ := List.forall₂_cons_left_iff.mp h
    obtain ⟨hveil, hfinish⟩ := Line.veil_of_admits hline
    have hnext : Line.next ⟨s, ds⟩ = Line.next ⟨s, cs⟩ := by rw [Line.next, hfinish, Line.next]
    rw [linesFrom, linesFrom, List.map_cons, List.map_cons, hveil, hnext, ih _ hrest]

theorem startState_veil (b : Buffer) (index : Nat) :
    b.veil.startState index = b.startState index := by
  rw [startState, startState, veil, List.getElem?_map]
  cases b.lines[index]? <;> rfl

/-- The kinds of the characters of a line. -/
def kinds? (b : Buffer) (index : Nat) : Option (List Kind) :=
  b.lines[index]?.map fun l => l.cells.map Cell.kind

theorem kinds?_veil (b : Buffer) (index : Nat) : b.veil.kinds? index = b.kinds? index := by
  rw [kinds?, kinds?, veil, List.getElem?_map, Option.map_map]
  congr 1
  funext l
  exact l.kinds_veil

/-- What is the same under the veil is the same for buffers that look alike. -/
theorem eq_of_veil {β : Type} {f : Buffer → β} (hf : ∀ b : Buffer, f b.veil = f b) {b c : Buffer}
    (h : b.veil = c.veil) : f b = f c := by
  rw [← hf b, h, hf c]

/-- Strings and comments are immune: plain characters in them can be exchanged for others without
any effect on states, kinds, shapes, indents and enclosing functions. -/
theorem immune_of_admits {lines lines' : List (List Char)} (h : (ofLines lines).Admits lines') :
    (∀ i, (ofLines lines').startState i = (ofLines lines).startState i) ∧
    (∀ i, (ofLines lines').kinds? i = (ofLines lines).kinds? i) ∧
    (∀ cfg i, (ofLines lines').shape cfg i = (ofLines lines).shape cfg i) ∧
    (∀ cfg i, (ofLines lines').indent cfg i = (ofLines lines).indent cfg i) ∧
    ∀ p, (ofLines lines').enclosingFunction? p = (ofLines lines).enclosingFunction? p := by
  have hveil := veil_of_admits h
  refine ⟨fun i => ?_, fun i => ?_, fun cfg i => ?_, fun cfg i => ?_, fun p => ?_⟩
  · exact eq_of_veil (f := fun b => b.startState i) (fun b => b.startState_veil i) hveil
  · exact eq_of_veil (f := fun b => b.kinds? i) (fun b => b.kinds?_veil i) hveil
  · exact eq_of_veil (f := fun b => b.shape cfg i) (fun b => b.shape_veil cfg i) hveil
  · exact eq_of_veil (f := fun b => b.indent cfg i) (fun b => b.indent_veil cfg i) hveil
  · exact eq_of_veil (f := fun b => b.enclosingFunction? p)
      (fun b => b.enclosingFunction?_veil p) hveil

/-- A body with brackets, plus signs and directives in its strings and comments. -/
def bracketsInText : List (List Char) :=
  ["Exec('a^'\x7b') \x7b /* #if [", "+ \x7d */ .A = [", "'^^]' // \x7d", "]"].map String.toList

/-- The same body with other characters there. -/
def lettersInText : List (List Char) :=
  ["Exec('b^'c') \x7b /* [+\x7d =", "\x7b # */ .A = [", "'^^+' // a", "]"].map String.toList

theorem immune_of_admits_letters :
    (ofLines bracketsInText).Admits lettersInText ∧
    (ofLines lettersInText).indent .standard 3 = (ofLines bracketsInText).indent .standard 3 ∧
    (ofLines lettersInText).enclosingFunction? ⟨2, 0⟩ = some "Exec" := by
  have h : (ofLines bracketsInText).Admits lettersInText := by decide
  obtain ⟨-, -, -, hindent, hfunction⟩ := immune_of_admits h
  have hexec : (ofLines bracketsInText).enclosingFunction? ⟨2, 0⟩ = some "Exec" := by decide
  exact ⟨h, hindent .standard 3, (hfunction ⟨2, 0⟩).trans hexec⟩

end Buffer

end BffLayout
