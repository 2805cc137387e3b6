import BffLayout.Proofs.Bounds
import BffLayout.Proofs.Checking
import BffLayout.Proofs.Counters
import BffLayout.Proofs.Typing

/-!
Runs with faults. The indent of a line, completion, placing and checking are run here on a machine with
limits, and with all their counters and indices checked. On no buffer, however broken its text, does a
counter fall below zero or an index lie beyond an end, and the only errors are those about a line or a
column that does not exist. What is left are the limits: a run ends with the plain answer, or with the
first number that does not fit or the first text for which there is no room.
-/
namespace BffLayout

/-- The opener that a closer of a kind would answer if it stood at a position. -/
def Buffer.runOpener (b : Buffer) (k : Bracket) (p : Position) : Run (Option CodeChar) := do
  let code ← Walker.walk b (.before b p)
  k.seek (fun c => pure (some c)) code

theorem Buffer.runOpener_eq (b : Buffer) (k : Bracket) (p : Position) :
    b.runOpener k p = .ok ((k.openers 0 (b.codeBefore p)).head?.map Prod.fst) := by
  rw [runOpener, Walker.walk_before]
  refine (k.seek_eq _ _).trans ?_
  rw [List.findSomeM?_pure]
  cases k.openers 0 (b.codeBefore p) <;> rfl

namespace Focus

def runMatching (b : Buffer) (f : Focus) (column : Nat) : Run (Option Spot) :=
  match f.row.cells[column]? with
  | some ⟨c, .code⟩ =>
    match Bracket.ofCloser? c with
    | some k => (b.runOpener k ⟨f.row.index, column⟩).map fun o => o.map CodeChar.toSpot
    | none => pure none
  | _ => pure none

theorem runMatching_eq {b : Buffer} {f : Focus} (hf : b.focus? f.row.index = some f) (column : Nat) :
    f.runMatching b column = .ok (f.matchingOpener? column) := by
  have hopener : ∀ k : Bracket, (b.runOpener k ⟨f.row.index, column⟩).map (fun o => o.map CodeChar.toSpot) =
      .ok (k.opener? (f.bracketsBefore column)) := by
    intro k
    have hcode : b.codeBefore ⟨f.row.index, column⟩ = f.codeBefore column := by
      rw [Buffer.codeBefore, hf]
    rw [Buffer.runOpener_eq, hcode, Bracket.opener?, bracketsBefore_eq, ← List.head?_map,
      ← Bracket.openers_filter, List.head?_map]
    exact congrArg Except.ok (Option.map_map ..)
  rw [runMatching, matchingOpener?]
  cases f.row.cells[column]? with
  | none => rfl
  | some cell =>
    obtain ⟨c, kind⟩ := cell
    cases kind with
    | code =>
      cases hk : Bracket.ofCloser? c with
      | none => simp only [hk]; rfl
      | some k => simp only [hk, hopener]
    | string | lineComment | blockComment => rfl

end Focus

/-- The nearest row above a line is in focus like the line itself. -/
theorem Buffer.focus?_nearest {b : Buffer} {i : Nat} {g : Focus} (h : nearest? (b.above i) = some g) :
    b.focus? g.row.index = some g := by
  induction i with
  | zero => cases h
  | succ n ih =>
    cases hl : b.lines[n]? with
    | none =>
      rw [above_succ_of_none hl] at h
      exact ih h
    | some l =>
      rw [above_succ hl, nearest?] at h
      split at h
      · exact ih h
      · cases h
        exact focus?_eq_some hl

namespace Buffer

/-- The indent of a line, with brackets matched by a walker. -/
def runIndent (machine : Machine) (cfg : Config) (b : Buffer) (index : Nat) : Run Nat :=
  match b.focus? index with
  | some f => f.indentM ⟨machine.platform, Focus.runMatching b⟩ cfg
  | none => .error (.error (.lineOutOfRange index b.count))

theorem runIndent_eq (machine : Machine) (cfg : Config) {b : Buffer} {index : Nat} {f : Focus}
    (hf : b.focus? index = some f) : b.runIndent machine cfg index =
      ending (machine.overflow? (f.indentFits cfg)) (f.indent cfg) := by
  have hrun : b.runIndent machine cfg index = f.indentM ⟨machine.platform, Focus.runMatching b⟩ cfg := by
    rw [runIndent, hf]
  rw [hrun]
  cases hl : b.lines[index]? with
  | none =>
    rw [focus?_eq_none hl] at hf
    cases hf
  | some l =>
    have hown := focus?_eq_some hl
    rw [hf, Option.some.injEq] at hown
    subst hown
    refine Focus.indentM_eq machine (Focus.runMatching_eq hf) ?_ cfg
    intro g hg
    exact Focus.runMatching_eq (focus?_nearest (i := index) hg)

theorem runIndent_missing (machine : Machine) (cfg : Config) {b : Buffer} {index : Nat}
    (h : b.count ≤ index) :
    b.runIndent machine cfg index = .error (.error (.lineOutOfRange index b.count)) := by
  rw [runIndent, focus?_eq_none (List.getElem?_eq_none h)]

end Buffer

namespace Context

/-- Whether the mark before a name opens a reference. -/
def runOpens (l : Line) : (mark : Option (Nat × Char)) → Run Bool
  | some (i, c) =>
    if c = '$' ∧ (l.openAtEnd = .code ∨ l.openAtEnd = .string) then opensAt l.cells i else pure false
  | none => pure false

/-- What is named behind `start` on a line that is cut at the cursor; `cs` holds all characters of the
line as it was. -/
def run? (l : Line) (cs : List Char) (start : Nat) : Run (Option Context) := do
  let mark ← lookBack cs start
  let opens ← runOpens l mark
  let mark := mark.map Prod.snd
  pure <|
    if opens then some reference
    else if l.openAtEnd ≠ .code then none
    else if mark = some '.' then some property
    else if mark = some '#' then some directive
    else some word

theorem runOpens_eq {l : Line} {n : Nat} {cell : Cell} (h : l.cells[n]? = some cell) :
    runOpens l (some (n, cell.char)) =
      .ok (decide (some cell.char = some '$' ∧ (l.openAtEnd = .code ∨ l.openAtEnd = .string) ∧
        opensReference (cell :: (l.cells.take n).reverse) = true)) := by
  simp only [runOpens, Option.some.injEq]
  split
  · next hmark => simp only [opensAt_eq h, hmark.1, hmark.2, true_and, Bool.decide_eq_true]
  · next hmark =>
    rw [decide_eq_false fun hopens => hmark ⟨hopens.1, hopens.2.1⟩]
    rfl

theorem run?_eq {l : Line} {cs : List Char} {start : Nat} (hcs : l.chars <+: cs)
    (h : start ≤ l.length) : run? l cs start = .ok (of? l.openAtEnd (l.cells.take start).reverse) := by
  cases start with
  | zero =>
    rw [run?, lookBack_zero]
    rfl
  | succ n =>
    obtain ⟨cell, hcell⟩ : ∃ cell, l.cells[n]? = some cell :=
      ⟨_, List.getElem?_eq_getElem (by rwa [Line.length_cells])⟩
    have hc : cs[n]? = some cell.char := by
      have hchar := congrArg (Option.map Cell.char) hcell
      rw [← List.getElem?_map, Line.map_char_cells] at hchar
      obtain ⟨rest, rfl⟩ := hcs
      rw [List.getElem?_append_left h, hchar]
      rfl
    simp only [run?, lookBack_succ hc, reverse_take_succ hcell, bind, Except.bind, runOpens_eq hcell,
      decide_eq_true_eq]
    rfl

end Context

namespace Buffer

theorem mem_code_of_mem_codeBefore {b : Buffer} {p : Position} {c : CodeChar} (h : c ∈ b.codeBefore p) :
    c ∈ b.code := by
  by_cases hp : p.line < b.count
  · rw [codeBefore_eq hp, List.mem_reverse] at h
    exact (List.mem_filter.mp h).1
  · rw [codeBefore_missing hp] at h
    cases h

/-- Right behind a code character, that character is read first. -/
theorem codeBefore_succ {b : Buffer} {c : CodeChar} (h : c ∈ b.code) :
    b.codeBefore ⟨c.row.index, c.column + 1⟩ = c :: b.codeBefore c.position := by
  obtain ⟨r, hr, hc⟩ := List.mem_flatMap.mp h
  obtain ⟨i, hi⟩ := List.mem_iff_getElem?.mp hr
  rw [getElem?_rows] at hi
  obtain ⟨l, hl, rfl⟩ := Option.map_eq_some_iff.mp hi
  obtain ⟨x, hx, rfl⟩ := List.mem_map.mp hc
  have hat : l.codeAt i x.1 = some ⟨⟨Row.of i l, x.1⟩, x.2⟩ := by
    have hcell : l.cells[x.1]? = some ⟨x.2, .code⟩ := Line.getElem?_of_mem_codeChars hx
    rw [Line.codeAt, hcell]
    rfl
  have hcode : ∀ n, b.codeBefore ⟨i, n⟩ = Focus.codeBefore ⟨b.above i, Row.of i l⟩ n := by
    intro n
    rw [codeBefore, focus?_eq_some hl]
  refine (hcode _).trans (Eq.trans ?_ (congrArg (List.cons _) (hcode _).symm))
  rw [Focus.codeBefore, l.filter_code_succ, hat, List.reverse_append]
  rfl

/-- The name that ends at a position. -/
def runName (b : Buffer) (p : Position) : Run (Option String) :=
  (Walker.walk b (.before b p)).map nameAtEnd?

theorem runName_eq (b : Buffer) (p : Position) : b.runName p = .ok (nameAtEnd? (b.codeBefore p)) := by
  rw [runName, Walker.walk_before]
  rfl

/-- The function that a body opened at a position belongs to. -/
def runHeader (b : Buffer) (brace : Position) : Run (Option String) := do
  match dropWhiteCode (← Walker.walk b (.before b brace)) with
  | [] => pure none
  | last :: _ =>
    if last.char = Bracket.paren.closer then
      match ← b.runOpener .paren last.position with
      | some opener => b.runName opener.position
      | none => pure none
    else b.runName ⟨last.row.index, last.column + 1⟩

theorem runHeader_eq (b : Buffer) (brace : Position) :
    b.runHeader brace = .ok (header? (b.codeBefore brace)) := by
  rw [runHeader, Walker.walk_before, header?]
  simp only [bind, Except.bind]
  cases hcode : dropWhiteCode (b.codeBefore brace) with
  | nil => rfl
  | cons last before =>
    have hlast : (last :: before) <:+ b.codeBefore brace := by
      rw [← hcode]
      exact List.dropWhile_suffix _
    have hbefore := codeBefore_of_suffix hlast
    dsimp only
    split
    · rw [runOpener_eq, hbefore]
      cases hopeners : Bracket.paren.openers 0 before with
      | nil => rfl
      | cons x more =>
        have hx : (x.1 :: x.2) <:+ before := Bracket.suffix_of_mem_openers (hopeners ▸ List.mem_cons_self)
        have hearlier := codeBefore_of_suffix ((hx.trans (List.suffix_cons last before)).trans hlast)
        exact (b.runName_eq _).trans (by rw [hearlier])
    · rw [runName_eq, codeBefore_succ (mem_code_of_mem_codeBefore (hlast.subset List.mem_cons_self)),
        hbefore]

/-- The innermost function whose body is open at a position. -/
def runEnclosing (b : Buffer) (p : Position) : Run (Option String) := do
  let code ← Walker.walk b (.before b p)
  Bracket.brace.seek (fun c => b.runHeader c.position) code

theorem runEnclosing_eq (b : Buffer) (p : Position) : b.runEnclosing p = .ok (b.enclosingFunction? p) := by
  have hheader : (fun c : CodeChar => b.runHeader c.position) =
      fun c => pure (header? (b.codeBefore c.position)) := by
    funext c
    exact b.runHeader_eq c.position
  rw [runEnclosing, Walker.walk_before, hheader]
  refine (Bracket.brace.seek_eq _ _).trans ?_
  rw [List.findSomeM?_pure, List.findSome?_map]
  exact congrArg pure (b.findSome?_header p)

end Buffer

namespace Focus

def runComplete? (b : Buffer) (f : Focus) (column : Nat) : Run (Option Completion) := do
  let start ← nameStart f.row.chars column
  let typed ← slice f.row.chars start column
  match ← Context.run? (f.row.upTo column) f.row.chars start with
  | none => pure none
  | some context =>
    let function ← if context = .property then b.runEnclosing ⟨f.row.index, start⟩ else pure none
    pure (some ⟨context, String.ofList typed, function,
      (context.pool function).filter fun name => beginsWith typed name.toList⟩)

theorem runComplete?_eq {b : Buffer} {f : Focus} (hf : b.focus? f.row.index = some f) {column : Nat}
    (h : column ≤ f.row.length) : f.runComplete? b column = .ok (f.complete? column) := by
  have hchars : (f.row.upTo column).cells.map Cell.char = f.row.chars.take column := Line.map_char_cells _
  have hstart : nameStart f.row.chars column =
      .ok ((f.row.upTo column).cells.reverse.dropWhile fun cell => isNameChar cell.char).length := by
    rw [nameStart_eq h, ← hchars, ← List.map_reverse, List.dropWhile_map, List.length_map]
    rfl
  have hcells := List.takeWhile_append_dropWhile (p := fun cell => isNameChar cell.char)
    (l := (f.row.upTo column).cells.reverse)
  rw [runComplete?, hstart]
  simp only [complete?]
  generalize ((f.row.upTo column).cells.reverse.dropWhile fun cell => isNameChar cell.char) = before
    at hcells ⊢
  generalize ((f.row.upTo column).cells.reverse.takeWhile fun cell => isNameChar cell.char) = name
    at hcells ⊢
  rw [eq_comm, List.reverse_eq_iff, List.reverse_append] at hcells
  have hlength : before.length ≤ (f.row.upTo column).length := by
    rw [← Line.length_cells, hcells, List.length_append, List.length_reverse]
    exact Nat.le_add_right _ _
  have htyped : slice f.row.chars before.length column = .ok (name.reverse.map Cell.char) := by
    have hle : before.length ≤ column := Nat.le_trans hlength (List.length_take_le _ _)
    rw [slice, if_pos ⟨hle, h⟩, ← hchars, hcells, List.map_append, List.drop_left']
    rw [List.length_map, List.length_reverse]
  have hcontext : Context.run? (f.row.upTo column) f.row.chars before.length =
      .ok (Context.of? (f.row.upTo column).openAtEnd before) := by
    rw [Context.run?_eq (List.take_prefix _ _) hlength, hcells, List.take_left' List.length_reverse,
      List.reverse_reverse]
  have hfunction : b.runEnclosing ⟨f.row.index, before.length⟩ =
      .ok (enclosingFunction? (f.codeBefore before.length)) := by
    rw [Buffer.runEnclosing_eq, Buffer.enclosingFunction?, Buffer.codeBefore, hf]
  simp only [bind, Except.bind, htyped, hcontext, hfunction]
  cases Context.of? (f.row.upTo column).openAtEnd before with
  | none => rfl
  | some context => cases context <;> rfl

end Focus

namespace Buffer

def runComplete (b : Buffer) (p : Position) : Run (Option Completion) :=
  match b.focus? p.line with
  | none => .error (.error (.lineOutOfRange p.line b.count))
  | some f =>
    if p.column ≤ f.row.length then f.runComplete? b p.column
    else .error (.error (.columnOutOfRange p.column p.line f.row.length))

theorem runComplete_eq (b : Buffer) (p : Position) :
    b.runComplete p = (b.complete p).mapError .error := by
  rw [runComplete, complete]
  cases hl : b.lines[p.line]? with
  | none => rw [focus?_eq_none hl]; rfl
  | some l =>
    have hf := focus?_eq_some hl
    rw [hf]
    dsimp only
    split
    · next hcolumn => exact Focus.runComplete?_eq hf hcolumn
    · rfl

section OnMachine

variable (machine : Machine) (cfg : Config)

def runReindent (b : Buffer) : Run (Buffer × Nat) := b.placeLinesM machine.platform (runIndent machine cfg)

def runCheck (b : Buffer) : Run (List Mismatch) :=
  b.checkLinesM machine.platform cfg.tab (runIndent machine cfg)

def runReindentText (text : String) : Run String := do
  let placed ← (ofText text).runReindent machine cfg
  placed.1.toTextM machine.platform

theorem runIndent_engine {b : Buffer} {index : Nat} {f : Focus} (hf : b.focus? index = some f) :
    b.runIndent machine cfg index = f.indentM machine.engine cfg := by
  rw [runIndent_eq machine cfg hf, Focus.indentM_engine]

theorem runReindent_eq (b : Buffer) : b.runReindent machine cfg =
    ending (b.reindentLimit? machine cfg) (b.reindent cfg, b.changes (b.reindent cfg)) := by
  rw [runReindent, placeLinesM_eq machine.platform (runIndent_engine machine cfg), reindentBelowM_eq]
  exact ending_map rfl

theorem runCheck_eq (b : Buffer) : b.runCheck machine cfg =
    ending ((b.reindentLimit? machine cfg).or (machine.overflow? (b.indentationsFit cfg))) (b.check cfg) := by
  rw [runCheck, checkLinesM_eq cfg.tab (runIndent_engine machine cfg), ← checkM_eq, checkM, reindentM,
    bind_assoc]
  simp only [pure_bind]
  rfl

theorem runReindentText_eq (text : String) : runReindentText machine cfg text =
    ending (((ofText text).reindentLimit? machine cfg).or
        (machine.tooLong? (bytes (reindentText cfg text).toList))) (reindentText cfg text) := by
  rw [runReindentText, runReindent_eq]
  exact ending_bind (toTextM_eq machine _)

end OnMachine

namespace Ordinary

variable {machine : Machine} {cfg : Config} {b : Buffer} (h : b.Ordinary machine cfg)

include h

theorem runIndent_eq (index : Nat) : b.runIndent machine cfg index = (b.indent cfg index).mapError .error := by
  rw [indent, focus]
  cases hf : b.focus? index with
  | none =>
    rw [runIndent, hf]
    rfl
  | some f =>
    rw [Buffer.runIndent_eq machine cfg hf, h.indentFits hf, Machine.overflow?_true]
    rfl

theorem runReindent_eq : b.runReindent machine cfg = .ok (b.reindent cfg, b.changes (b.reindent cfg)) := by
  rw [Buffer.runReindent_eq, h.reindentLimit?_eq_none]
  rfl

theorem runCheck_eq : b.runCheck machine cfg = .ok (b.check cfg) := by
  rw [Buffer.runCheck_eq, h.reindentLimit?_eq_none, h.indentationsFit, Machine.overflow?_true]
  rfl

end Ordinary

theorem complete_missing {b : Buffer} {p : Position} (h : b.lines[p.line]? = none) :
    b.complete p = .error (.lineOutOfRange p.line b.count) := by
  rw [complete, focus?_eq_none h]

theorem complete_beyond {b : Buffer} {p : Position} {l : Line} (hl : b.lines[p.line]? = some l)
    (h : l.length < p.column) : b.complete p = .error (.columnOutOfRange p.column p.line l.length) := by
  rw [complete, focus?_eq_some hl]
  exact if_neg (Nat.not_le.mpr h)

/-- What completion ends with depends on where the position lies. -/
theorem complete_outcome (b : Buffer) (p : Position) :
    ((∃ e, b.complete p = .error e ∧ e.code = "E010") ↔ b.count ≤ p.line) ∧
    ((∃ e, b.complete p = .error e ∧ e.code = "E011") ↔
      ∃ l, b.lines[p.line]? = some l ∧ l.length < p.column) ∧
    ((∃ found, b.complete p = .ok found) ↔ ∃ l, b.lines[p.line]? = some l ∧ p.column ≤ l.length) := by
  cases hl : b.lines[p.line]? with
  | none =>
    have hcount : b.count ≤ p.line := List.getElem?_eq_none_iff.mp hl
    simp [complete_missing hl, hcount, Error.code]
  | some l =>
    have hcount : ¬b.count ≤ p.line := Nat.not_le.mpr (List.getElem?_eq_some_iff.mp hl).1
    by_cases hcolumn : p.column ≤ l.length
    · simp [complete_of_le hl hcolumn, hcount, hcolumn]
    · have hbeyond : l.length < p.column := Nat.not_le.mp hcolumn
      simp [complete_beyond hl hbeyond, hcount, hcolumn, hbeyond, Error.code]

/-- With every counter and every index checked, a run on any buffer ends as it does without the checks,
so none is lowered below zero and none lies beyond an end. What remains are the errors about a line that
is missing and about a column behind the end of its line, and the limits of the machine, which no text of
ordinary size comes to. -/
theorem runs_on_any_text (machine : Machine) (cfg : Config) (b : Buffer) :
    (∀ index, b.count ≤ index →
      b.runIndent machine cfg index = .error (.error (.lineOutOfRange index b.count)) ∧
        (Error.lineOutOfRange index b.count).code = "E010") ∧
    (∀ index < b.count, ∃ f, b.focus? index = some f ∧ b.runIndent machine cfg index =
      ending (machine.overflow? (f.indentFits cfg)) (f.indent cfg)) ∧
    (∀ p, b.runComplete p = (b.complete p).mapError .error ∧
      ((∃ e, b.complete p = .error e ∧ e.code = "E010") ↔ b.count ≤ p.line) ∧
      ((∃ e, b.complete p = .error e ∧ e.code = "E011") ↔
        ∃ l, b.lines[p.line]? = some l ∧ l.length < p.column) ∧
      ((∃ found, b.complete p = .ok found) ↔ ∃ l, b.lines[p.line]? = some l ∧ p.column ≤ l.length)) ∧
    b.runReindent machine cfg =
      ending (b.reindentLimit? machine cfg) (b.reindent cfg, b.changes (b.reindent cfg)) ∧
    b.runCheck machine cfg =
      ending ((b.reindentLimit? machine cfg).or (machine.overflow? (b.indentationsFit cfg))) (b.check cfg) ∧
    (∀ text, runReindentText machine cfg text =
      ending (((ofText text).reindentLimit? machine cfg).or
        (machine.tooLong? (bytes (reindentText cfg text).toList))) (reindentText cfg text)) ∧
    (b.Ordinary machine cfg →
      (∀ index, b.runIndent machine cfg index = (b.indent cfg index).mapError .error) ∧
      b.runReindent machine cfg = .ok (b.reindent cfg, b.changes (b.reindent cfg)) ∧
      b.runCheck machine cfg = .ok (b.check cfg)) ∧
    ∀ text, (ofText text).Ordinary machine cfg → bytes (reindentText cfg text).toList ≤ machine.room →
      runReindentText machine cfg text = .ok (reindentText cfg text) := by
  refine ⟨fun _ h => ⟨runIndent_missing machine cfg h, rfl⟩, ?_,
    fun p => ⟨b.runComplete_eq p, b.complete_outcome p⟩, b.runReindent_eq machine cfg,
    b.runCheck_eq machine cfg, runReindentText_eq machine cfg, ?_, ?_⟩
  · intro index h
    have hf := focus?_eq_some (List.getElem?_eq_getElem h)
    exact ⟨_, hf, runIndent_eq machine cfg hf⟩
  · intro h
    exact ⟨h.runIndent_eq, h.runReindent_eq, h.runCheck_eq⟩
  · intro text h hroom
    rw [runReindentText_eq, h.reindentLimit?_eq_none, Machine.tooLong?, if_neg (Nat.not_lt.mpr hroom)]
    rfl

/-- Closers without openers, a string and a comment that do not end, and a chain below nothing. -/
def brokenText : String := "+ ] \x7d\n\x7b[\t'\nx\n /* \x7d"

theorem runs_on_any_text_broken :
    (ofText brokenText).Ordinary .debug .standard ∧
    (ofText brokenText).runCheck .debug .standard = .ok [⟨2, 4, 0⟩, ⟨3, 4, 1⟩] ∧
    runReindentText .debug .standard brokenText = .ok "+ ] \x7d\n\x7b[\t'\n    x\n    /* \x7d" := by
  have hordinary : (ofText brokenText).Ordinary .debug .standard := by
    constructor <;> decide +kernel
  have hcheck : (ofText brokenText).check .standard = [⟨2, 4, 0⟩, ⟨3, 4, 1⟩] := by decide +kernel
  have htext : reindentText .standard brokenText = "+ ] \x7d\n\x7b[\t'\n    x\n    /* \x7d" := by decide +kernel
  have hroom : bytes (reindentText .standard brokenText).toList ≤ Machine.debug.room := by decide +kernel
  obtain ⟨-, -, -, -, -, -, hruns, hrunText⟩ := runs_on_any_text .debug .standard (ofText brokenText)
  rw [← hcheck, ← htext]
  exact ⟨hordinary, (hruns hordinary).2.2, hrunText brokenText hordinary hroom⟩

/-- Tabs of the greatest width. -/
def widestTabs : Config := { Config.standard with tab := UInt64.size - 1, tab_pos := by decide }

/-- Levels half as wide as the columns that count as positive. -/
def widestLevels : Config := { Config.standard with unit := Nat.pow 2 62, unit_pos := by decide }

/-- A line below content behind a wide tab finds no room for its spaces, and two levels may be too many
for a machine that looks at its numbers. -/
theorem runs_at_the_limits :
    (ofLines (["[\tx", "y"].map String.toList)).runReindent .release widestTabs =
      .error (.limit .tooLong) ∧
    (ofLines (["[\tx", "y"].map String.toList)).runCheck .release widestTabs = .error (.limit .tooLong) ∧
    (ofLines (["\x7b[", "x"].map String.toList)).runIndent .debug widestLevels 1 =
      .error (.limit .overflow) := by
  have hlimit : (ofLines (["[\tx", "y"].map String.toList)).reindentLimit? .release widestTabs =
      some .tooLong := by decide +kernel
  refine ⟨?_, ?_, ?_⟩
  · rw [runReindent_eq, hlimit]
    rfl
  · rw [runCheck_eq, hlimit]
    rfl
  · rw [runIndent_eq .debug widestLevels (focus?_eq_some rfl)]
    decide +kernel

end Buffer

end BffLayout
