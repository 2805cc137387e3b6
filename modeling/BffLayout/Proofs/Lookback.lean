import Mathlib.Data.List.Forall2
import BffLayout.Proofs.Content
import BffLayout.Reindent

/-!
Looking back. The indent of a row is read off the rows above it. Of the row itself only three
things count: whether it continues a statement, the nesting closer it leads with, and whether it is
a directive that ends a branch. All three belong to its content.
-/
namespace BffLayout

/-- The rows of `lines`, numbered from `first`. -/
def rowsFrom (first : Nat) (lines : List Line) : List Row :=
  (lines.zipIdx first).map fun (l, i) => Row.of i l

@[simp] theorem rowsFrom_nil (first : Nat) : rowsFrom first [] = [] := rfl

@[simp] theorem rowsFrom_cons (first : Nat) (l : Line) (rest : List Line) :
    rowsFrom first (l :: rest) = Row.of first l :: rowsFrom (first + 1) rest := rfl

theorem rowsFrom_append (first : Nat) (xs ys : List Line) :
    rowsFrom first (xs ++ ys) = rowsFrom first xs ++ rowsFrom (first + xs.length) ys := by
  rw [rowsFrom, List.zipIdx_append, List.map_append]
  rfl

@[simp] theorem length_rowsFrom (first : Nat) (lines : List Line) :
    (rowsFrom first lines).length = lines.length := by
  rw [rowsFrom, List.length_map, List.length_zipIdx]

theorem getElem?_rowsFrom (first : Nat) (lines : List Line) (i : Nat) :
    (rowsFrom first lines)[i]? = lines[i]?.map (Row.of (first + i)) := by
  simp only [rowsFrom, List.getElem?_map, List.getElem?_zipIdx, Option.map_map]
  rfl

theorem map_toLine_rowsFrom (first : Nat) (lines : List Line) :
    (rowsFrom first lines).map Row.toLine = lines := by
  rw [rowsFrom, List.map_map]
  exact List.zipIdx_map_fst first lines

theorem Buffer.map_toLine_rows (b : Buffer) : b.rows.map Row.toLine = b.lines := map_toLine_rowsFrom 0 b.lines

/-- Rows are numbered from the top. -/
theorem index_of_mem_rowsFrom {first : Nat} {lines : List Line} {r : Row}
    (hr : r ∈ rowsFrom first lines) : first ≤ r.index := by
  obtain ⟨⟨l, i⟩, hmem, rfl⟩ := List.mem_map.mp hr
  exact List.le_snd_of_mem_zipIdx hmem

theorem pairwise_rowsFrom (first : Nat) (lines : List Line) :
    (rowsFrom first lines).Pairwise fun r s => r.index < s.index := by
  induction lines generalizing first with
  | nil => exact .nil
  | cons l rest ih =>
    refine List.pairwise_cons.mpr ⟨?_, ih (first + 1)⟩
    intro r hr
    exact index_of_mem_rowsFrom hr

/-- Rows with the same number whose lines are related. -/
structure Row.Lift (R : Line → Line → Prop) (r s : Row) : Prop where
  index : s.index = r.index
  line : R r.toLine s.toLine

theorem forall₂_rowsFrom {R : Line → Line → Prop} {ls ms : List Line} (h : List.Forall₂ R ls ms)
    (first : Nat) : List.Forall₂ (Row.Lift R) (rowsFrom first ls) (rowsFrom first ms) := by
  induction h generalizing first with
  | nil => exact .nil
  | cons hl _ ih => exact .cons ⟨rfl, hl⟩ (ih (first + 1))

theorem Buffer.rows_eq (b : Buffer) : b.rows = rowsFrom 0 b.lines := rfl

/-- The brackets of the rows, last one first. -/
def bracketsBack (above : List Row) : List CodeChar := above.flatMap fun r => r.brackets.reverse

@[simp] theorem bracketsBack_nil : bracketsBack [] = [] := rfl

@[simp] theorem bracketsBack_cons (r : Row) (above : List Row) :
    bracketsBack (r :: above) = r.brackets.reverse ++ bracketsBack above := rfl

/-- The brackets of a row stand behind its margin. -/
theorem Row.brackets_core (r : Row) :
    r.brackets = r.core.brackets.map fun p => ⟨⟨r, r.margin + p.1⟩, p.2⟩ := by
  rw [Row.brackets, r.marks_eq, Line.brackets_core, List.map_map]
  rfl

/-- The brackets before the character with index `j` of the content. -/
theorem Row.filter_brackets (r : Row) (j : Nat) :
    (r.brackets.filter fun c => c.column < r.margin + j) =
      (r.core.brackets.filter fun p => p.1 < j).map fun p => ⟨⟨r, r.margin + p.1⟩, p.2⟩ := by
  rw [Row.brackets_core, List.filter_map]
  simp [Function.comp_def]

theorem eq_map_iff_forall₂ {α β : Type} {g : β → α} {xs : List α} {ys : List β} :
    xs = ys.map g ↔ List.Forall₂ (fun x y => x = g y) xs ys := by
  rw [← List.forall₂_map_right_iff (R := Eq), List.forall₂_eq_eq_eq]

theorem map_eq_map_iff_forall₂ {α β γ : Type} {f : α → γ} {g : β → γ} {xs : List α} {ys : List β} :
    xs.map f = ys.map g ↔ List.Forall₂ (fun x y => f x = g y) xs ys := by
  rw [eq_map_iff_forall₂, List.forall₂_map_left_iff]

/-- Matching sees the characters alone. Where each place is related to a place with the same
character, the openers found are related, and so is the code before them. -/
theorem Bracket.openers_forall₂ {R : CodeChar → CodeChar → Prop}
    (hR : ∀ c d, R c d → c.char = d.char) (b : Bracket) (pending : Nat)
    {code₁ code₂ : List CodeChar} (h : List.Forall₂ R code₁ code₂) :
    List.Forall₂ (fun p q => R p.1 q.1 ∧ List.Forall₂ R p.2 q.2)
      (b.openers pending code₁) (b.openers pending code₂) := by
  induction h generalizing pending with
  | nil => exact .nil
  | @cons c d before₁ before₂ hcd hbefore ih =>
    have hchar := hR c d hcd
    by_cases hc : c.char = b.closer
    · rw [openers_closer hc, openers_closer (hchar ▸ hc)]
      exact ih (pending + 1)
    · by_cases ho : c.char = b.opener
      · cases pending with
        | zero =>
          rw [openers_opener_zero ho, openers_opener_zero (hchar ▸ ho)]
          exact .cons ⟨hcd, hbefore⟩ (ih 0)
        | succ n =>
          rw [openers_opener_succ ho, openers_opener_succ (hchar ▸ ho)]
          exact ih n
      · rw [openers_other hc ho, openers_other (hchar ▸ hc) (hchar ▸ ho)]
        exact ih pending

namespace Focus

/-- No bracket stands before the first character that is not white. -/
theorem bracketsBefore_margin (f : Focus) : f.bracketsBefore f.row.margin = bracketsBack f.above := by
  have hown : (f.row.brackets.filter fun c => c.column < f.row.margin) = [] := by
    simpa using f.row.filter_brackets 0
  rw [bracketsBefore, hown]
  rfl

theorem matchingOpener?_bind (f : Focus) (column : Nat) :
    f.matchingOpener? column = f.row.cells[column]?.bind fun x =>
      if x.kind = .code then
        (Bracket.ofCloser? x.char).bind fun b => b.opener? (f.bracketsBefore column)
      else none := by
  unfold matchingOpener?
  rcases f.row.cells[column]? with _ | ⟨c, kind⟩
  · rfl
  · cases kind with
    | code => cases h : Bracket.ofCloser? c <;> simp [h]
    | string | lineComment | blockComment => rfl

theorem matchingOpener?_eq {f : Focus} {column : Nat} {c : Char}
    (h : f.row.cells[column]? = some ⟨c, .code⟩) :
    f.matchingOpener? column =
      (Bracket.ofCloser? c).bind fun b => b.opener? (f.bracketsBefore column) := by
  rw [matchingOpener?_bind, h]
  rfl

theorem leadingOpener?_eq (f : Focus) :
    f.leadingOpener? = f.row.leadingCloser?.bind fun b => b.opener? (bracketsBack f.above) := by
  rw [leadingOpener?_bind, Line.leadingCloser?]
  cases hlead : f.row.leading? with
  | none => rfl
  | some p =>
    obtain ⟨column, c⟩ := p
    have hcell := Line.getElem?_of_leading? hlead
    rw [Line.column_eq_margin hlead] at hcell ⊢
    simp only [Option.bind_some, isNestingCloser, nestingCloser?, matchingOpener?_eq hcell,
      bracketsBefore_margin]
    cases Bracket.ofCloser? c with
    | none => rfl
    | some b => cases b <;> rfl

theorem trailingOpener?_eq (f : Focus) :
    f.trailingOpener? = f.row.trailing?.bind fun p => (nestingCloser? p.2).bind fun b =>
      (b.opener? (f.bracketsBefore p.1)).filter fun s => s.row.index < f.row.index := by
  rw [trailingOpener?_bind]
  cases htrail : f.row.trailing? with
  | none => rfl
  | some p =>
    obtain ⟨column, c⟩ := p
    have hcell := Line.getElem?_of_trailing? htrail
    simp only [Option.bind_some, isNestingCloser, nestingCloser?, matchingOpener?_eq hcell]
    cases Bracket.ofCloser? c with
    | none => rfl
    | some b => cases b <;> rfl

/-- The indent of a row, in terms of its content and of the rows above. -/
theorem indent_eq (cfg : Config) (f : Focus) :
    f.indent cfg = match f.previous? with
      | none => 0
      | some previous =>
        if f.row.isContinuation then
          (previous.row.anchor? cfg.tab).getD (previous.row.indentation cfg.tab)
        else match f.row.leadingCloser? with
          | some b => ((b.opener? (bracketsBack f.above)).map (·.closerColumn cfg.tab)).getD 0
          | none =>
            if f.row.closesBranch then (previous.follow cfg).column cfg - cfg.unit
            else (previous.follow cfg).column cfg := by
  rw [indent_eq_column, shape_eq]
  cases f.previous? with
  | none => rfl
  | some previous =>
    simp only [leadingOpener?_eq, Line.leadsWithCloser_eq]
    by_cases hcont : f.row.isContinuation = true
    · simp only [hcont, if_true, Shape.column_continuation]
    · cases hcloser : f.row.leadingCloser? with
      | some b =>
        simp only [hcont, Bool.false_eq_true, if_false, Option.isSome_some, if_true, Option.bind_some,
          Shape.column_closer]
      | none =>
        simp only [hcont, if_false, Option.isSome_none, Bool.false_eq_true]
        split <;> rfl

/-- Rows with the same content have the same indent below the same rows. -/
theorem indent_congr (cfg : Config) (above : List Row) {r s : Row} (h : r.core = s.core) :
    indent cfg ⟨above, r⟩ = indent cfg ⟨above, s⟩ := by
  have hcont : r.isContinuation = s.isContinuation :=
    Line.eq_of_core Line.isContinuation_core h
  have hcloser : r.leadingCloser? = s.leadingCloser? :=
    Line.eq_of_core Line.leadingCloser?_core h
  have hbranch : r.closesBranch = s.closesBranch :=
    Line.eq_of_core Line.closesBranch_core h
  simp only [indent_eq, previous?, hcont, hcloser, hbranch]

end Focus

/-- The column of an ordinary line directly below the rows. -/
def followColumn (cfg : Config) (above : List Row) : Nat :=
  match nearest? above with
  | some f => (f.follow cfg).column cfg
  | none => 0

theorem followColumn_cons_blank (cfg : Config) {r : Row} (hr : r.isBlank = true) (above : List Row) :
    followColumn cfg (r :: above) = followColumn cfg above := by
  simp only [followColumn, nearest?, hr, if_true]

theorem followColumn_cons (cfg : Config) {r : Row} (hr : r.isBlank = false) (above : List Row) :
    followColumn cfg (r :: above) = (Focus.follow cfg ⟨above, r⟩).column cfg := by
  simp only [followColumn, nearest?, hr, Bool.false_eq_true, if_false]

namespace Focus

variable (cfg : Config) {f : Focus} (hcont : f.row.isContinuation = false)

include hcont

theorem indent_ordinary (hcloser : f.row.leadingCloser? = none) (hbranch : f.row.closesBranch = false) :
    f.indent cfg = followColumn cfg f.above := by
  simp only [indent_eq, followColumn, previous?, hcont, hcloser, hbranch, Bool.false_eq_true, if_false]
  cases nearest? f.above <;> rfl

/-- At the top of a buffer there is no branch to end, and nothing to step back from. -/
theorem indent_branchEnd (hcloser : f.row.leadingCloser? = none) (hbranch : f.row.closesBranch = true) :
    f.indent cfg = followColumn cfg f.above - cfg.unit := by
  simp only [indent_eq, followColumn, previous?, hcont, hcloser, hbranch, Bool.false_eq_true, if_false,
    if_true]
  cases nearest? f.above with
  | none => exact (Nat.zero_sub cfg.unit).symm
  | some g => rfl

theorem indent_closer {b : Bracket} (hcloser : f.row.leadingCloser? = some b)
    (habove : (nearest? f.above).isSome = true) {s : Spot}
    (hs : b.opener? (bracketsBack f.above) = some s) : f.indent cfg = s.closerColumn cfg.tab := by
  obtain ⟨g, hg⟩ := Option.isSome_iff_exists.mp habove
  simp only [indent_eq, previous?, hg, hcont, hcloser, hs, Bool.false_eq_true, if_false, Option.map_some,
    Option.getD_some]

end Focus

end BffLayout
