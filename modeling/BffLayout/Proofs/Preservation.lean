import BffLayout.Proofs.Editing
import BffLayout.Proofs.InPlace
import BffLayout.Proofs.Layout

/-!
What re-indentation preserves. Lines keep their number, their content and whatever structure is read
off it. Places move with the left margin of their line, and a bracket still answers the bracket that
it answered before the move.
-/
namespace BffLayout

/-- Rows that agree behind the margin, where `σ` takes each place in the one to the same place in
the other. -/
structure Row.Carried (σ : Position → Position) (r s : Row) : Prop where
  flush : r.toLine.flush = s.toLine.flush
  place : ∀ j, σ ⟨r.index, r.margin + j⟩ = ⟨s.index, s.margin + j⟩

section Carried

variable {σ : Position → Position}

theorem Row.Carried.core {r s : Row} (h : r.Carried σ s) : r.core = s.core := by
  rw [← Line.core_flush, h.flush, Line.core_flush]

/-- The brackets that a part of the content holds, with their places before and after. -/
theorem Row.Carried.map_places {r s : Row} (h : r.Carried σ s) (ps : List (Nat × Char)) :
    (ps.map fun p => CodeChar.mk ⟨r, r.margin + p.1⟩ p.2).map (fun c => (c.char, σ c.position)) =
      (ps.map fun p => CodeChar.mk ⟨s, s.margin + p.1⟩ p.2).map fun c => (c.char, c.position) := by
  rw [List.map_map, List.map_map]
  apply List.map_congr_left
  intro p _
  exact congrArg (Prod.mk p.2) (h.place p.1)

theorem map_bracketsBack_carried {above above' : List Row}
    (h : List.Forall₂ (Row.Carried σ) above above') :
    (bracketsBack above).map (fun c => (c.char, σ c.position)) =
      (bracketsBack above').map fun c => (c.char, c.position) := by
  induction h with
  | nil => rfl
  | cons hr _ ih =>
    rw [bracketsBack_cons, bracketsBack_cons, List.map_append, List.map_append, ih,
      List.map_reverse, List.map_reverse, Row.brackets_core, Row.brackets_core, hr.core, hr.map_places]

namespace Focus

variable {f g : Focus} (hrow : f.row.Carried σ g.row)
  (habove : List.Forall₂ (Row.Carried σ) f.above g.above)

include hrow habove

theorem map_bracketsBefore_carried (j : Nat) :
    (f.bracketsBefore (f.row.margin + j)).map (fun c => (c.char, σ c.position)) =
      (g.bracketsBefore (g.row.margin + j)).map fun c => (c.char, c.position) := by
  rw [bracketsBefore, bracketsBefore, Row.filter_brackets, Row.filter_brackets, hrow.core,
    List.map_append, List.map_append, List.map_reverse, List.map_reverse, hrow.map_places]
  exact congrArg _ (map_bracketsBack_carried habove)

/-- A bracket answers the same bracket wherever the margins have moved both. -/
theorem matchingOpener?_carried (j : Nat) :
    (f.matchingOpener? (f.row.margin + j)).map (fun s => σ s.position) =
      (g.matchingOpener? (g.row.margin + j)).map Spot.position := by
  have hcell : f.row.cells[f.row.margin + j]? = g.row.cells[g.row.margin + j]? := by
    rw [← List.getElem?_drop, ← List.getElem?_drop, Line.drop_margin_cells, Line.drop_margin_cells,
      hrow.flush]
  have hopener : ∀ b : Bracket,
      (b.opener? (f.bracketsBefore (f.row.margin + j))).map (fun s => σ s.position) =
        (b.opener? (g.bracketsBefore (g.row.margin + j))).map Spot.position := by
    intro b
    exact b.opener?_congr _ _ (map_bracketsBefore_carried hrow habove j)
  rw [matchingOpener?_bind, matchingOpener?_bind, hcell]
  cases g.row.cells[g.row.margin + j]? with
  | none => rfl
  | some x =>
    by_cases hx : x.kind = .code
    · cases hcloser : Bracket.ofCloser? x.char with
      | none => simp [hx, hcloser]
      | some b => simp [hx, hcloser, hopener]
    · simp [hx]

end Focus

end Carried

namespace Buffer

/-- The number of white characters before the content of a line. -/
def margin (b : Buffer) (index : Nat) : Nat :=
  match b.lines[index]? with
  | some l => l.margin
  | none => 0

/-- The position in `c` of the character that `b` has at `p`, where the two differ in margins. -/
def carry (b c : Buffer) (p : Position) : Position :=
  ⟨p.line, c.margin p.line + (p.column - b.margin p.line)⟩

theorem margin_eq {b : Buffer} {i : Nat} {l : Line} (h : b.lines[i]? = some l) :
    b.margin i = l.margin := by
  rw [margin, h]

section SameContent

variable {b c : Buffer} (h : b.lines.map Line.flush = c.lines.map Line.flush)

include h

theorem flush_getElem? (i : Nat) : b.lines[i]?.map Line.flush = c.lines[i]?.map Line.flush := by
  rw [← List.getElem?_map, ← List.getElem?_map, h]

theorem carried_of_getElem? {i : Nat} {l m : Line} (hl : b.lines[i]? = some l)
    (hm : c.lines[i]? = some m) : (Row.of i l).Carried (b.carry c) (Row.of i m) := by
  constructor
  · have hflush := flush_getElem? h i
    rw [hl, hm] at hflush
    exact Option.some.inj hflush
  · intro j
    have hcolumn : c.margin i + (l.margin + j - b.margin i) = m.margin + j := by
      rw [margin_eq hl, margin_eq hm, Nat.add_sub_cancel_left]
    exact congrArg (Position.mk i) hcolumn

theorem carried_rows : List.Forall₂ (Row.Carried (b.carry c)) b.rows c.rows := by
  have hlength : b.lines.length = c.lines.length := by simpa using congrArg List.length h
  have hrow : ∀ (d : Buffer) (i : Nat) (hi : i < d.rows.length),
      ∃ l, d.lines[i]? = some l ∧ d.rows.get ⟨i, hi⟩ = Row.of i l := by
    intro d i hi
    have hget := getElem?_rows d i
    rw [List.getElem?_eq_getElem hi, eq_comm, Option.map_eq_some_iff] at hget
    obtain ⟨l, hl, he⟩ := hget
    exact ⟨l, hl, he.symm⟩
  rw [List.forall₂_iff_get]
  constructor
  · rw [rows_eq, rows_eq, length_rowsFrom, length_rowsFrom, hlength]
  · intro i hb hc
    obtain ⟨l, hl, hrowb⟩ := hrow b i hb
    obtain ⟨m, hm, hrowc⟩ := hrow c i hc
    rw [hrowb, hrowc]
    exact carried_of_getElem? h hl hm

/-- Matching commutes with the move from one buffer to the other. -/
theorem matchingOpener?_carry {p : Position} (hp : b.margin p.line ≤ p.column) :
    c.matchingOpener? (b.carry c p) = (b.matchingOpener? p).map (b.carry c) := by
  obtain ⟨line, column⟩ := p
  have hflush := flush_getElem? h line
  cases hl : b.lines[line]? with
  | none =>
    rw [hl, Option.map_none, eq_comm, Option.map_eq_none_iff] at hflush
    simp [matchingOpener?, focus?, getElem?_rows, carry, hl, hflush]
  | some l =>
    rw [hl, Option.map_some, eq_comm, Option.map_eq_some_iff] at hflush
    obtain ⟨m, hm, -⟩ := hflush
    have hrow := carried_of_getElem? h hl hm
    have habove : List.Forall₂ (Row.Carried (b.carry c)) (b.above line) (c.above line) :=
      List.forall₂_reverse_iff.mpr (List.forall₂_take _ (carried_rows h))
    rw [margin_eq hl] at hp
    obtain ⟨j, rfl⟩ := Nat.exists_eq_add_of_le hp
    have hcarry : b.carry c ⟨line, l.margin + j⟩ = ⟨line, m.margin + j⟩ := hrow.place j
    have hopener := Focus.matchingOpener?_carried
      (f := ⟨b.above line, Row.of line l⟩) (g := ⟨c.above line, Row.of line m⟩) hrow habove j
    rw [hcarry]
    simp only [matchingOpener?, focus?_eq_some hl, focus?_eq_some hm, Option.map_map]
    exact hopener.symm

end SameContent

/-- An opening bracket is content, like the closing bracket that it answers. The move from a buffer
to itself fixes exactly the places behind the margins. -/
theorem margin_le_of_matchingOpener? {b : Buffer} {p q : Position} (hp : b.margin p.line ≤ p.column)
    (h : b.matchingOpener? p = some q) : b.margin q.line ≤ q.column := by
  have hfixed : b.carry b p = p := congrArg (Position.mk p.line) (Nat.add_sub_cancel' hp)
  have hcarry := matchingOpener?_carry (b := b) (c := b) rfl hp
  rw [hfixed, h, Option.map_some, Option.some.injEq] at hcarry
  have hcolumn : q.column = b.margin q.line + (q.column - b.margin q.line) :=
    congrArg Position.column hcarry
  omega

end Buffer

/-- What becomes of a line: inside a block comment it stays as it is, a blank line becomes empty,
and any other line is its content behind some spaces. Its part in the structure stays the same. -/
structure Line.Kept (l placed : Line) : Prop where
  comment : l.start = .block → placed = l
  blank : l.start = .code → l.isBlank = true → placed.chars = []
  content : l.start = .code → l.isBlank = false →
    ∃ n, placed.chars = List.replicate n ' ' ++ dropWhite l.chars
  depthChange : placed.depthChange = l.depthChange
  directive : placed.directive? = l.directive?
  continuation : placed.isContinuation = l.isContinuation

theorem Focus.kept_reindented (cfg : Config) (f : Focus) :
    f.row.toLine.Kept (f.reindented cfg).toLine := by
  have hcore := (reindented_respaced cfg f).core
  refine ⟨?_, ?_, ?_, ?_, ?_, ?_⟩
  · intro hstart
    rw [reindented_block cfg hstart]
  · intro hstart hblank
    rw [reindented_code cfg hstart]
    exact withIndent_of_blank hblank _
  · intro hstart hblank
    rw [reindented_code cfg hstart]
    exact ⟨_, withIndent_of_content hblank _⟩
  · exact Line.eq_of_core Line.depthChange_core hcore
  · exact Line.eq_of_core Line.directive?_core hcore
  · exact Line.eq_of_core Line.isContinuation_core hcore

namespace Buffer

theorem kept_reindent (cfg : Config) {b : Buffer} {i : Nat} {l : Line} (h : b.lines[i]? = some l) :
    ∃ placed, (b.reindent cfg).lines[i]? = some placed ∧ l.Kept placed := by
  have hrow : b.rows[i]? = some (Row.of i l) := by
    rw [getElem?_rows, h]
    rfl
  refine ⟨_, ?_, Focus.kept_reindented cfg
    ⟨((reindentBelow cfg [] b.rows).take i).reverse ++ [], Row.of i l⟩⟩
  rw [reindent_eq, List.getElem?_map, getElem?_reindentBelow, hrow]
  rfl

theorem count_reindent (cfg : Config) (b : Buffer) : (b.reindent cfg).count = b.count := by
  have hflush := congrArg List.length (map_flush_reindent cfg b)
  rwa [List.length_map, List.length_map] at hflush

/-- Re-indentation preserves the program. Every line is kept, brackets answer each other as before,
and the lines counted on the way are those whose text has changed. -/
theorem reindent_preserves (cfg : Config) (b : Buffer) :
    (b.reindent cfg).count = b.count ∧
    (∀ (i : Nat) (l : Line), b.lines[i]? = some l →
      ∃ placed, (b.reindent cfg).lines[i]? = some placed ∧ l.Kept placed) ∧
    (∀ p : Position, b.margin p.line ≤ p.column →
      (∀ q ∈ b.matchingOpener? p, b.margin q.line ≤ q.column) ∧
      (b.reindent cfg).matchingOpener? (b.carry (b.reindent cfg) p) =
        (b.matchingOpener? p).map (b.carry (b.reindent cfg))) ∧
    b.placeLines cfg = .ok (b.reindent cfg, b.changes (b.reindent cfg)) ∧
    b.changes (b.reindent cfg) =
      (List.range b.count).countP fun i => b.text? i != (b.reindent cfg).text? i := by
  refine ⟨count_reindent cfg b, ?_, ?_, placeLines_eq cfg b, ?_⟩
  · intro i l h
    exact kept_reindent cfg h
  · intro p hp
    constructor
    · intro q hq
      exact margin_le_of_matchingOpener? hp hq
    · exact matchingOpener?_carry (map_flush_reindent cfg b).symm hp
  · exact changes_eq_countP (count_reindent cfg b).symm

/-- A list whose brackets both move, around a comment that does not. -/
def looseList : List (List Char) :=
  ["\x7b", ".A = [ /*", "   b", " */ 'c'", "  ", "\t ]", "\x7d"].map String.toList

theorem reindent_preserves_looseList :
    (∃ placed, ((ofLines looseList).reindent .standard).lines[2]? = some placed ∧
      placed.chars = "   b".toList) ∧
    ((ofLines looseList).reindent .standard).matchingOpener?
        ((ofLines looseList).carry ((ofLines looseList).reindent .standard) ⟨5, 2⟩) =
      some ((ofLines looseList).carry ((ofLines looseList).reindent .standard) ⟨1, 5⟩) := by
  have hline : (ofLines looseList).lines[2]? = some ⟨.block, "   b".toList⟩ := by decide
  have hmargin : (ofLines looseList).margin 5 ≤ 2 := by decide
  have hopener : (ofLines looseList).matchingOpener? ⟨5, 2⟩ = some ⟨1, 5⟩ := by decide
  obtain ⟨-, hkept, hmatching, -⟩ := reindent_preserves .standard (ofLines looseList)
  obtain ⟨placed, hplaced, hline_kept⟩ := hkept 2 _ hline
  refine ⟨⟨placed, hplaced, ?_⟩, ?_⟩
  · rw [hline_kept.comment rfl]
  · rw [(hmatching ⟨5, 2⟩ hmargin).2, hopener, Option.map_some]

end Buffer

end BffLayout
