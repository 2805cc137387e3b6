import BffLayout.Proofs.Immunity
import BffLayout.Proofs.Layout

/-!
Completion at a cursor. What is being named is read off the line cut at the cursor, but the search
for the function around it reads the line as a whole. The two differ where the cursor stands inside
a comment sign. A property is named after a point, and the code before that point is the same
however the line goes on, so nothing behind the cursor has any part in the result.
-/
namespace BffLayout

namespace Mode

theorem step_of_ne_slash {c : Char} (hc : c ≠ '/') (m : Mode) (next next' : Option Char) :
    m.step c next = m.step c next' := by
  cases m <;> simp [step, hc]

/-- A text can be cut after any character that begins no comment sign. -/
theorem tag_append_of_last {cs : List Char} (h : cs.getLast? ≠ some '/') (m : Mode) (t : List Char) :
    m.tag (cs ++ t) = m.tag cs ++ (m.run cs).tag t := by
  induction cs generalizing m with
  | nil => rfl
  | cons c rest ih =>
    rw [List.cons_append, tag_cons, tag_cons, run_cons, List.cons_append]
    cases rest with
    | nil =>
      have hc : c ≠ '/' := by simpa using h
      rw [List.nil_append, step_of_ne_slash hc m t.head? (List.head? [])]
      rfl
    | cons d more =>
      have hrest : (d :: more).getLast? ≠ some '/' := by rwa [List.getLast?_cons_cons] at h
      rw [ih hrest]
      rfl

end Mode

namespace Line

/-- The kinds before a column do not depend on what follows, unless a slash stands right before it. -/
theorem take_cells {l : Line} {n : Nat} (h : (l.upTo n).chars.getLast? ≠ some '/') :
    l.cells.take n = (l.upTo n).cells := by
  have hcells : l.cells = (l.upTo n).cells ++ (l.upTo n).finish.tag (l.chars.drop n) := by
    have happend := Mode.tag_append_of_last h l.start.mode (l.chars.drop n)
    rwa [upTo, List.take_append_drop] at happend
  have hlength : (l.upTo n).cells.length = min n l.cells.length := by
    rw [length_cells, length_cells, length, upTo, List.length_take, length]
  have hprefix : (l.upTo n).cells <+: l.cells := ⟨_, hcells.symm⟩
  rw [List.take_eq_take_min, ← hlength]
  exact (List.prefix_iff_eq_take.mp hprefix).symm

theorem upTo_upTo (l : Line) {n column : Nat} (h : n ≤ column) : (l.upTo column).upTo n = l.upTo n := by
  rw [upTo, upTo, upTo, List.take_take, Nat.min_eq_left h]

theorem getLast?_upTo {l : Line} {back : List Cell} (h : back <:+ l.cells.reverse) :
    (l.upTo back.length).chars.getLast? = back.head?.map Cell.char := by
  rw [← List.reverse_prefix, List.reverse_reverse, List.prefix_iff_eq_take, List.length_reverse] at h
  have hchars : (l.upTo back.length).chars = (l.cells.take back.length).map Cell.char := by
    rw [List.map_take, map_char_cells]
    rfl
  rw [hchars, ← h, List.map_reverse, List.getLast?_reverse, List.head?_map]

theorem filter_zipIdx_lt (cells : List Cell) (n : Nat) :
    (cells.zipIdx.filter fun x => x.2 < n) = (cells.take n).zipIdx := by
  have hsplit : cells.zipIdx = (cells.take n).zipIdx ++ (cells.drop n).zipIdx (cells.take n).length := by
    conv_lhs => rw [← List.take_append_drop n cells]
    rw [List.zipIdx_append, Nat.zero_add]
  have hleft : ((cells.take n).zipIdx.filter fun x => x.2 < n) = (cells.take n).zipIdx := by
    rw [List.filter_eq_self]
    intro x hx
    have hlt := List.snd_lt_of_mem_zipIdx hx
    rw [List.length_take] at hlt
    exact decide_eq_true (by omega)
  have hright : (((cells.drop n).zipIdx (cells.take n).length).filter fun x => x.2 < n) = [] := by
    rw [List.filter_eq_nil_iff]
    intro x hx
    have hle := List.le_snd_of_mem_zipIdx hx
    have hlt := List.snd_lt_add_of_mem_zipIdx hx
    rw [List.length_take] at hle hlt
    rw [List.length_drop] at hlt
    rw [decide_eq_true_eq]
    omega
  rw [hsplit, List.filter_append, hleft, hright, List.append_nil]

theorem filter_codeChars_lt (l : Line) (n : Nat) :
    (l.codeChars.filter fun p => p.1 < n) =
      (l.cells.take n).zipIdx.filterMap fun x =>
        if x.1.kind = .code then some (x.2, x.1.char) else none := by
  rw [codeChars, List.filter_filterMap, ← filter_zipIdx_lt, List.filterMap_filter]
  apply List.filterMap_congr
  intro x _
  by_cases hcode : x.1.kind = .code
  · simp [hcode, Option.filter]
  · simp [hcode]

end Line

/-- A character at a position, in a row of which nothing else is known. -/
def CodeChar.ofPlace (x : Char × Position) : CodeChar :=
  ⟨⟨Row.of x.2.line ⟨.code, []⟩, x.2.column⟩, x.1⟩

/-- The function around a place is read off characters and their positions. -/
theorem enclosingFunction?_congr {code code' : List CodeChar}
    (h : code.map (fun c => (c.char, c.position)) = code'.map fun c => (c.char, c.position)) :
    enclosingFunction? code = enclosingFunction? code' := by
  have hplace : ∀ code : List CodeChar,
      enclosingFunction? ((code.map fun c => (c.char, c.position)).map CodeChar.ofPlace) =
        enclosingFunction? code := by
    intro code
    rw [List.map_map]
    exact enclosingFunction?_map (g := CodeChar.ofPlace ∘ fun c => (c.char, c.position))
      (fun _ => rfl) (fun _ => rfl) code
  rw [← hplace code, h, hplace code']

theorem Context.head_of_property {k : Kind} {before : List Cell}
    (h : Context.of? k before = some .property) : before.head?.map Cell.char = some '.' := by
  simp only [Context.of?] at h
  split at h
  · cases h
  · split at h
    · cases h
    · split at h
      · assumption
      · split at h <;> cases h

namespace Focus

variable {f g : Focus} (habove : f.above = g.above) (hindex : f.row.index = g.row.index)

include habove hindex

theorem map_codeBefore_congr {n : Nat} (hcells : f.row.cells.take n = g.row.cells.take n) :
    (f.codeBefore n).map (fun c => (c.char, c.position)) =
      (g.codeBefore n).map fun c => (c.char, c.position) := by
  have hplaces : ∀ r : Row, ((r.code.filter fun c => c.column < n).map fun c => (c.char, c.position)) =
      (r.codeChars.filter fun p => p.1 < n).map fun p => (p.2, Position.mk r.index p.1) := by
    intro r
    rw [Row.code, List.filter_map, List.map_map]
    rfl
  rw [codeBefore, codeBefore, habove, List.map_append, List.map_append, List.map_reverse,
    List.map_reverse, hplaces, hplaces, hindex, Line.filter_codeChars_lt, Line.filter_codeChars_lt,
    hcells]

section Cut

variable {column : Nat} (hrow : f.row.upTo column = g.row.upTo column)

include hrow

/-- The code before a point is read alike, whatever follows behind the cut. -/
theorem enclosingFunction?_cut {before : List Cell}
    (hbefore : before <:+ (g.row.upTo column).cells.reverse)
    (hpoint : before.head?.map Cell.char = some '.') :
    enclosingFunction? (f.codeBefore before.length) =
      enclosingFunction? (g.codeBefore before.length) := by
  have hcolumn : before.length ≤ column := by
    have hle := hbefore.length_le
    rw [List.length_reverse, Line.length_cells, Line.length, Line.upTo, List.length_take] at hle
    omega
  have hlast : (g.row.upTo before.length).chars.getLast? = some '.' := by
    rw [← Line.upTo_upTo _ hcolumn, Line.getLast?_upTo hbefore, hpoint]
  have hsame : f.row.upTo before.length = g.row.upTo before.length := by
    rw [← Line.upTo_upTo _ hcolumn, hrow, Line.upTo_upTo _ hcolumn]
  apply enclosingFunction?_congr
  apply map_codeBefore_congr habove hindex
  rw [Line.take_cells, Line.take_cells, hsame]
  · rw [hlast]
    decide
  · rw [hsame, hlast]
    decide

/-- Completion looks at the rows above and at the row cut at the cursor. -/
theorem complete?_congr : f.complete? column = g.complete? column := by
  simp only [complete?, hrow]
  generalize hbefore :
    (g.row.upTo column).cells.reverse.dropWhile (fun cell => isNameChar cell.char) = before
  cases hcontext : Context.of? (g.row.upTo column).openAtEnd before with
  | none => rfl
  | some context =>
    by_cases hproperty : context = .property
    · subst hproperty
      have hback : before <:+ (g.row.upTo column).cells.reverse := by
        rw [← hbefore]
        exact List.dropWhile_suffix _
      simp only [Option.map_some, if_true,
        enclosingFunction?_cut habove hindex hrow hback (Context.head_of_property hcontext)]
    · simp only [Option.map_some, hproperty, if_false]

end Cut

end Focus

namespace Buffer

/-- Completion never looks past the cursor: texts with the same lines above it and the same
characters to its left complete alike. -/
theorem complete_eq_of_take {lines lines' : List (List Char)} {p : Position} {cs cs' : List Char}
    (habove : lines.take p.line = lines'.take p.line)
    (hline : lines[p.line]? = some cs) (hline' : lines'[p.line]? = some cs')
    (hcolumn : p.column ≤ cs.length) (hcolumn' : p.column ≤ cs'.length)
    (hleft : cs.take p.column = cs'.take p.column) :
    ∃ found, (ofLines lines).complete p = .ok found ∧ (ofLines lines').complete p = .ok found := by
  rw [complete, complete, focus?_ofLines hline, focus?_ofLines hline']
  refine ⟨_, if_pos hcolumn, ?_⟩
  refine (if_pos hcolumn').trans (congrArg Except.ok ?_)
  rw [habove]
  apply Focus.complete?_congr
  · rfl
  · rfl
  · exact congrArg (Line.mk (stateAfter .code (lines'.take p.line))) hleft.symm

/-- A line that goes on with a comment right behind the cursor, inside a body. -/
def goesOn : List (List Char) :=
  ["Exec( 'a' )", "\x7b // \x7d", "  .A = .Ex/* \x7d", "*/"].map String.toList

/-- The same text up to the cursor, and something else behind it. -/
def breaksOff : List (List Char) :=
  ["Exec( 'a' )", "\x7b // \x7d", "  .A = .Ex/", "\x7d \x7d"].map String.toList

/-- Behind the name a property is completed, and between the two halves of the comment sign a word. -/
theorem complete_eq_of_take_breaksOff :
    (∃ names, (ofLines goesOn).complete ⟨2, 10⟩ = .ok (some ⟨.property, "Ex", some "Exec", names⟩) ∧
      (ofLines breaksOff).complete ⟨2, 10⟩ = .ok (some ⟨.property, "Ex", some "Exec", names⟩)) ∧
    ∃ found, (ofLines goesOn).complete ⟨2, 11⟩ = .ok found ∧
      (ofLines breaksOff).complete ⟨2, 11⟩ = .ok found := by
  have habove : goesOn.take 2 = breaksOff.take 2 := by decide
  obtain ⟨found, hfound, hfound'⟩ := complete_eq_of_take (p := ⟨2, 10⟩) habove rfl rfl (by decide)
    (by decide) (by decide)
  obtain ⟨names, hnames⟩ : ∃ names, (ofLines goesOn).complete ⟨2, 10⟩ =
      .ok (some ⟨.property, "Ex", some "Exec", names⟩) := ⟨_, rfl⟩
  refine ⟨⟨names, hnames, ?_⟩, ?_⟩
  · rw [hfound', ← hnames, hfound]
  · exact complete_eq_of_take (p := ⟨2, 11⟩) habove rfl rfl (by decide) (by decide) (by decide)

end Buffer

end BffLayout
