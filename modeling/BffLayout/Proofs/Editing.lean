import BffLayout.Proofs.Placing

/-!
Editing. Left margins can be changed one by one or all at once, in any order and any number of
times. The states that a buffer keeps for its lines are never computed anew, and need not be: they
are those of the current text, and the characters behind the margins keep their kinds.
-/
namespace BffLayout

namespace Line

/-- The line without its left margin. -/
def flush (l : Line) : Line := ⟨l.start, dropWhite l.chars⟩

@[simp] theorem core_flush (l : Line) : l.flush.core = l.core := by
  rw [core, flush, trim_dropWhite, core]

@[simp] theorem flush_setIndentation (l : Line) (n : Nat) :
    (l.setIndentation n).flush = l.flush := by
  rw [flush, setIndentation, dropWhite_withIndent, flush]

@[simp] theorem next_flush (l : Line) : l.flush.next = l.next := eq_of_core next_core (core_flush l)

/-- The margin is scanned without effect. -/
theorem cells_eq_append (l : Line) :
    l.cells = l.start.mode.tag (takeWhite l.chars) ++ l.flush.cells := by
  rw [cells, cells, flush, ← Mode.tag_white_append _ (allWhite_takeWhite _),
    takeWhite_append_dropWhite]

/-- The cells from the first one on that is not white. -/
theorem drop_margin_cells (l : Line) : l.cells.drop l.margin = l.flush.cells := by
  rw [cells_eq_append, List.drop_left']
  rw [Mode.length_tag, margin]

end Line

theorem Row.Respaced.flush {r s : Row} (h : r.Respaced s) : r.toLine.flush = s.toLine.flush := by
  rw [Line.flush, Line.flush, h.start, h.content]

theorem map_flush_of_respaced {rows rows' : List Row} (h : List.Forall₂ Row.Respaced rows rows') :
    (rows.map Row.toLine).map Line.flush = (rows'.map Row.toLine).map Line.flush := by
  rw [List.map_map, List.map_map, map_eq_map_iff_forall₂]
  exact h.imp fun _ _ => Row.Respaced.flush

/-- A change of left margins: of one line, or of all lines at once. -/
inductive Edit where
  | setIndentation (index width : Nat)
  | reindent (cfg : Config)

namespace Buffer

def edit (b : Buffer) : Edit → Buffer
  | .setIndentation index width => b.setIndentation index width
  | .reindent cfg => b.reindent cfg

/-- One edit after another. -/
def edits (b : Buffer) (es : List Edit) : Buffer := es.foldl edit b

theorem map_flush_setIndentation (b : Buffer) (index n : Nat) :
    (b.setIndentation index n).lines.map Line.flush = b.lines.map Line.flush := by
  apply List.ext_getElem?
  intro i
  rw [setIndentation, List.getElem?_map, List.getElem?_map, List.getElem?_modify]
  by_cases hi : index = i
  · cases b.lines[i]? <;> simp [hi]
  · simp [hi]

theorem map_flush_reindent (cfg : Config) (b : Buffer) :
    (b.reindent cfg).lines.map Line.flush = b.lines.map Line.flush := by
  rw [← b.map_toLine_rows]
  exact map_flush_of_respaced (reindentBelow_respaced cfg [] b.rows)

/-- No edit changes what stands behind the margins. -/
theorem map_flush_edit (b : Buffer) (e : Edit) :
    (b.edit e).lines.map Line.flush = b.lines.map Line.flush := by
  cases e with
  | setIndentation index width => exact map_flush_setIndentation b index width
  | reindent cfg => exact map_flush_reindent cfg b

theorem map_flush_edits (b : Buffer) (es : List Edit) :
    (b.edits es).lines.map Line.flush = b.lines.map Line.flush := by
  induction es generalizing b with
  | nil => rfl
  | cons e rest ih => exact (ih (b.edit e)).trans (map_flush_edit b e)

/-- Lines that agree with a text behind the margins have the states of their own text. -/
theorem linesFrom_of_flush {s : ScanState} {lines : List (List Char)} {ls : List Line}
    (h : ls.map Line.flush = (linesFrom s lines).map Line.flush) :
    linesFrom s (ls.map Line.chars) = ls := by
  induction lines generalizing s ls with
  | nil =>
    rw [linesFrom, List.map_nil, List.map_eq_nil_iff] at h
    rw [h]
    rfl
  | cons cs rest ih =>
    cases ls with
    | nil => cases h
    | cons l more =>
      obtain ⟨hline, hrest⟩ := List.cons.inj h
      have hstart : l.start = s := congrArg Line.start hline
      have hnext : l.next = Line.next ⟨s, cs⟩ := by
        rw [← Line.next_flush, hline, Line.next_flush]
      have hl : Line.mk s l.chars = l := by rw [← hstart]
      rw [List.map_cons, linesFrom, hl, hnext, ih hrest]

/-- The kinds of the characters of a line from the first one on that is not white. -/
def contentKinds? (b : Buffer) (index : Nat) : Option (List Kind) :=
  b.lines[index]?.map fun l => (l.cells.drop l.margin).map Cell.kind

theorem contentKinds?_eq (b : Buffer) (index : Nat) :
    b.contentKinds? index =
      (b.lines.map Line.flush)[index]?.map fun l => l.cells.map Cell.kind := by
  rw [contentKinds?, List.getElem?_map, Option.map_map]
  congr 1
  funext l
  exact congrArg _ l.drop_margin_cells

/-- After any edits the states are those of the text as it is then: a buffer made of it is the same.
And on every line the characters behind the margin have kept their kinds. -/
theorem edits_keep_states (lines : List (List Char)) (es : List Edit) :
    ofLines (((ofLines lines).edits es).lines.map Line.chars) = (ofLines lines).edits es ∧
    ∀ i, ((ofLines lines).edits es).contentKinds? i = (ofLines lines).contentKinds? i := by
  have hflush := map_flush_edits (ofLines lines) es
  constructor
  · exact congrArg Buffer.mk (linesFrom_of_flush hflush)
  · intro i
    rw [contentKinds?_eq, contentKinds?_eq, hflush]

end Buffer

end BffLayout
