import Mathlib.Data.List.Forall2
import BffLayout.Proofs.Lookback

/-!
Placing the lines of a buffer. A row is placed by its content and the rows above it alone, so the
left margins that lines in code had before have no influence on the result, and placing lines that
are already placed changes nothing.
-/
namespace BffLayout

/-- Rows that differ at most in their left margin, and not even there inside a block comment. -/
structure Row.Respaced (r s : Row) : Prop where
  index : r.index = s.index
  start : r.start = s.start
  content : dropWhite r.chars = dropWhite s.chars
  comment : r.start = .block → r.chars = s.chars

theorem Row.Respaced.core {r s : Row} (h : r.Respaced s) : r.core = s.core := by
  simp only [Line.core, trim, h.start, h.content]

theorem withIndent_congr {cs ds : List Char} (h : dropWhite cs = dropWhite ds) (n : Nat) :
    withIndent n cs = withIndent n ds := by
  simp only [withIndent_eq, h]

namespace Focus

theorem reindented_block (cfg : Config) {f : Focus} (h : f.row.start = .block) :
    f.reindented cfg = f.row := by
  simp only [reindented_eq, h]

theorem reindented_code (cfg : Config) {f : Focus} (h : f.row.start = .code) :
    f.reindented cfg =
      Row.of f.row.index (f.row.setIndentation (if f.row.isBlank then 0 else f.indent cfg)) := by
  simp only [reindented_eq, h]

/-- One step of placing depends on the row as far as its content goes. -/
theorem reindented_congr (cfg : Config) (above : List Row) {r s : Row} (h : r.Respaced s) :
    reindented cfg ⟨above, r⟩ = reindented cfg ⟨above, s⟩ := by
  have hblank : r.isBlank = s.isBlank :=
    Line.eq_of_core Line.isBlank_core h.core
  have hindent := indent_congr cfg above h.core
  cases hs : r.start with
  | block =>
    have hs' : s.start = .block := h.start ▸ hs
    have hline : r.toLine = s.toLine :=
      calc r.toLine = ⟨r.start, r.chars⟩ := rfl
        _ = ⟨s.start, s.chars⟩ := by rw [h.start, h.comment hs]
    simp only [reindented_eq, hs, hs']
    exact Row.ext_line hline h.index
  | code =>
    have hs' : s.start = .code := h.start ▸ hs
    simp only [reindented_eq, hs, hs', hblank, hindent, h.index]
    congr 1
    simp only [Line.setIndentation, withIndent_congr h.content, h.start]

/-- Placing a row respaces it. -/
theorem reindented_respaced (cfg : Config) (f : Focus) : (f.reindented cfg).Respaced f.row := by
  cases hs : f.row.start with
  | block =>
    simp only [reindented_eq, hs]
    exact ⟨rfl, rfl, rfl, fun _ => rfl⟩
  | code =>
    simp only [reindented_eq, hs]
    refine ⟨rfl, rfl, dropWhite_withIndent .., ?_⟩
    intro hb
    cases hs.symm.trans hb

theorem indentation_reindented (cfg : Config) {f : Focus} (hstart : f.row.start = .code)
    (hblank : f.row.isBlank = false) : (f.reindented cfg).indentation cfg.tab = f.indent cfg := by
  rw [reindented_code cfg hstart, hblank]
  exact Line.indentation_setIndentation hblank (f.indent_lt cfg) _

/-- A row that placing keeps stands at its indent. -/
theorem indentation_of_reindented {cfg : Config} {f : Focus} (h : f.reindented cfg = f.row)
    (hstart : f.row.start = .code) (hblank : f.row.isBlank = false) :
    f.row.indentation cfg.tab = f.indent cfg := by
  rw [← indentation_reindented cfg hstart hblank, h]

end Focus

/-- The whole pass, like each of its steps, depends on the content of the rows only. -/
theorem reindentBelow_congr (cfg : Config) (above : List Row) {rows rows' : List Row}
    (h : List.Forall₂ Row.Respaced rows rows') :
    reindentBelow cfg above rows = reindentBelow cfg above rows' := by
  induction h generalizing above with
  | nil => rfl
  | cons hr _ ih => simp only [reindentBelow_cons, Focus.reindented_congr cfg above hr, ih]

theorem reindentBelow_respaced (cfg : Config) (above rows : List Row) :
    List.Forall₂ Row.Respaced (reindentBelow cfg above rows) rows := by
  induction rows generalizing above with
  | nil => exact .nil
  | cons r rest ih => exact .cons (Focus.reindented_respaced cfg ⟨above, r⟩) (ih _)

theorem reindentBelow_idem (cfg : Config) (above rows : List Row) :
    reindentBelow cfg above (reindentBelow cfg above rows) = reindentBelow cfg above rows :=
  reindentBelow_congr cfg above (reindentBelow_respaced cfg above rows)

/-- Every row is placed against the rows above it as they have been placed. -/
theorem getElem?_reindentBelow (cfg : Config) (above rows : List Row) (i : Nat) :
    (reindentBelow cfg above rows)[i]? = rows[i]?.map fun r =>
      Focus.reindented cfg ⟨((reindentBelow cfg above rows).take i).reverse ++ above, r⟩ := by
  induction rows generalizing above i with
  | nil => rfl
  | cons r rest ih =>
    cases i with
    | zero => rfl
    | succ n =>
      simp only [reindentBelow_cons, List.getElem?_cons_succ, ih, List.take_succ_cons,
        List.reverse_cons, List.append_assoc, List.singleton_append]

namespace Buffer

theorem getElem?_rows (b : Buffer) (i : Nat) : b.rows[i]? = b.lines[i]?.map (Row.of i) := by
  rw [rows_eq, getElem?_rowsFrom, Nat.zero_add]

/-- Rows that are numbered from zero are the rows of a buffer. -/
theorem rows_of_numbered {rows : List Row} (h : ∀ (i : Nat) (r : Row), rows[i]? = some r → r.index = i) :
    (Buffer.mk (rows.map Row.toLine)).rows = rows := by
  apply List.ext_getElem?
  intro i
  rw [getElem?_rows, List.getElem?_map, Option.map_map]
  cases hr : rows[i]? with
  | none => rfl
  | some r => exact congrArg some (Row.ext_line rfl (h i r hr).symm)

theorem index_of_getElem?_rows {b : Buffer} {i : Nat} {r : Row} (h : b.rows[i]? = some r) :
    r.index = i := by
  rw [getElem?_rows] at h
  obtain ⟨l, -, rfl⟩ := Option.map_eq_some_iff.mp h
  rfl

theorem rows_reindent (cfg : Config) (b : Buffer) :
    (b.reindent cfg).rows = reindentBelow cfg [] b.rows := by
  rw [reindent_eq]
  apply rows_of_numbered
  intro i r hr
  rw [getElem?_reindentBelow] at hr
  obtain ⟨s, hs, rfl⟩ := Option.map_eq_some_iff.mp hr
  rw [(Focus.reindented_respaced cfg _).index]
  exact index_of_getElem?_rows hs

/-- Placing a buffer a second time changes nothing. -/
theorem reindent_idem (cfg : Config) (b : Buffer) :
    (b.reindent cfg).reindent cfg = b.reindent cfg :=
  calc (b.reindent cfg).reindent cfg
      = ⟨(reindentBelow cfg [] (b.reindent cfg).rows).map Row.toLine⟩ := rfl
    _ = b.reindent cfg := by
      rw [rows_reindent, reindentBelow_idem]
      rfl

theorem focus?_eq_some {b : Buffer} {i : Nat} {l : Line} (h : b.lines[i]? = some l) :
    b.focus? i = some ⟨b.above i, Row.of i l⟩ := by
  rw [focus?, getElem?_rows, h]
  rfl

theorem focus?_eq_none {b : Buffer} {i : Nat} (h : b.lines[i]? = none) : b.focus? i = none := by
  rw [focus?, getElem?_rows, h]
  rfl

theorem above_succ {b : Buffer} {i : Nat} {l : Line} (h : b.lines[i]? = some l) :
    b.above (i + 1) = Row.of i l :: b.above i := by
  rw [above, List.take_add_one, getElem?_rows, h]
  simp [above]

theorem above_succ_of_none {b : Buffer} {i : Nat} (h : b.lines[i]? = none) :
    b.above (i + 1) = b.above i := by
  rw [above, List.take_add_one, getElem?_rows, h]
  simp [above]

/-- Every line is placed below the lines above it as they have been placed. -/
theorem getElem?_reindent (cfg : Config) (b : Buffer) (i : Nat) :
    (b.reindent cfg).lines[i]? = b.lines[i]?.map fun l =>
      (Focus.reindented cfg ⟨(b.reindent cfg).above i, Row.of i l⟩).toLine := by
  rw [reindent_eq, List.getElem?_map, getElem?_reindentBelow, getElem?_rows, Option.map_map,
    Option.map_map, above, ← reindent_eq, rows_reindent, List.append_nil]
  rfl

/-- In a placed buffer every row stands where the rows above put it. -/
theorem reindented_of_placed {cfg : Config} {b : Buffer} (hb : b.reindent cfg = b) {i : Nat} {f : Focus}
    (hf : b.focus? i = some f) : f.reindented cfg = f.row := by
  obtain ⟨r, hr, rfl⟩ := Option.map_eq_some_iff.mp hf
  have hrows : reindentBelow cfg [] b.rows = b.rows := by rw [← rows_reindent, hb]
  have h := getElem?_reindentBelow cfg [] b.rows i
  rw [hrows, hr, List.append_nil] at h
  exact (Option.some.inj h).symm

theorem indent_of_placed {cfg : Config} {b : Buffer} (hb : b.reindent cfg = b) {i : Nat}
    (hblank : b.isBlank i = false) (hstart : b.startState i = .code) :
    b.indent cfg i = .ok (b.indentation i cfg.tab) := by
  cases hl : b.lines[i]? with
  | none => simp [isBlank, hl] at hblank
  | some l =>
    simp only [isBlank, startState, hl] at hblank hstart
    have hf := focus?_eq_some hl
    have hplaced := Focus.indentation_of_reindented (reindented_of_placed hb hf) hstart hblank
    simp only [indent, focus, hf, indentation, hl, Except.map]
    exact congrArg Except.ok hplaced.symm

theorem changes_self (b : Buffer) : b.changes b = 0 := by
  rw [changes, List.countP_eq_zero]
  rintro ⟨l, m⟩ hmem
  obtain ⟨i, hi⟩ := List.mem_iff_getElem?.mp hmem
  obtain ⟨hl, hm⟩ := List.getElem?_zip_eq_some.mp hi
  have he : l = m := Option.some.inj (hl.symm.trans hm)
  simp [he]

theorem check_of_placed {cfg : Config} {b : Buffer} (hb : b.reindent cfg = b) : b.check cfg = [] := by
  rw [check_eq_filterMap, hb, List.filterMap_eq_nil_iff]
  rintro ⟨r, l⟩ hmem
  obtain ⟨i, hi⟩ := List.mem_iff_getElem?.mp (List.mem_filter.mp hmem).1
  obtain ⟨hr, hl⟩ := List.getElem?_zip_eq_some.mp hi
  rw [getElem?_rows, hl] at hr
  obtain rfl : Row.of i l = r := Option.some.inj hr
  simp [Line.mismatch?_eq, Row.of]

/-- A placed buffer is a fixed point: every line with content that starts in code stands at its
indent, nothing is reported about it, and placing it again changes no line. -/
theorem reindent_fixed_point (cfg : Config) (b : Buffer) :
    (∀ i, (b.reindent cfg).isBlank i = false → (b.reindent cfg).startState i = .code →
      (b.reindent cfg).indent cfg i = .ok ((b.reindent cfg).indentation i cfg.tab)) ∧
    (b.reindent cfg).check cfg = [] ∧
    (b.reindent cfg).changes ((b.reindent cfg).reindent cfg) = 0 ∧
    (b.reindent cfg).reindent cfg = b.reindent cfg := by
  have hb := reindent_idem cfg b
  refine ⟨?_, check_of_placed hb, ?_, hb⟩
  · intro i hblank hstart
    exact indent_of_placed hb hblank hstart
  · rw [hb, changes_self]

/-- A chain inside a block, below a comment over two lines. -/
def chainInBlock : Buffer :=
  ofLines (["Exec('a')", "  \x7b /* of", "   two lines */", ".A = 'x'", "\t\t+ 'y'", " ", "\x7d"].map
    String.toList)

theorem reindent_fixed_point_chainInBlock :
    (chainInBlock.reindent .standard).isBlank 4 = false ∧
    (chainInBlock.reindent .standard).startState 4 = .code ∧
    (chainInBlock.reindent .standard).indent .standard 4 = .ok 6 := by
  have hblank : (chainInBlock.reindent .standard).isBlank 4 = false := by decide
  have hstart : (chainInBlock.reindent .standard).startState 4 = .code := by decide
  have hcolumn : (chainInBlock.reindent .standard).indentation 4 Config.standard.tab = 6 := by decide
  refine ⟨hblank, hstart, ?_⟩
  rw [← hcolumn]
  exact (reindent_fixed_point .standard chainInBlock).1 4 hblank hstart

/-- Lines with the same content leave the line below in the same state. -/
theorem next_congr (s : ScanState) {cs ds : List Char} (h : dropWhite cs = dropWhite ds) :
    Line.next ⟨s, cs⟩ = Line.next ⟨s, ds⟩ := by
  rw [← Line.next_core, ← Line.next_core ⟨s, ds⟩]
  simp only [Line.core, trim, h]

/-- Texts with the same content have the same rows up to respacing, where `first` is the number of
the first row and `s` the state it starts in. -/
theorem respaced_linesFrom (s : ScanState) (first : Nat) {lines lines' : List (List Char)}
    (hcontent : lines.map dropWhite = lines'.map dropWhite)
    (hcomment : ∀ (i : Nat) (l : Line), (linesFrom s lines)[i]? = some l → l.start = .block →
      lines[i]? = lines'[i]?) :
    List.Forall₂ Row.Respaced (rowsFrom first (linesFrom s lines))
      (rowsFrom first (linesFrom s lines')) := by
  induction lines generalizing s first lines' with
  | nil =>
    cases lines' with
    | nil => exact .nil
    | cons ds more => cases hcontent
  | cons cs rest ih =>
    cases lines' with
    | nil => cases hcontent
    | cons ds more =>
      obtain ⟨hhead, htail⟩ := List.cons.inj hcontent
      refine .cons ⟨rfl, rfl, hhead, ?_⟩ ?_
      · intro hb
        exact Option.some.inj (hcomment 0 _ rfl hb)
      · rw [← next_congr s hhead]
        exact ih _ _ htail fun i l hl hb => hcomment (i + 1) l hl hb

/-- Placing is canonical: texts that differ only in the left margins of lines in code become the
same buffer. -/
theorem reindent_canonical (cfg : Config) {lines lines' : List (List Char)}
    (hcontent : lines.map dropWhite = lines'.map dropWhite)
    (hcomment : ∀ i, (Buffer.ofLines lines).startState i = .block → lines[i]? = lines'[i]?) :
    (Buffer.ofLines lines).reindent cfg = (Buffer.ofLines lines').reindent cfg := by
  have hrows : List.Forall₂ Row.Respaced (Buffer.ofLines lines).rows (Buffer.ofLines lines').rows := by
    apply respaced_linesFrom .code 0 hcontent
    intro i l hl hb
    apply hcomment
    simp only [startState, ofLines, hl, hb]
  simp only [reindent_eq, reindentBelow_congr cfg [] hrows]

/-- The lines of a comment keep their margins while those around it move. -/
theorem reindent_canonical_comment :
    (ofLines (["\x7b /*", "  a", " */ .B", "  \x7d"].map String.toList)).startState 2 = .block ∧
    (ofLines (["\x7b /*", "  a", " */ .B", "  \x7d"].map String.toList)).reindent .standard =
      (ofLines (["\t\x7b /*", "  a", " */ .B", "\x7d"].map String.toList)).reindent .standard := by
  refine ⟨by decide, reindent_canonical .standard (by decide) ?_⟩
  intro i hi
  match i with
  | 0 => exact absurd hi (by decide)
  | 1 => rfl
  | 2 => rfl
  | 3 => exact absurd hi (by decide)
  | i + 4 => rfl

end Buffer

end BffLayout
