import BffLayout.Proofs.Remarks

/-!
Lines without a word of code. A comment on a line of its own takes the column that an ordinary line
would have there, opens and closes nothing, and hands the column on. Lines further down look past it
as soon as a statement stands between, so they are placed as if it were not there.
-/
namespace BffLayout

namespace Line

/-- A line that holds something, but nothing that is code. -/
structure IsNote (l : Line) : Prop where
  content : l.isBlank = false
  leading : l.leading? = none
  ink : l.ink = []

namespace IsNote

variable {l : Line}

theorem of_core {m : Line} (h : l.IsNote) (hcore : m.core = l.core) : m.IsNote := by
  have hleading := h.leading
  have hink := h.ink
  rw [leading?_core, Option.map_eq_none_iff] at hleading
  rw [ink_core, List.map_eq_nil_iff] at hink
  refine ⟨(eq_of_core isBlank_core hcore).trans h.content, ?_, ?_⟩
  · rw [leading?_core, hcore, hleading, Option.map_none]
  · rw [ink_core, hcore, hink, List.map_nil]

/-- A line of remarks is a note. -/
theorem of_remarks (hblank : l.isBlank = false) (h : ∀ x ∈ l.cells, x.isRemark = true) :
    l.IsNote := by
  have hcode : ∀ c, (⟨c, .code⟩ : Cell) ∈ l.cells → isWhite c = true := by
    intro c hc
    simpa [Cell.isRemark] using h ⟨c, .code⟩ hc
  refine ⟨hblank, ?_, ?_⟩
  · unfold leading?
    split
    · next column c hfirst =>
      obtain ⟨⟨cell, j⟩, hx, he⟩ := Option.map_eq_some_iff.mp hfirst
      cases he
      have hwhite := List.find?_some hx
      have hmem := List.fst_mem_of_mem_zipIdx (List.mem_of_find?_eq_some hx)
      simp [hcode c hmem] at hwhite
    · rfl
  · rw [Line.ink, List.filter_eq_nil_iff]
    rintro ⟨column, c⟩ hmem
    have hwhite := hcode c (List.mem_of_getElem? (getElem?_of_mem_codeChars hmem))
    simp [hwhite]

variable (h : l.IsNote)

include h

theorem no_continuation : l.isContinuation = false := by
  simp only [isContinuation, leadsWith, h.leading]

theorem leadingCloser? : l.leadingCloser? = none := by
  simp only [Line.leadingCloser?, h.leading, Option.bind_none]

theorem directive? : l.directive? = none := by
  simp only [Line.directive?, h.leading]

theorem closesBranch : l.closesBranch = false := by
  simp only [Line.closesBranch, h.directive?, Option.any_none]

theorem depthChange : l.depthChange = 0 := by
  rw [Line.depthChange_eq, depthSum_codeChars, h.ink, opensBranch, h.directive?]
  rfl

theorem trailing? : l.trailing? = none := by
  rw [trailing?_eq, h.ink]
  rfl

theorem openColumn? (tab : Nat) : l.openColumn? tab = none := by
  rw [Line.openColumn?_eq, openContent?, openBrackets_eq, h.ink]
  rfl

end IsNote

section Comment

variable {l : Line} (hstart : l.start = .code) (h : isComment (dropWhite l.chars) = true)

include hstart h

/-- A comment on a line of its own is a note. -/
theorem isNote_of_comment : l.IsNote := by
  have hcells : l.cells =
      Mode.code.tag (takeWhite l.chars) ++ (dropWhite l.chars).map (⟨·, .lineComment⟩) := by
    rw [← Mode.tag_comment h]
    calc l.cells = ScanState.code.mode.tag (takeWhite l.chars ++ dropWhite l.chars) := by
          rw [takeWhite_append_dropWhite, cells, hstart]
      _ = _ := Mode.tag_white_append .code (allWhite_takeWhite _) _
  apply IsNote.of_remarks
  · rw [Bool.eq_false_iff]
    intro hblank
    rw [(dropWhite_eq_nil_iff l.chars).mpr hblank] at h
    cases h
  · intro x hx
    rw [hcells] at hx
    rcases List.mem_append.mp hx with hx | hx
    · have hmem := List.mem_map_of_mem (f := Cell.char) hx
      rw [Mode.map_char_tag] at hmem
      simp [Cell.isRemark, allWhite_iff.mp (allWhite_takeWhite _) _ hmem]
    · obtain ⟨c, -, rfl⟩ := List.mem_map.mp hx
      simp [Cell.isRemark]

theorem next_of_comment : l.next = .code := by
  have hfinish : l.finish = .lineComment := by
    rw [← Mode.run_comment h]
    calc l.finish = ScanState.code.mode.run (takeWhite l.chars ++ dropWhite l.chars) := by
          rw [takeWhite_append_dropWhite, finish, hstart]
      _ = _ := Mode.run_white_append .code (allWhite_takeWhite _) _
  rw [next, hfinish]
  rfl

end Comment

end Line

namespace Row

variable {r : Row} (h : r.IsNote)

include h

theorem brackets_note : r.brackets = [] := by
  rw [brackets, r.marks_eq, Line.brackets_eq_ink, h.ink]
  rfl

theorem bracketsBack_note (xs ys : List Row) : bracketsBack (xs ++ r :: ys) = bracketsBack (xs ++ ys) := by
  simp [bracketsBack, brackets_note h]

/-- The column goes on to the line below, unless it is too large to be counted with. -/
theorem followColumn_note {cfg : Config} (hlt : r.indentation cfg.tab < signBound) (ys : List Row) :
    followColumn cfg (r :: ys) = r.indentation cfg.tab := by
  have hcloser : r.leadsWithCloser = false := by
    rw [Line.leadsWithCloser_eq, h.leadingCloser?]
    rfl
  have hopener : Focus.trailingOpener? ⟨ys, r⟩ = none := by
    rw [Focus.trailingOpener?_eq, h.trailing?]
    rfl
  rw [followColumn_cons cfg h.content, Focus.follow_eq, h.no_continuation, hcloser, hopener, h.openColumn?]
  simp only [Bool.false_eq_true, if_false, Follow.column_nested, h.depthChange]
  exact shifted_zero hlt cfg.unit

end Row

theorem nearest?_append (xs zs : List Row) :
    nearest? (xs ++ zs) = ((nearest? xs).map fun f => ⟨f.above ++ zs, f.row⟩).or (nearest? zs) := by
  induction xs with
  | nil => rfl
  | cons r rest ih => cases hr : r.isBlank <;> simp [nearest?, hr, ih]

theorem nearest?_eq_none_iff {xs : List Row} : nearest? xs = none ↔ ∀ r ∈ xs, r.isBlank = true := by
  induction xs with
  | nil => simp [nearest?]
  | cons r rest ih => cases hr : r.isBlank <;> simp [nearest?, hr, ih]

theorem bracketsBack_of_blank {xs : List Row} (h : ∀ r ∈ xs, r.isBlank = true) : bracketsBack xs = [] := by
  rw [bracketsBack, List.flatMap_eq_nil_iff]
  intro r hr
  rw [Row.brackets_core, Line.core_of_isBlank (h r hr)]
  rfl

namespace Focus

/-- The column of a closer, also at the top of a buffer where there is nothing to answer. -/
theorem indent_leadingCloser (cfg : Config) {f : Focus} (hcont : f.row.isContinuation = false)
    {b : Bracket} (hcloser : f.row.leadingCloser? = some b) :
    f.indent cfg = ((b.opener? (bracketsBack f.above)).map (·.closerColumn cfg.tab)).getD 0 := by
  rw [indent_eq, previous?]
  cases hnearest : nearest? f.above with
  | none =>
    rw [bracketsBack_of_blank (nearest?_eq_none_iff.mp hnearest)]
    rfl
  | some g => simp only [hcont, hcloser, Bool.false_eq_true, if_false]

section Note

variable (cfg : Config) {r : Row} (h : r.IsNote) {xs : List Row} (ys : List Row)

include h

/-- Where a statement is found before the note, nothing is looked for beyond. -/
theorem follow_skip {p : Row} (hs : (statement? (p :: xs)).isSome = true) :
    follow cfg ⟨xs ++ r :: ys, p⟩ = follow cfg ⟨xs ++ ys, p⟩ := by
  have hchain : ∀ zs, chainStart cfg.tab (p :: (xs ++ zs)) = chainStart cfg.tab (p :: xs) := by
    intro zs
    have hfound : statement? (p :: xs ++ zs) = statement? (p :: xs) := by
      rw [statement?, List.find?_append, ← statement?, Option.or_of_isSome hs]
    rw [chainStart, chainStart, ← List.cons_append, hfound]
  have hleading : leadingOpener? ⟨xs ++ r :: ys, p⟩ = leadingOpener? ⟨xs ++ ys, p⟩ := by
    rw [leadingOpener?_eq, leadingOpener?_eq, Row.bracketsBack_note h]
  have hbefore : ∀ column, bracketsBefore ⟨xs ++ r :: ys, p⟩ column = bracketsBefore ⟨xs ++ ys, p⟩ column := by
    intro column
    exact congrArg _ (Row.bracketsBack_note h xs ys)
  have htrailing : trailingOpener? ⟨xs ++ r :: ys, p⟩ = trailingOpener? ⟨xs ++ ys, p⟩ := by
    simp only [trailingOpener?_eq, hbefore]
  simp only [follow_eq, hchain, hleading, htrailing]

theorem indent_skip_of_statement (hs : (statement? xs).isSome = true) (q : Row) :
    indent cfg ⟨xs ++ r :: ys, q⟩ = indent cfg ⟨xs ++ ys, q⟩ := by
  cases hnearest : nearest? xs with
  | none =>
    obtain ⟨s, hmem, hfound⟩ := List.find?_isSome.mp hs
    simp [nearest?_eq_none_iff.mp hnearest s hmem] at hfound
  | some f =>
    rw [statement?_of_nearest? hnearest] at hs
    simp only [indent_eq, previous?, nearest?_append, hnearest, Option.map_some, Option.some_or,
      Row.bracketsBack_note h, follow_skip cfg h ys hs]

/-- With only blank rows between, the note itself is what an ordinary line follows. -/
theorem indent_skip_of_blank (hxs : ∀ x ∈ xs, x.isBlank = true)
    (hcolumn : followColumn cfg (r :: ys) = followColumn cfg ys) {q : Row}
    (hq : q.isContinuation = false) :
    indent cfg ⟨xs ++ r :: ys, q⟩ = indent cfg ⟨xs ++ ys, q⟩ := by
  have hfollow : ∀ zs, followColumn cfg (xs ++ zs) = followColumn cfg zs := by
    intro zs
    rw [followColumn, nearest?_append, nearest?_eq_none_iff.mpr hxs]
    rfl
  cases hcloser : q.leadingCloser? with
  | some b =>
    have hindent : ∀ zs, indent cfg ⟨zs, q⟩ = _ :=
      fun zs => indent_leadingCloser (f := ⟨zs, q⟩) cfg hq hcloser
    rw [hindent, hindent, Row.bracketsBack_note h]
  | none =>
    cases hbranch : q.closesBranch with
    | true =>
      have hindent : ∀ zs, indent cfg ⟨zs, q⟩ = followColumn cfg zs - cfg.unit :=
        fun zs => indent_branchEnd (f := ⟨zs, q⟩) cfg hq hcloser hbranch
      rw [hindent, hindent, hfollow, hfollow, hcolumn]
    | false =>
      have hindent : ∀ zs, indent cfg ⟨zs, q⟩ = followColumn cfg zs :=
        fun zs => indent_ordinary (f := ⟨zs, q⟩) cfg hq hcloser hbranch
      rw [hindent, hindent, hfollow, hfollow, hcolumn]

end Note

end Focus

theorem sights_rowsFrom (tab first : Nat) (ls : List Line) :
    sights tab (rowsFrom first ls) = (ls.filter fun l => !l.isBlank).map (Line.sight tab) := by
  have hlines := map_toLine_rowsFrom first ls
  rw [← hlines, List.filter_map, List.map_map, hlines]
  rfl

namespace Buffer

/-- Whether the lines `below` need not look past the lines `more` above them: there is a statement
among these, or else they are blank and the next line with content is no continuation. -/
def Covered (more below : List Line) : Prop :=
  (∃ l ∈ more, l.isBlank = false ∧ l.isContinuation = false) ∨
    (∀ l ∈ more, l.isBlank = true) ∧
      ∀ l ∈ below.find? fun l => !l.isBlank, l.isContinuation = false

/-- The next line takes its place among those above. -/
theorem Covered.step {more below : List Line} {l placed : Line} (h : Covered more (l :: below))
    (hcore : placed.core = l.core) : Covered (more ++ [placed]) below := by
  have hblank : placed.isBlank = l.isBlank := Line.eq_of_core Line.isBlank_core hcore
  have hcont : placed.isContinuation = l.isContinuation :=
    Line.eq_of_core Line.isContinuation_core hcore
  rcases h with ⟨s, hs, hstatement⟩ | ⟨hmore, hnext⟩
  · exact .inl ⟨s, List.mem_append_left _ hs, hstatement⟩
  · cases hl : l.isBlank with
    | false =>
      have hlcont : l.isContinuation = false := hnext l (by simp [hl])
      exact .inl ⟨placed, by simp, hblank.trans hl, hcont.trans hlcont⟩
    | true =>
      refine .inr ⟨?_, by simpa [hl] using hnext⟩
      intro m hm
      rcases List.mem_append.mp hm with hm | hm
      · exact hmore m hm
      · rw [List.mem_singleton.mp hm, hblank, hl]

theorem reverse_rowsFrom_middle (done : List Line) (l : Line) (more : List Line) :
    (rowsFrom 0 (done ++ l :: more)).reverse =
      (rowsFrom (done.length + 1) more).reverse ++ Row.of done.length l :: (rowsFrom 0 done).reverse := by
  rw [rowsFrom_append, rowsFrom_cons, Nat.zero_add, List.reverse_append, List.reverse_cons,
    List.append_assoc]
  rfl

/-- A line that is left out leaves a gap in the numbers of the rows, and no other trace. -/
theorem indent_renumbered (cfg : Config) (done more : List Line) (l : Line) (n n' : Nat) :
    Focus.indent cfg
        ⟨(rowsFrom (done.length + 1) more).reverse ++ (rowsFrom 0 done).reverse, Row.of n l⟩ =
      Focus.indent cfg ⟨(rowsFrom 0 (done ++ more)).reverse, Row.of n' l⟩ := by
  apply Focus.indent_congr_sights
  · have hd := descending_rowsFrom 0 (done ++ l :: more)
    rw [reverse_rowsFrom_middle] at hd
    exact hd.sublist ((List.sublist_cons_self _ _).append_left _)
  · exact descending_rowsFrom 0 (done ++ more)
  · rfl
  · rw [← List.reverse_append, sights_reverse, sights_reverse, sights_append, sights_rowsFrom,
      sights_rowsFrom, sights_rowsFrom, List.filter_append, List.map_append]

/-- A line is placed by its indent, unless it is blank or stays as it is. -/
theorem reindented_congr (cfg : Config) {above above' : List Row} {l : Line} {n n' : Nat}
    (h : l.start = .code → l.isBlank = false →
      Focus.indent cfg ⟨above, Row.of n l⟩ = Focus.indent cfg ⟨above', Row.of n' l⟩) :
    (Focus.reindented cfg ⟨above, Row.of n l⟩).toLine =
      (Focus.reindented cfg ⟨above', Row.of n' l⟩).toLine := by
  cases hs : l.start with
  | block => rw [Focus.reindented_block cfg hs, Focus.reindented_block cfg hs, Row.of, Row.of]
  | code =>
    rw [Focus.reindented_code cfg hs, Focus.reindented_code cfg hs]
    cases hl : l.isBlank with
    | true => simp [Row.of, hl]
    | false =>
      rw [h hs hl]
      rfl

section Note

variable (cfg : Config) {done : List Line} {note : Line} (hnote : note.IsNote)

include hnote

/-- One line below the note. -/
theorem indent_note {more below : List Line} {l : Line} (h : Covered more (l :: below))
    (hcolumn : (∀ m ∈ more, m.isBlank = true) →
      followColumn cfg (Row.of done.length note :: (rowsFrom 0 done).reverse) =
        followColumn cfg (rowsFrom 0 done).reverse)
    (hl : l.isBlank = false) (n n' : Nat) :
    Focus.indent cfg ⟨(rowsFrom 0 (done ++ note :: more)).reverse, Row.of n l⟩ =
      Focus.indent cfg ⟨(rowsFrom 0 (done ++ more)).reverse, Row.of n' l⟩ := by
  rw [reverse_rowsFrom_middle, ← indent_renumbered cfg done more l n n']
  rcases h with ⟨s, hs, hblank, hcont⟩ | ⟨hmore, hnext⟩
  · apply Focus.indent_skip_of_statement cfg hnote
    rw [← map_toLine_rowsFrom (done.length + 1) more] at hs
    obtain ⟨r, hr, rfl⟩ := List.mem_map.mp hs
    exact List.find?_isSome.mpr ⟨r, List.mem_reverse.mpr hr, by simp [hblank, hcont]⟩
  · apply Focus.indent_skip_of_blank cfg hnote _ _ (hcolumn hmore)
    · exact hnext l (by simp [hl])
    · intro r hr
      have hmem := List.mem_map_of_mem (f := Row.toLine) (List.mem_reverse.mp hr)
      rw [map_toLine_rowsFrom] at hmem
      exact hmore r.toLine hmem

/-- The lines below the note are placed as if it were not there. -/
theorem placedBelow_note {more below : List Line} (h : Covered more below)
    (hcolumn : (∀ m ∈ more, m.isBlank = true) →
      followColumn cfg (Row.of done.length note :: (rowsFrom 0 done).reverse) =
        followColumn cfg (rowsFrom 0 done).reverse) :
    placedBelow cfg (done ++ note :: more) below = placedBelow cfg (done ++ more) below := by
  induction below generalizing more with
  | nil => rfl
  | cons l below ih =>
    generalize hplaced : Focus.reindented cfg
      ⟨(rowsFrom 0 (done ++ more)).reverse, Row.of (done ++ more).length l⟩ = placed
    have hline := reindented_congr cfg fun _ hl => indent_note cfg hnote h hcolumn hl
      (done ++ note :: more).length (done ++ more).length
    have hcore : placed.core = l.core := by
      rw [← hplaced]
      exact (Focus.reindented_respaced cfg _).core
    rw [placedBelow_cons cfg _ l below rfl, placedBelow_cons cfg _ l below hplaced, hline, hplaced,
      List.append_assoc, List.append_assoc, List.cons_append, ih (h.step hcore)]
    exact fun hall => hcolumn fun m hm => hall m (List.mem_append_left _ hm)

end Note

theorem placedBelow_append (cfg : Config) (done xs ys : List Line) :
    placedBelow cfg done (xs ++ ys) =
      placedBelow cfg done xs ++ placedBelow cfg (done ++ placedBelow cfg done xs) ys := by
  induction xs generalizing done with
  | nil =>
    rw [List.nil_append]
    exact congrArg (placedBelow cfg · ys) (List.append_nil done).symm
  | cons l rest ih =>
    rw [List.cons_append, placedBelow_cons cfg done l _ rfl, placedBelow_cons cfg done l _ rfl, ih,
      List.append_assoc, List.cons_append]
    rfl

/-- A note on top of some lines is placed, and they are placed as before. -/
theorem placedBelow_insert {cfg : Config} {done below : List Line} {note : Line}
    (hnote : note.IsNote) (hstart : note.start = .code) {placed : Row}
    (hplaced : Focus.reindented cfg ⟨(rowsFrom 0 done).reverse, Row.of done.length note⟩ = placed)
    (hlt : placed.indentation cfg.tab < signBound) (hcovered : Covered [] below) :
    placedBelow cfg done (note :: below) = placed.toLine :: placedBelow cfg done below := by
  have hcore : placed.core = note.core := by
    rw [← hplaced]
    exact (Focus.reindented_respaced cfg _).core
  have hcolumn : placed.indentation cfg.tab = followColumn cfg (rowsFrom 0 done).reverse := by
    rw [← hplaced, Focus.indentation_reindented cfg hstart hnote.content]
    exact Focus.indent_ordinary cfg hnote.no_continuation hnote.leadingCloser? hnote.closesBranch
  have hplacedNote : placed.IsNote := hnote.of_core hcore
  have hfollow := Row.followColumn_note (r := Row.of done.length placed.toLine) hplacedNote hlt
    (rowsFrom 0 done).reverse
  rw [placedBelow_cons cfg done note below hplaced,
    placedBelow_note cfg hplacedNote hcovered fun _ => hfollow.trans hcolumn, List.append_nil]

theorem length_placedBelow (cfg : Config) (done rest : List Line) :
    (placedBelow cfg done rest).length = rest.length := by
  rw [placedBelow, List.length_map, (reindentBelow_respaced cfg _ _).length_eq, length_rowsFrom]

/-- The lines at the top are placed as if nothing came below them. -/
theorem lines_reindent_append (cfg : Config) (top rest : List (List Char)) :
    ((ofLines (top ++ rest)).reindent cfg).lines = ((ofLines top).reindent cfg).lines ++
      placedBelow cfg ((ofLines top).reindent cfg).lines (linesFrom (stateAfter .code top) rest) := by
  have hlines : (ofLines (top ++ rest)).lines =
      (ofLines top).lines ++ linesFrom (stateAfter .code top) rest := linesFrom_append .code top rest
  calc ((ofLines (top ++ rest)).reindent cfg).lines
      = placedBelow cfg [] (ofLines (top ++ rest)).lines := rfl
    _ = _ := by
      rw [hlines, placedBelow_append, List.nil_append]
      rfl

theorem length_reindent_ofLines (cfg : Config) (lines : List (List Char)) :
    ((ofLines lines).reindent cfg).lines.length = lines.length :=
  (length_placedBelow cfg [] (ofLines lines).lines).trans (length_linesFrom .code lines)

theorem eraseIdx_middle (done : List Line) (l : Line) (rest : List Line) :
    (done ++ l :: rest).eraseIdx done.length = done ++ rest := by
  rw [List.eraseIdx_append_of_length_le (Nat.le_refl _), Nat.sub_self]
  rfl

/-- A comment on a line of its own, put in where a line starts in code and no continuation follows,
leaves every other line of the placed buffer as it is. -/
theorem reindent_insert (cfg : Config) {top bottom : List (List Char)} {note : List Char}
    (hcomment : isComment (dropWhite note) = true)
    (hstart : (ofLines (top ++ bottom)).startState top.length = .code)
    (hnext : ∀ l ∈ ((ofLines (top ++ bottom)).lines.drop top.length).find? fun l => !l.isBlank,
      l.isContinuation = false)
    (hlt : ((ofLines (top ++ note :: bottom)).reindent cfg).indentation top.length cfg.tab < signBound) :
    ((ofLines (top ++ note :: bottom)).reindent cfg).lines.eraseIdx top.length =
      ((ofLines (top ++ bottom)).reindent cfg).lines := by
  have hlines : ∀ rest, (ofLines (top ++ rest)).lines =
      linesFrom .code top ++ linesFrom (stateAfter .code top) rest := linesFrom_append .code top
  have hplaced := lines_reindent_append cfg top
  have hlength := length_reindent_ofLines cfg top
  generalize stateAfter .code top = s at hlines hplaced
  generalize ((ofLines top).reindent cfg).lines = done at hplaced hlength
  cases bottom with
  | nil =>
    have hlast : linesFrom s [note] = [⟨s, note⟩] := rfl
    rw [hplaced, hplaced, hlast, placedBelow_cons cfg done _ _ rfl, ← hlength, eraseIdx_middle]
    rfl
  | cons cs rest =>
    have hcode : s = .code := by
      rw [startState, hlines, ← length_linesFrom .code top, linesFrom, getElem?_middle] at hstart
      exact hstart
    subst hcode
    have hnote : (Line.mk .code note).IsNote := Line.isNote_of_comment rfl hcomment
    have hbelow : linesFrom .code (note :: cs :: rest) =
        ⟨.code, note⟩ :: linesFrom .code (cs :: rest) := by
      rw [linesFrom, Line.next_of_comment rfl hcomment]
    have hcovered : Covered [] (linesFrom .code (cs :: rest)) := by
      rw [hlines, ← length_linesFrom .code top, List.drop_left] at hnext
      exact .inr ⟨fun l hl => absurd hl List.not_mem_nil, hnext⟩
    generalize hrow : Focus.reindented cfg
      ⟨(rowsFrom 0 done).reverse, Row.of done.length ⟨.code, note⟩⟩ = placed
    have hcolumn : placed.indentation cfg.tab < signBound := by
      rw [indentation, hplaced, hbelow, placedBelow_cons cfg done _ _ hrow, ← hlength,
        getElem?_middle] at hlt
      exact hlt
    rw [hplaced, hplaced, hbelow, placedBelow_insert hnote rfl hrow hcolumn hcovered, ← hlength,
      eraseIdx_middle]

/-- Comments move no code. Behind lines that end in code they leave the indent of every line as it
is, and a line of their own leaves all other lines of the placed buffer where they are. -/
theorem comments_move_no_code (cfg : Config) :
    (∀ lines lines', List.Forall₂ Line.Remarked (ofLines lines).lines lines' →
      ∀ i, (ofLines lines').indent cfg i = (ofLines lines).indent cfg i) ∧
    ∀ top bottom note, isComment (dropWhite note) = true →
      (ofLines (top ++ bottom)).startState top.length = .code →
      (∀ l ∈ ((ofLines (top ++ bottom)).lines.drop top.length).find? fun l => !l.isBlank,
        l.isContinuation = false) →
      ((ofLines (top ++ note :: bottom)).reindent cfg).indentation top.length cfg.tab < signBound →
      ((ofLines (top ++ note :: bottom)).reindent cfg).lines.eraseIdx top.length =
        ((ofLines (top ++ bottom)).reindent cfg).lines := by
  constructor
  · intro lines lines' h i
    exact indent_readsLike (readsLike_linesFrom h) cfg i
  · intro top bottom note hcomment hstart hnext hlt
    exact reindent_insert cfg hcomment hstart hnext hlt

/-- A body with comments behind its first two lines, and with a comment put in before its end. -/
theorem comments_move_no_code_body :
    (∀ i, (ofLines ["\x7b ; 1".toList, ".A = 1 // \x7b".toList, "\x7d".toList]).indent .standard i =
      (ofLines ["\x7b".toList, ".A = 1".toList, "\x7d".toList]).indent .standard i) ∧
    ((ofLines ["\x7b".toList, ".A = 1".toList, "\t// \x7b".toList, "\x7d".toList]).reindent
        .standard).lines.eraseIdx 2 =
      ((ofLines ["\x7b".toList, ".A = 1".toList, "\x7d".toList]).reindent .standard).lines := by
  obtain ⟨hbehind, hinsert⟩ := comments_move_no_code .standard
  constructor
  · apply hbehind
    have hopen : Line.Remarked ⟨.code, "\x7b".toList⟩ "\x7b ; 1".toList :=
      @Line.Remarked.comment _ "; 1".toList (by decide) (by decide) (by decide)
    have hitem : Line.Remarked ⟨.code, ".A = 1".toList⟩ ".A = 1 // \x7b".toList :=
      @Line.Remarked.comment _ "// \x7b".toList (by decide) (by decide) (by decide)
    exact .cons hopen (.cons hitem (.cons .same .nil))
  · exact hinsert ["\x7b".toList, ".A = 1".toList] ["\x7d".toList] "\t// \x7b".toList (by decide)
      (by decide) (by decide) (by decide +kernel)

end Buffer

end BffLayout
