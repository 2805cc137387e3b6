import BffLayout.Proofs.Editing
import BffLayout.Proofs.Layout

/-!
Line ends. A text that is written and read again comes back line by line, except that every line
loses one carriage return from its end, and may lose another one each time. White characters at the
end of a line have no influence on any indent, so a text that has been placed is still placed when
it is read again.
-/
namespace BffLayout

theorem splitLines_eq (cs : List Char) : splitLines cs = cs.splitOn '\n' := by
  induction cs with
  | nil => rfl
  | cons c rest ih =>
    rw [splitLines, List.splitOn_cons_eq_if_modifyHead, ih]
    by_cases hc : c = '\n'
    · simp [hc]
    · cases hsplit : rest.splitOn '\n' with
      | nil => exact absurd hsplit (List.splitOn_ne_nil _ _)
      | cons line more => simp [hc]

theorem splitLines_ne_nil (cs : List Char) : splitLines cs ≠ [] := by
  rw [splitLines_eq]
  exact List.splitOn_ne_nil _ _

theorem splitLines_cons_feed (rest : List Char) : splitLines ('\n' :: rest) = [] :: splitLines rest := rfl

/-- Any other character stands at the front of the first line. -/
theorem splitLines_cons {c : Char} (hc : c ≠ '\n') (rest : List Char) :
    ∃ line more, splitLines rest = line :: more ∧ splitLines (c :: rest) = (c :: line) :: more := by
  cases hsplit : splitLines rest with
  | nil => exact absurd hsplit (splitLines_ne_nil rest)
  | cons line more => exact ⟨line, more, rfl, by simp only [splitLines, if_neg hc, hsplit]⟩

/-- Lines that hold no line feed come back. -/
theorem splitLines_joinLines {lines : List (List Char)} (hne : lines ≠ [])
    (h : ∀ cs ∈ lines, '\n' ∉ cs) : splitLines (joinLines lines) = lines := by
  rw [splitLines_eq, joinLines, List.splitOn_intercalate '\n' h hne]

theorem not_mem_of_mem_splitLines {cs line : List Char} (h : line ∈ splitLines cs) : '\n' ∉ line := by
  induction cs generalizing line with
  | nil =>
    rw [splitLines, List.mem_singleton] at h
    rw [h]
    exact List.not_mem_nil
  | cons c rest ih =>
    by_cases hc : c = '\n'
    · subst hc
      rcases List.mem_cons.mp h with rfl | h
      · exact List.not_mem_nil
      · exact ih h
    · obtain ⟨first, more, hrest, hfirst⟩ := splitLines_cons hc rest
      rw [hrest] at ih
      rw [hfirst] at h
      rcases List.mem_cons.mp h with rfl | h
      · rw [List.mem_cons, not_or]
        exact ⟨Ne.symm hc, ih List.mem_cons_self⟩
      · exact ih (List.mem_cons_of_mem _ h)

/-- What is dropped is white. -/
theorem exists_dropReturn (cs : List Char) : ∃ t, allWhite t = true ∧ cs = dropReturn cs ++ t := by
  unfold dropReturn
  split
  · next h => exact ⟨['\r'], by decide, (List.dropLast_append_getLast? _ h).symm⟩
  · exact ⟨[], rfl, (List.append_nil cs).symm⟩

theorem mem_withIndent {n : Nat} {cs : List Char} {c : Char} (h : c ∈ withIndent n cs) :
    c = ' ' ∨ c ∈ cs := by
  rw [withIndent_eq] at h
  split at h
  · cases h
  · rcases List.mem_append.mp h with h | h
    · exact .inl (List.eq_of_mem_replicate h)
    · exact .inr ((List.dropWhile_sublist _).subset h)

/-- Indentation that fits a text fits it also without white characters at its end. -/
theorem withIndent_of_append {n : Nat} {cs t : List Char} (ht : allWhite t = true)
    (h : withIndent n (cs ++ t) = cs ++ t) : withIndent n cs = cs := by
  have hall : allWhite (cs ++ t) = allWhite cs := by
    rw [allWhite, List.all_append, ← allWhite, ← allWhite, ht, Bool.and_true]
  cases hcs : allWhite cs with
  | true =>
    rw [withIndent_of_blank (hall.trans hcs)] at h
    rw [withIndent_of_blank hcs]
    exact (List.append_eq_nil_iff.mp h.symm).1.symm
  | false =>
    rw [withIndent_of_content (hall.trans hcs), dropWhite_append hcs, ← List.append_assoc] at h
    rw [withIndent_of_content hcs]
    exact List.append_cancel_right h

/-- The line `m` is what is left of `l` when some white characters are cut from its end. -/
structure Line.Cut (l m : Line) : Prop where
  start : m.start = l.start
  chars : ∃ t, allWhite t = true ∧ l.chars = m.chars ++ t

namespace Line.Cut

variable {l m : Line} (h : l.Cut m)

include h

theorem core : m.core = l.core := by
  obtain ⟨t, ht, he⟩ := h.chars
  rw [Line.core, Line.core, h.start, he, trim_append_white ht]

theorem isBlank : m.isBlank = l.isBlank := Line.eq_of_core Line.isBlank_core h.core

theorem next : m.next = l.next := Line.eq_of_core Line.next_core h.core

theorem indentation (hblank : m.isBlank = false) (tab : Nat) : m.indentation tab = l.indentation tab := by
  obtain ⟨t, -, he⟩ := h.chars
  rw [Line.indentation, Line.indentation, indentWidth, indentWidth, he, takeWhite_append hblank]

end Line.Cut

/-- The same of rows. -/
abbrev Row.Cut : Row → Row → Prop := Row.Lift Line.Cut

theorem sights_cut {tab : Nat} {r s : Row} (h : r.Cut s) {above above' : List Row}
    (habove : sights tab above' = sights tab above) :
    sights tab (s :: above') = sights tab (r :: above) := by
  have hblank := h.line.isBlank
  cases hs : s.isBlank with
  | true => rw [sights_cons_blank tab hs, sights_cons_blank tab (hblank.symm.trans hs), habove]
  | false =>
    rw [sights_cons tab hs, sights_cons tab (hblank.symm.trans hs), habove, Line.sight, Line.sight,
      h.line.core, h.line.indentation hs]

/-- A row that stands where it belongs still does when its end is cut. -/
theorem reindented_cut {cfg : Config} {r s : Row} (h : r.Cut s) {above above' : List Row}
    (hd : Descending above) (hd' : Descending above')
    (habove : sights cfg.tab above' = sights cfg.tab above)
    (hr : Focus.reindented cfg ⟨above, r⟩ = r) : Focus.reindented cfg ⟨above', s⟩ = s := by
  cases hstart : r.start with
  | block => exact Focus.reindented_block cfg (h.line.start.trans hstart)
  | code =>
    have hindent : Focus.indent cfg ⟨above', s⟩ = Focus.indent cfg ⟨above, r⟩ :=
      Focus.indent_congr_sights hd' hd h.line.core habove
    rw [Focus.reindented_code cfg hstart] at hr
    rw [Focus.reindented_code cfg (h.line.start.trans hstart), hindent]
    simp only [h.line.isBlank]
    generalize (if r.isBlank then 0 else Focus.indent cfg ⟨above, r⟩) = n at hr ⊢
    obtain ⟨t, ht, he⟩ := h.line.chars
    have hchars : withIndent n (s.chars ++ t) = s.chars ++ t := by
      rw [← he]
      exact congrArg (fun q : Row => q.chars) hr
    have hline : s.setIndentation n = s.toLine := by
      rw [Line.setIndentation, withIndent_of_append ht hchars]
    exact Row.ext_line hline rfl

/-- The pass over rows that stand where they belong, with their ends cut: the rows above look the
same at every step. -/
theorem reindentBelow_cut {cfg : Config} {rows rows' : List Row} (h : List.Forall₂ Row.Cut rows rows')
    {above above' : List Row} (hd : Descending (rows.reverse ++ above))
    (hd' : Descending (rows'.reverse ++ above'))
    (habove : sights cfg.tab above' = sights cfg.tab above)
    (hrows : reindentBelow cfg above rows = rows) : reindentBelow cfg above' rows' = rows' := by
  induction h generalizing above above' with
  | nil => rfl
  | @cons r s rest rest' hr _ ih =>
    rw [reindentBelow_cons] at hrows
    obtain ⟨hplaced, hrest⟩ := List.cons.inj hrows
    rw [hplaced] at hrest
    have hs : Focus.reindented cfg ⟨above', s⟩ = s :=
      reindented_cut hr (hd.sublist (List.sublist_append_right _ _))
        (hd'.sublist (List.sublist_append_right _ _)) habove hplaced
    rw [List.reverse_cons, List.append_assoc, List.singleton_append] at hd hd'
    rw [reindentBelow_cons, hs, ih hd hd' (sights_cut hr habove) hrest]

namespace Buffer

/-- A placed buffer is still placed when the ends of its lines are cut. -/
theorem reindent_cut {cfg : Config} {b c : Buffer} (h : List.Forall₂ Line.Cut b.lines c.lines)
    (hb : b.reindent cfg = b) : c.reindent cfg = c := by
  have hrows : reindentBelow cfg [] b.rows = b.rows := by rw [← rows_reindent, hb]
  have hc : reindentBelow cfg [] c.rows = c.rows := by
    apply reindentBelow_cut (forall₂_rowsFrom h 0) _ _ rfl hrows
    · rw [List.append_nil]
      exact descending_rowsFrom 0 b.lines
    · rw [List.append_nil]
      exact descending_rowsFrom 0 c.lines
  rw [reindent_eq, hc, rows_eq, map_toLine_rowsFrom]

theorem cut_linesFrom (s : ScanState) (lines : List (List Char)) :
    List.Forall₂ Line.Cut (linesFrom s lines) (linesFrom s (lines.map dropReturn)) := by
  induction lines generalizing s with
  | nil => exact .nil
  | cons cs rest ih =>
    have hcut : Line.Cut ⟨s, cs⟩ ⟨s, dropReturn cs⟩ := ⟨rfl, exists_dropReturn cs⟩
    rw [List.map_cons, linesFrom, linesFrom, hcut.next]
    exact .cons hcut (ih _)

/-- A text that was written from lines without line feeds has these lines. -/
theorem splitLines_toText {b : Buffer} (hne : b.lines ≠ []) (h : ∀ l ∈ b.lines, '\n' ∉ l.chars) :
    splitLines b.toText.toList = b.lines.map Line.chars := by
  have hchars : ∀ cs ∈ b.lines.map Line.chars, '\n' ∉ cs := by
    intro cs hcs
    obtain ⟨l, hl, rfl⟩ := List.mem_map.mp hcs
    exact h l hl
  rw [toText, String.toList_ofList, splitLines_joinLines (by simpa using hne) hchars]

theorem ofText_ne_nil (text : String) : (ofText text).lines ≠ [] := by
  have hsplit := splitLines_ne_nil text.toList
  intro h
  have hchars := congrArg (List.map Line.chars) h
  rw [ofText, ofLines, map_chars_linesFrom, List.map_nil, List.map_eq_nil_iff] at hchars
  exact hsplit hchars

theorem not_mem_of_mem_ofText {text : String} {l : Line} (h : l ∈ (ofText text).lines) :
    '\n' ∉ l.chars := by
  have hmem := List.mem_map_of_mem (f := Line.chars) h
  rw [ofText, ofLines, map_chars_linesFrom] at hmem
  obtain ⟨cs, hcs, he⟩ := List.mem_map.mp hmem
  obtain ⟨t, -, hcut⟩ := exists_dropReturn cs
  intro hfeed
  rw [← he] at hfeed
  apply not_mem_of_mem_splitLines hcs
  rw [hcut]
  exact List.mem_append_left t hfeed

theorem not_mem_of_mem_reindent {cfg : Config} {b : Buffer} (h : ∀ l ∈ b.lines, '\n' ∉ l.chars)
    {l : Line} (hl : l ∈ (b.reindent cfg).lines) : '\n' ∉ l.chars := by
  obtain ⟨i, hi⟩ := List.mem_iff_getElem?.mp hl
  rw [getElem?_reindent] at hi
  obtain ⟨m, hm, rfl⟩ := Option.map_eq_some_iff.mp hi
  have hnot := h m (List.mem_of_getElem? hm)
  cases hs : m.start with
  | block =>
    rw [Focus.reindented_block cfg hs]
    exact hnot
  | code =>
    rw [Focus.reindented_code cfg hs]
    intro hfeed
    rcases mem_withIndent hfeed with h | h
    · cases h
    · exact hnot h

/-- The lines of a placed text are the lines as they have been placed. -/
theorem splitLines_reindentText (cfg : Config) (text : String) :
    splitLines (reindentText cfg text).toList = ((ofText text).reindent cfg).lines.map Line.chars := by
  rw [reindentText_eq]
  apply splitLines_toText
  · intro h
    have hcount := congrArg List.length (map_flush_reindent cfg (ofText text))
    rw [h, List.length_map, List.length_map] at hcount
    exact ofText_ne_nil text (List.length_eq_zero_iff.mp hcount.symm)
  · exact fun l hl => not_mem_of_mem_reindent (fun m hm => not_mem_of_mem_ofText hm) hl

/-- A placed text is still placed when it has been written and read again. -/
theorem reindent_reindentText (cfg : Config) (text : String) :
    (ofText (reindentText cfg text)).reindent cfg = ofText (reindentText cfg text) := by
  rw [ofText, splitLines_reindentText]
  generalize hb : (ofText text).reindent cfg = b
  have hplaced : b.reindent cfg = b := by rw [← hb, reindent_idem]
  have hlines : linesFrom .code (b.lines.map Line.chars) = b.lines := by
    apply linesFrom_of_flush
    rw [← hb]
    exact map_flush_reindent cfg (ofText text)
  have hcut := cut_linesFrom .code (b.lines.map Line.chars)
  rw [hlines] at hcut
  exact reindent_cut hcut hplaced

/-- A buffer in which placing changes no line is placed. -/
theorem reindent_of_changes {cfg : Config} {b : Buffer} (h : b.changes (b.reindent cfg) = 0) :
    b.reindent cfg = b := by
  have hlines : (b.reindent cfg).lines = b.lines := by
    apply List.ext_getElem?
    intro i
    have hplaced := getElem?_reindent cfg b i
    cases hl : b.lines[i]? with
    | none => rw [hplaced, hl, Option.map_none]
    | some l =>
      rw [hl, Option.map_some] at hplaced
      generalize hp : (Focus.reindented cfg ⟨(b.reindent cfg).above i, Row.of i l⟩).toLine = p at hplaced
      have hzip : (b.lines.zip (b.reindent cfg).lines)[i]? = some (l, p) :=
        List.getElem?_zip_eq_some.mpr ⟨hl, hplaced⟩
      have hchars : l.chars = p.chars := by
        simpa using List.countP_eq_zero.mp h _ (List.mem_of_getElem? hzip)
      have hstart : p.start = l.start := by
        rw [← hp]
        exact (Focus.reindented_respaced cfg _).start
      have hp' : p = l := by
        calc p = ⟨p.start, p.chars⟩ := rfl
          _ = l := by rw [hstart, ← hchars]
      rw [hplaced, hp']
  exact congrArg Buffer.mk hlines

end Buffer

end BffLayout
