import BffLayout.Proofs.Checking
import BffLayout.Proofs.Returns
import BffLayout.Report

/-!
Labels of mismatches. Lines are numbered in the buffer, where they have lost their carriage returns, and
offsets are counted in the source as it is. The two agree because both count lines by line feeds alone.
A line that is reported has content, so it is not empty in the source either, and there is a character
for the label to stand on.
-/
namespace BffLayout.Report

/-- The text is cut into what stands before one of its lines, the line, and what stands behind it. -/
structure Around (text before line after : List Char) : Prop where
  text_eq : text = before ++ (line ++ after)
  starts : before = [] ∨ before.getLast? = some '\n'
  inside : '\n' ∉ line
  ends : after = [] ∨ after.head? = some '\n'

theorem Around.cons {text before line after : List Char} (h : Around text before line after)
    (first : List Char) : Around (first ++ '\n' :: text) (first ++ '\n' :: before) line after := by
  refine ⟨?_, .inr ?_, h.inside, h.ends⟩
  · rw [h.text_eq, List.append_assoc, List.cons_append]
  · rw [List.getLast?_append_of_ne_nil _ (List.cons_ne_nil _ _), List.getLast?_cons]
    obtain rfl | hlast := h.starts
    · rfl
    · rw [hlast]
      rfl

/-- Among joined lines, the one with a given number stands at its offset, behind as many line feeds. -/
theorem exists_around {lines : List (List Char)} (h : ∀ cs ∈ lines, '\n' ∉ cs) {i : Nat}
    {line : List Char} (hline : lines[i]? = some line) :
    ∃ before after, Around (joinLines lines) before line after ∧ before.count '\n' = i ∧
      before.length = lineOffset lines i := by
  induction lines generalizing i with
  | nil => cases hline
  | cons first rest ih =>
    have hfirst := h first List.mem_cons_self
    cases i with
    | zero =>
      cases hline
      have hends : afterLine rest = [] ∨ (afterLine rest).head? = some '\n' := by
        cases rest with
        | nil => exact .inl rfl
        | cons second more => exact .inr rfl
      exact ⟨[], afterLine rest, ⟨joinLines_cons line rest, .inl rfl, hfirst, hends⟩, rfl, rfl⟩
    | succ i =>
      obtain ⟨before, after, haround, hcount, hlength⟩ :=
        ih (fun cs hcs => h cs (List.mem_cons_of_mem _ hcs)) hline
      have hrest : rest ≠ [] := by
        rintro rfl
        cases hline
      refine ⟨first ++ '\n' :: before, after, ?_, ?_, ?_⟩
      · rw [joinLines_cons, afterLine_of_ne_nil hrest]
        exact haround.cons first
      · rw [List.count_append, List.count_eq_zero_of_not_mem hfirst, List.count_cons_self, hcount,
          Nat.zero_add]
      · rw [lineOffset_succ, List.length_append, List.length_cons, hlength]
        omega

theorem labelWidth_le {line : List Char} (h : line ≠ []) : labelWidth line ≤ line.length := by
  have hpos := List.length_pos_iff.mpr h
  have hwhite := (List.takeWhile_sublist (l := line) fun c => c == ' ' || c == '\t').length_le
  rw [labelWidth]
  omega

/-- A label that is wider than one character covers spaces and tabs. -/
theorem getElem?_of_lt_labelWidth {cs : List Char} (h : labelWidth cs ≠ 1) {i : Nat}
    (hi : i < labelWidth cs) : cs[i]? = some ' ' ∨ cs[i]? = some '\t' := by
  have hwhite : ∀ c ∈ cs.takeWhile (fun c => c == ' ' || c == '\t'), c = ' ' ∨ c = '\t' := by
    intro c hc
    simpa using List.all_eq_true.mp List.all_takeWhile c hc
  have hfront := List.prefix_iff_getElem?.mp (List.takeWhile_prefix (l := cs) fun c => c == ' ' || c == '\t')
  rw [labelWidth] at h hi
  generalize (cs.takeWhile fun c => c == ' ' || c == '\t') = white at h hi hwhite hfront
  have hlt : i < white.length := by omega
  rw [hfront i hlt, Option.some.injEq, Option.some.injEq]
  exact hwhite _ (List.getElem_mem hlt)

/-- A line that is reported has a character in the source. -/
theorem exists_line_of_mem_check {cfg : Config} {source : String} {m : Mismatch}
    (h : m ∈ (Buffer.ofText source).check cfg) :
    ∃ line, (splitLines source.toList)[m.line]? = some line ∧ line ≠ [] := by
  have hblank := (Buffer.mem_check_iff.mp h).1
  have hchars : (Buffer.ofText source).lines[m.line]?.map Line.chars =
      (splitLines source.toList)[m.line]?.map dropReturn := by
    rw [← List.getElem?_map, ← List.getElem?_map, Buffer.ofText, Buffer.ofLines, map_chars_linesFrom]
  cases hl : (Buffer.ofText source).lines[m.line]? with
  | none => simp [Buffer.isBlank, hl] at hblank
  | some l =>
    rw [hl, Option.map_some, eq_comm, Option.map_eq_some_iff] at hchars
    obtain ⟨line, hline, hl'⟩ := hchars
    refine ⟨line, hline, ?_⟩
    rintro rfl
    have hempty : l.chars = [] := hl'.symm
    simp [Buffer.isBlank, hl, Line.isBlank, hempty, allWhite] at hblank

theorem mem_notices_iff {source : String} {mismatches : List Mismatch} {n : Notice} :
    n ∈ notices source mismatches ↔
      n.mismatch ∈ mismatches ∧ label? (splitLines source.toList) n.mismatch.line = some n.label := by
  obtain ⟨m, label⟩ := n
  simp only [notices, List.mem_filterMap, Option.map_eq_some_iff, Notice.mk.injEq]
  constructor
  · rintro ⟨m', hm, label', hlabel, rfl, rfl⟩
    exact ⟨hm, hlabel⟩
  · rintro ⟨hm, hlabel⟩
    exact ⟨m, hm, label, hlabel, rfl, rfl⟩

/-- If all lines exist, there is one notice for each mismatch, in the same order. -/
theorem map_mismatch_notices {source : String} {mismatches : List Mismatch}
    (h : ∀ m ∈ mismatches, ∃ line, (splitLines source.toList)[m.line]? = some line) :
    (notices source mismatches).map Notice.mismatch = mismatches := by
  have hlabel : ∀ m ∈ mismatches,
      ((label? (splitLines source.toList) m.line).map fun label => Notice.mk m label).map Notice.mismatch =
        some m := by
    intro m hm
    obtain ⟨line, hline⟩ := h m hm
    rw [label?, hline]
    rfl
  simp only [notices]
  rw [List.map_filterMap, List.filterMap_congr hlabel, List.filterMap_some]

theorem around_label {source : String} {n : Notice} {line : List Char}
    (hline : (splitLines source.toList)[n.mismatch.line]? = some line)
    (hlabel : label? (splitLines source.toList) n.mismatch.line = some n.label) :
    ∃ before after, Around source.toList before line after ∧ before.count '\n' = n.mismatch.line ∧
      n.label.start = before.length ∧ n.label.stop = before.length + labelWidth line := by
  obtain ⟨before, after, haround, hcount, hlength⟩ :=
    exists_around (fun cs hcs => not_mem_of_mem_splitLines hcs) hline
  rw [joinLines_splitLines] at haround
  rw [label?, hline, Option.map_some, Option.some.injEq] at hlabel
  refine ⟨before, after, haround, hcount, ?_, ?_⟩
  · rw [← hlabel, hlength]
  · rw [← hlabel, hlength]

/-- Every mismatch that a check of the source finds is reported once, in order. Its label begins with the
first character of its line, counted in the source by line feeds, and ends on that line. It covers one
character, or spaces and tabs alone. -/
theorem labels_in_lines (cfg : Config) (printer : Printer) (file source : String) :
    (notices source ((Buffer.ofText source).check cfg)).map Notice.mismatch =
      (Buffer.ofText source).check cfg ∧
    render printer file source ((Buffer.ofText source).check cfg) =
      String.join ((notices source ((Buffer.ofText source).check cfg)).map
        (printer.print (printer.page file source))) ∧
    ∀ n ∈ notices source ((Buffer.ofText source).check cfg), ∃ before line after,
      Around source.toList before line after ∧ before.count '\n' = n.mismatch.line ∧
      n.label.start = before.length ∧ n.label.start < n.label.stop ∧
      n.label.stop ≤ before.length + line.length ∧
      (n.label.stop ≠ n.label.start + 1 → ∀ i, n.label.start ≤ i → i < n.label.stop →
        source.toList[i]? = some ' ' ∨ source.toList[i]? = some '\t') := by
  refine ⟨?_, rfl, ?_⟩
  · apply map_mismatch_notices
    intro m hm
    obtain ⟨line, hline, -⟩ := exists_line_of_mem_check hm
    exact ⟨line, hline⟩
  · intro n hn
    obtain ⟨hm, hlabel⟩ := mem_notices_iff.mp hn
    obtain ⟨line, hline, hne⟩ := exists_line_of_mem_check hm
    obtain ⟨before, after, haround, hcount, hstart, hstop⟩ := around_label hline hlabel
    have hpos : 1 ≤ labelWidth line := Nat.le_max_left ..
    have hwidth := labelWidth_le hne
    refine ⟨before, line, after, haround, hcount, hstart, by omega, by omega, ?_⟩
    intro hwide i hi hlt
    obtain ⟨j, rfl⟩ := Nat.exists_eq_add_of_le (hstart ▸ hi)
    have hj : j < labelWidth line := by omega
    rw [haround.text_eq, List.getElem?_append_right (Nat.le_add_right _ _), Nat.add_sub_cancel_left,
      List.getElem?_append_left (Nat.lt_of_lt_of_le hj hwidth)]
    exact getElem?_of_lt_labelWidth (by omega) hj

/-- A text with carriage returns and a letter of more than one byte, and no line feed at its end. -/
def looseBody : String := "\x7b\r\n.Ä = 1\r\n \t\x7d"

theorem labels_in_lines_looseBody :
    notices looseBody ((Buffer.ofText looseBody).check .standard) =
      [⟨⟨1, 4, 0⟩, ⟨3, 4⟩⟩, ⟨⟨2, 0, 4⟩, ⟨11, 13⟩⟩] ∧
    ∀ i, 11 ≤ i → i < 13 → looseBody.toList[i]? = some ' ' ∨ looseBody.toList[i]? = some '\t' := by
  have hnotices : notices looseBody ((Buffer.ofText looseBody).check .standard) =
      [⟨⟨1, 4, 0⟩, ⟨3, 4⟩⟩, ⟨⟨2, 0, 4⟩, ⟨11, 13⟩⟩] := by decide
  obtain ⟨-, -, hlabels⟩ := labels_in_lines .standard (drawing false) "a.bff" looseBody
  obtain ⟨-, -, -, -, -, -, -, -, hwhite⟩ := hlabels ⟨⟨2, 0, 4⟩, ⟨11, 13⟩⟩ (by rw [hnotices]; decide)
  exact ⟨hnotices, hwhite (by decide)⟩

end BffLayout.Report
