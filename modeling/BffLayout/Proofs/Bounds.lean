import BffLayout.Proofs.Continuation
import BffLayout.Proofs.Limits
import BffLayout.Proofs.Unclosed

/-!
Texts of ordinary size. A line is placed at a column that was read off the lines above it, or at most
one level beside it for each of their characters. So if every character of a text counts for as many
columns as a tab or a level, whichever is wider, no line gets further to the right than all characters
up to its end take it. As long as this many columns are far from the end of a word, no number overflows.
-/
namespace BffLayout

/-- The columns that a character counts for. -/
def Config.step (cfg : Config) : Nat := max cfg.tab cfg.unit

section Columns

variable {tab : Nat}

theorem nextColumn_le (tab w : Nat) (c : Char) (h : 0 < tab) : nextColumn tab w c ≤ w + tab := by
  unfold nextColumn
  split
  · rw [Nat.add_mul, Nat.one_mul]
    exact Nat.add_le_add_right (Nat.div_mul_le_self w tab) tab
  · omega

theorem Config.foldl_nextColumn_le (cfg : Config) (cs : List Char) (w : Nat) :
    cs.foldl (nextColumn (max cfg.tab 1)) w ≤ w + cfg.step * cs.length := by
  have htab := cfg.tab_pos
  have hstep : max cfg.tab 1 ≤ cfg.step := by
    unfold step
    omega
  induction cs generalizing w with
  | nil => exact Nat.le_add_right w _
  | cons c rest ih =>
    have hfirst := nextColumn_le (max cfg.tab 1) w c (by omega)
    have hrest := ih (nextColumn (max cfg.tab 1) w c)
    rw [List.foldl_cons, List.length_cons, Nat.mul_succ]
    omega

theorem foldl_advance_of_lt (htab : 0 < tab) {cs : List Char} {w : Nat}
    (h : cs.foldl (nextColumn tab) w < UInt64.size) :
    cs.foldl (advance tab) w = cs.foldl (nextColumn tab) w := by
  induction cs generalizing w with
  | nil => rfl
  | cons c rest ih =>
    have hle := le_foldl_nextColumn htab rest (nextColumn tab w c)
    rw [List.foldl_cons] at h
    rw [List.foldl_cons, List.foldl_cons, advance_eq, Nat.mod_eq_of_lt (Nat.lt_of_le_of_lt hle h), ih h]

theorem width_eq_exactWidth {cs : List Char} (h : exactWidth tab cs < UInt64.size) :
    width tab cs = exactWidth tab cs := by
  rw [width_eq]
  exact foldl_advance_of_lt (by omega) h

theorem exactWidth_append (tab : Nat) (cs ds : List Char) :
    exactWidth tab (cs ++ ds) = ds.foldl (nextColumn (max tab 1)) (exactWidth tab cs) := List.foldl_append

theorem exactWidth_spaces (n : Nat) : exactWidth tab (List.replicate n ' ') = n := by
  induction n with
  | zero => rfl
  | succ n ih => rw [List.replicate_succ', exactWidth_append, ih]; rfl

end Columns

section Depth

theorem depthStep_bounds (c : Char) : -1 ≤ depthStep c ∧ depthStep c ≤ 1 := by
  unfold depthStep
  split
  · omega
  · split <;> omega

/-- A text changes the depth by no more than its characters that are not white. -/
theorem natAbs_depthSum_le (cs : List Char) :
    (depthSum cs).natAbs ≤ cs.countP fun c => !isWhite c := by
  induction cs with
  | nil => exact Nat.le_refl 0
  | cons c rest ih =>
    have hstep := depthStep_bounds c
    rw [depthSum_cons, List.countP_cons]
    cases hw : isWhite c with
    | true => simpa [Line.depthStep_white hw] using ih
    | false =>
      simp only [Bool.not_false, if_true]
      omega

theorem depthsFit_of_lt {cs : List Char} {depth : Int}
    (h : depth.natAbs + cs.countP (fun c => !isWhite c) < Nat.pow 2 31) : depthsFit depth cs = true := by
  induction cs generalizing depth with
  | nil => rfl
  | cons c rest ih =>
    have hstep := depthStep_bounds c
    rw [List.countP_cons] at h
    have hnext : (depth + depthStep c).natAbs + rest.countP (fun c => !isWhite c) < Nat.pow 2 31 := by
      cases hw : isWhite c with
      | true =>
        rw [hw] at h
        rw [Line.depthStep_white hw, Int.add_zero]
        exact h
      | false =>
        simp only [hw, Bool.not_false, if_true] at h
        omega
    have hfits : fitsSigned 32 (depth + depthStep c) = true :=
      fitsSigned_of_natAbs_lt (Nat.lt_of_le_of_lt (Nat.le_add_right _ _) hnext)
    rw [depthsFit, ih hnext, hfits]
    rfl

/-- The code of a line that is not white is part of its content. -/
theorem Line.countP_codeChars_le (l : Line) :
    (l.codeChars.map Prod.snd).countP (fun c => !isWhite c) ≤ (dropWhite l.chars).length := by
  have hink : (l.codeChars.map Prod.snd).countP (fun c => !isWhite c) = l.ink.length := by
    rw [List.countP_map, List.countP_eq_length_filter]
    rfl
  have hcore : l.core.ink.length ≤ l.core.length := by
    have hcode : l.core.codeChars.length ≤ l.core.cells.zipIdx.length := List.length_filterMap_le ..
    rw [List.length_zipIdx, length_cells] at hcode
    exact Nat.le_trans (List.length_filter_le ..) hcode
  have htrim : l.core.length ≤ (dropWhite l.chars).length := by
    obtain ⟨t, -, ht⟩ := exists_white_end (dropWhite l.chars)
    have hlength := congrArg List.length ht
    rw [List.length_append] at hlength
    have hdef : l.core.length = (trimEnd (dropWhite l.chars)).length := rfl
    omega
  rw [hink, ink_core, List.length_map]
  exact Nat.le_trans hcore htrim

end Depth

/-- A line that ends before the column `bound`, if each character behind its margin counts for a step,
and with its end for another one. -/
structure Line.Within (cfg : Config) (bound : Nat) (l : Line) : Prop where
  extent : exactWidth cfg.tab (takeWhite l.chars) + cfg.step * ((dropWhite l.chars).length + 1) ≤ bound
  short : (dropWhite l.chars).length + 1 < Nat.pow 2 31

namespace Line.Within

variable {cfg : Config} {bound : Nat} {l : Line}

theorem mono {more : Nat} (h : l.Within cfg bound) (hle : bound ≤ more) : l.Within cfg more :=
  ⟨Nat.le_trans h.extent hle, h.short⟩

/-- A line as it stands. -/
theorem of_length (cfg : Config) {l : Line} (h : l.length + 1 < Nat.pow 2 31) :
    l.Within cfg (cfg.step * (l.length + 1)) := by
  have hlength := congrArg List.length (takeWhite_append_dropWhite l.chars)
  rw [List.length_append] at hlength
  have hmargin := cfg.foldl_nextColumn_le (takeWhite l.chars) 0
  have hdef : l.length = l.chars.length := rfl
  have hsteps : cfg.step * (l.length + 1) = cfg.step * (takeWhite l.chars).length +
      cfg.step * ((dropWhite l.chars).length + 1) := by
    rw [← Nat.mul_add, hdef, ← hlength, Nat.add_assoc]
  refine ⟨?_, by omega⟩
  unfold exactWidth
  omega

variable (h : l.Within cfg bound)

include h

theorem exactWidth_take (column : Nat) : exactWidth cfg.tab (l.chars.take column) ≤ bound := by
  have htab := cfg.tab_pos
  have hwhole : exactWidth cfg.tab (l.chars.take column) ≤ exactWidth cfg.tab l.chars := by
    have happend := exactWidth_append cfg.tab (l.chars.take column) (l.chars.drop column)
    rw [List.take_append_drop] at happend
    rw [happend]
    exact le_foldl_nextColumn (by omega) _ _
  have hcontent := cfg.foldl_nextColumn_le (dropWhite l.chars) (exactWidth cfg.tab (takeWhite l.chars))
  rw [← exactWidth_append, takeWhite_append_dropWhite] at hcontent
  have hextent := h.extent
  rw [Nat.mul_succ] at hextent
  omega

theorem exactWidth_margin : exactWidth cfg.tab (takeWhite l.chars) + cfg.step ≤ bound := by
  have hextent := h.extent
  rw [Nat.mul_succ] at hextent
  omega

variable (hbound : bound < signBound)

include hbound

theorem columnFits_take (column : Nat) : columnFits cfg.tab (l.chars.take column) = true :=
  decide_eq_true (Nat.lt_of_le_of_lt (h.exactWidth_take column) (Nat.lt_trans hbound signBound_lt_size))

theorem visualColumn_le (column : Nat) : visualColumn cfg.tab l.chars column ≤ bound := by
  rw [visualColumn, width_eq_exactWidth (of_decide_eq_true (h.columnFits_take hbound column))]
  exact h.exactWidth_take column

theorem indentationFits : l.indentationFits cfg.tab = true := by
  have hmargin := h.exactWidth_margin
  have hsize := signBound_lt_size
  exact decide_eq_true (by omega)

theorem indentation_eq : l.indentation cfg.tab = exactWidth cfg.tab (takeWhite l.chars) :=
  width_eq_exactWidth (of_decide_eq_true (h.indentationFits hbound))

theorem indentation_le : l.indentation cfg.tab ≤ bound := by
  have hmargin := h.exactWidth_margin
  rw [h.indentation_eq hbound]
  omega

omit hbound in
/-- The depth changes by no more than the content and a branch. -/
theorem depth : l.depthFits = true ∧ l.depthChange.natAbs ≤ (dropWhite l.chars).length + 1 := by
  have hshort := h.short
  have hcode := l.countP_codeChars_le
  have hsum := natAbs_depthSum_le (l.codeChars.map Prod.snd)
  have hbranch : (0 : Int) ≤ (if l.opensBranch then 1 else 0) ∧ (if l.opensBranch then 1 else 0) ≤ (1 : Int) := by
    split <;> omega
  have hfits : fitsSigned 32 (depthSum (l.codeChars.map Prod.snd) + if l.opensBranch then 1 else 0) = true :=
    fitsSigned_of_natAbs_lt (Nat.lt_of_le_of_lt (by omega) hshort)
  constructor
  · rw [depthFits, depthsFit_of_lt (by omega), hfits]
    rfl
  · rw [depthChange_eq, signed_of_fits (by decide) hfits]
    omega

theorem nested : l.nestedFits cfg = true ∧
    shifted (l.indentation cfg.tab) l.depthChange cfg.unit ≤ bound := by
  obtain ⟨hdepth, hlevels⟩ := h.depth
  have hextent := h.extent
  have hbase := h.indentation_eq hbound
  have hunit : cfg.unit ≤ cfg.step := Nat.le_max_right ..
  have hstep : cfg.step ≤ cfg.step * ((dropWhite l.chars).length + 1) := Nat.le_mul_of_pos_right _ (Nat.succ_pos _)
  have hmove : (l.depthChange * cfg.unit).natAbs ≤ cfg.step * ((dropWhite l.chars).length + 1) := by
    rw [Int.natAbs_mul, Int.natAbs_natCast, Nat.mul_comm]
    exact Nat.mul_le_mul hunit hlevels
  have hunitWord : signed 64 cfg.unit = cfg.unit := signed_eq_self_iff.mpr (by omega)
  have hbaseWord : signed 64 (l.indentation cfg.tab) = l.indentation cfg.tab := signed_eq_self_iff.mpr (by omega)
  have hshift : shiftFits (l.indentation cfg.tab) l.depthChange cfg.unit = true := by
    rw [shiftFits, hunitWord, hbaseWord, Bool.and_eq_true]
    exact ⟨fitsSigned_of_natAbs_lt (Nat.lt_of_le_of_lt (by omega) hbound),
      fitsSigned_of_natAbs_lt (Nat.lt_of_le_of_lt (by omega) hbound)⟩
  constructor
  · rw [nestedFits, h.indentationFits hbound, hdepth, hshift]
    rfl
  · rw [shifted_of_fits (by omega) (by omega)]
    omega

end Line.Within

/-- An opener that is found is one of the code it is looked for in. -/
theorem Bracket.exists_of_opener? {k : Bracket} {code : List CodeChar} {s : Spot}
    (h : k.opener? code = some s) : ∃ c ∈ code, c.toSpot = s := by
  obtain ⟨x, hx, rfl⟩ := Option.map_eq_some_iff.mp h
  exact ⟨x.1, (suffix_of_mem_openers (List.mem_of_mem_head? hx)).subset List.mem_cons_self, rfl⟩

theorem row_mem_of_bracketsBack {above : List Row} {c : CodeChar} (h : c ∈ bracketsBack above) :
    c.row ∈ above := by
  obtain ⟨r, hr, hc⟩ := List.mem_flatMap.mp h
  obtain ⟨x, -, rfl⟩ := List.mem_map.mp (List.mem_reverse.mp hc)
  exact hr

namespace Focus

variable {f : Focus} {s : Spot}

theorem row_mem_of_leadingOpener? (h : f.leadingOpener? = some s) : s.row ∈ f.above := by
  rw [leadingOpener?_eq] at h
  obtain ⟨k, -, hopener⟩ := Option.bind_eq_some_iff.mp h
  obtain ⟨c, hc, rfl⟩ := Bracket.exists_of_opener? hopener
  exact row_mem_of_bracketsBack hc

theorem row_mem_of_trailingOpener? (h : f.trailingOpener? = some s) : s.row ∈ f.row :: f.above := by
  rw [trailingOpener?_eq] at h
  obtain ⟨x, -, hx⟩ := Option.bind_eq_some_iff.mp h
  obtain ⟨k, -, hk⟩ := Option.bind_eq_some_iff.mp hx
  obtain ⟨hopener, -⟩ := Option.filter_eq_some_iff.mp hk
  obtain ⟨c, hc, rfl⟩ := Bracket.exists_of_opener? hopener
  obtain hown | habove := List.mem_append.mp hc
  · obtain ⟨y, -, rfl⟩ := List.mem_map.mp (List.mem_of_mem_filter (List.mem_reverse.mp hown))
    exact List.mem_cons_self
  · exact List.mem_cons_of_mem _ (row_mem_of_bracketsBack habove)

variable {cfg : Config} {bound : Nat} (hbound : bound < signBound)

include hbound

/-- The column of an ordinary line below rows that stay within a bound. -/
theorem next_within (h : ∀ r ∈ f.row :: f.above, r.Within cfg bound) :
    f.nextFits cfg = true ∧ (f.follow cfg).column cfg ≤ bound := by
  rw [nextFits, follow_eq]
  split
  · rw [Follow.column_afterChain, chainStart]
    cases hstatement : statement? (f.row :: f.above) with
    | none => exact ⟨rfl, by rw [ChainStart.ofRow?_none, shifted_zero (by decide)]; exact Nat.zero_le _⟩
    | some r => exact (h r (List.mem_of_find?_eq_some hstatement)).nested hbound
  · split
    · rw [Follow.column_afterLeadingCloser]
      cases hopener : f.leadingOpener? with
      | none => exact ⟨rfl, Nat.zero_le _⟩
      | some s =>
        have hs := h s.row (List.mem_cons_of_mem _ (row_mem_of_leadingOpener? hopener))
        exact ⟨hs.indentationFits hbound, hs.indentation_le hbound⟩
    · cases hopener : f.trailingOpener? with
      | some s =>
        have hs := h s.row (row_mem_of_trailingOpener? hopener)
        exact ⟨hs.indentationFits hbound, hs.indentation_le hbound⟩
      | none =>
        have hrow := h f.row List.mem_cons_self
        rw [Line.openColumn?_eq]
        cases f.row.openContent? with
        | none => exact hrow.nested hbound
        | some column => exact ⟨hrow.columnFits_take hbound column, hrow.visualColumn_le hbound column⟩

/-- The indent of a line below rows that stay within a bound. -/
theorem indent_within (h : ∀ r ∈ f.above, r.Within cfg bound) :
    f.indentFits cfg = true ∧ f.indent cfg ≤ bound := by
  rw [indentFits, indent_eq_column, shape_eq]
  cases hprevious : f.previous? with
  | none => exact ⟨rfl, Nat.zero_le _⟩
  | some g =>
    have hrows : ∀ r ∈ g.row :: g.above, r.Within cfg bound :=
      fun r hr => h r ((suffix_of_nearest? hprevious).subset hr)
    have hrow := hrows g.row List.mem_cons_self
    have hnext := next_within hbound hrows
    dsimp only
    split
    · rw [Shape.column_continuation, Line.anchor?_eq]
      cases g.row.anchorColumn? with
      | none => exact ⟨hrow.indentationFits hbound, hrow.indentation_le hbound⟩
      | some column => exact ⟨hrow.columnFits_take hbound column, hrow.visualColumn_le hbound column⟩
    · split
      · rw [Shape.column_closer]
        cases hopener : f.leadingOpener? with
        | none => exact ⟨rfl, Nat.zero_le _⟩
        | some s =>
          have hs := h s.row (row_mem_of_leadingOpener? hopener)
          simp only [Option.all_some, Option.map_some, Option.getD_some, Spot.closerFits, Spot.closerColumn_ite]
          split
          · exact ⟨hs.columnFits_take hbound s.column, hs.visualColumn_le hbound s.column⟩
          · exact ⟨hs.indentationFits hbound, hs.indentation_le hbound⟩
      · refine ⟨hnext.1, ?_⟩
        split
        · exact Nat.le_trans (Nat.sub_le _ _) hnext.2
        · exact hnext.2

end Focus

/-- A row that has been placed below rows within a bound. -/
theorem Focus.within_reindented {cfg : Config} {bound : Nat} (hbound : bound < signBound) {f : Focus}
    (h : ∀ r ∈ f.above, r.Within cfg bound) (hshort : f.row.length + 1 < Nat.pow 2 31) :
    (f.reindented cfg).Within cfg (bound + cfg.step * (f.row.length + 1)) := by
  have hrow := Line.Within.of_length cfg hshort
  cases hs : f.row.start with
  | block =>
    rw [reindented_block cfg hs]
    exact hrow.mono (Nat.le_add_left _ _)
  | code =>
    have hcontent : dropWhite (f.reindented cfg).chars = dropWhite f.row.chars :=
      (f.reindented_respaced cfg).content
    have hextent := hrow.extent
    have hindent := (indent_within hbound h).2
    refine ⟨?_, by rw [hcontent]; exact hrow.short⟩
    have hmargin : exactWidth cfg.tab (takeWhite (f.reindented cfg).chars) ≤ bound := by
      rw [reindented_code cfg hs]
      cases hblank : f.row.isBlank with
      | true =>
        have hchars : (f.row.setIndentation 0).chars = [] := withIndent_of_blank hblank 0
        simp only [if_true, Row.of, hchars]
        exact Nat.zero_le _
      | false =>
        have hchars : (f.row.setIndentation (f.indent cfg)).chars =
          List.replicate (f.indent cfg) ' ' ++ dropWhite f.row.chars := withIndent_of_content hblank _
        simp only [Bool.false_eq_true, if_false, Row.of, hchars]
        rw [takeWhite_append_white (allWhite_spaces _), takeWhite_dropWhite, List.append_nil, exactWidth_spaces]
        exact hindent
    rw [hcontent]
    omega

/-- The characters of the lines, with one for the end of each. -/
def charCount (lines : List Line) : Nat := lines.foldr (fun l n => l.length + 1 + n) 0

theorem charCount_cons (l : Line) (lines : List Line) :
    charCount (l :: lines) = l.length + 1 + charCount lines := rfl

theorem length_lt_charCount {l : Line} {lines : List Line} (h : l ∈ lines) : l.length + 1 ≤ charCount lines := by
  induction lines with
  | nil => cases h
  | cons m rest ih =>
    rw [charCount_cons]
    obtain rfl | h := List.mem_cons.mp h
    · omega
    · have hrest := ih h
      omega

/-- The pass over the rows stays within the columns that all their characters count for. -/
theorem placements_within {cfg : Config} {total : Nat} (htotal : total < signBound) {above rows : List Row}
    {bound : Nat} (h : ∀ r ∈ above, r.Within cfg bound) (hshort : ∀ r ∈ rows, r.length + 1 < Nat.pow 2 31)
    (hrows : bound + cfg.step * charCount (rows.map Row.toLine) ≤ total) :
    ∀ f ∈ placements cfg above rows, (∀ r ∈ f.above, r.Within cfg total) ∧ f.row ∈ rows ∧
      (f.reindented cfg).Within cfg total := by
  induction rows generalizing above bound with
  | nil => exact fun f hf => absurd hf List.not_mem_nil
  | cons r rest ih =>
    rw [List.map_cons, charCount_cons, Nat.mul_add, ← Nat.add_assoc] at hrows
    have hplaced := Focus.within_reindented (f := ⟨above, r⟩) (by omega) h (hshort r List.mem_cons_self)
    rw [placements, List.forall_mem_cons]
    refine ⟨⟨fun s hs => (h s hs).mono (by omega), List.mem_cons_self, hplaced.mono (by dsimp only; omega)⟩, ?_⟩
    intro f hf
    have habove : ∀ s ∈ Focus.reindented cfg ⟨above, r⟩ :: above,
        s.Within cfg (bound + cfg.step * (r.length + 1)) := by
      rw [List.forall_mem_cons]
      exact ⟨hplaced, fun s hs => (h s hs).mono (Nat.le_add_right _ _)⟩
    obtain ⟨hf, hmem, hrow⟩ := ih habove (fun s hs => hshort s (List.mem_cons_of_mem r hs)) hrows f hf
    exact ⟨hf, List.mem_cons_of_mem r hmem, hrow⟩

theorem reindentBelow_eq_map (cfg : Config) (above rows : List Row) :
    reindentBelow cfg above rows = (placements cfg above rows).map (Focus.reindented cfg) := by
  induction rows generalizing above with
  | nil => rfl
  | cons r rest ih => rw [reindentBelow_cons, placements, List.map_cons, ih]

theorem bytes_le (cs : List Char) : bytes cs ≤ 4 * cs.length := by
  induction cs with
  | nil => exact Nat.le_refl 0
  | cons c rest ih =>
    have hc := c.utf8Size_le_four
    have hcons : bytes (c :: rest) = c.utf8Size + bytes rest := rfl
    rw [hcons, List.length_cons]
    omega

namespace Buffer

/-- The columns that all characters and line ends of a buffer count for. -/
def span (cfg : Config) (b : Buffer) : Nat := cfg.step * charCount b.lines

/-- A buffer that is far from the limits: its columns are words that count as positive, the depth of each
line is one of its own kind of words, and there is room for a line of so many columns and characters. -/
structure Ordinary (machine : Machine) (cfg : Config) (b : Buffer) : Prop where
  span_lt : b.span cfg < signBound
  short : ∀ l ∈ b.lines, l.length + 1 < Nat.pow 2 31
  room : 5 * b.span cfg ≤ machine.room

namespace Ordinary

variable {machine : Machine} {cfg : Config} {b : Buffer} (h : b.Ordinary machine cfg)

include h

theorem placements_within : ∀ f ∈ placements cfg [] b.rows,
    (∀ r ∈ f.above, r.Within cfg (b.span cfg)) ∧ f.row ∈ b.rows ∧
      (f.reindented cfg).Within cfg (b.span cfg) := by
  have hnone : ∀ r ∈ ([] : List Row), r.Within cfg 0 := fun r hr => absurd hr List.not_mem_nil
  refine BffLayout.placements_within h.span_lt hnone ?_ ?_
  · exact fun r hr => h.short r.toLine (b.map_toLine_rows ▸ List.mem_map_of_mem hr)
  · rw [Nat.zero_add, b.map_toLine_rows]
    exact Nat.le_refl _

/-- A line of the buffer as it is. -/
theorem within_of_mem_rows {r : Row} (hr : r ∈ b.rows) : r.Within cfg (b.span cfg) := by
  have hl : r.toLine ∈ b.lines := b.map_toLine_rows ▸ List.mem_map_of_mem hr
  exact (Line.Within.of_length cfg (h.short _ hl)).mono (Nat.mul_le_mul_left _ (length_lt_charCount hl))

theorem reindentLimit?_eq_none : b.reindentLimit? machine cfg = none := by
  rw [reindentLimit?, List.findSome?_eq_none_iff]
  intro f hf
  obtain ⟨habove, hmem, -⟩ := h.placements_within f hf
  obtain ⟨hfits, hindent⟩ := Focus.indent_within h.span_lt habove
  have hcontent := (h.within_of_mem_rows hmem).extent
  have hbytes := bytes_le (dropWhite f.row.chars)
  have hstep : (dropWhite f.row.chars).length ≤ cfg.step * ((dropWhite f.row.chars).length + 1) := by
    have hpos : 0 < cfg.step := Nat.lt_of_lt_of_le cfg.unit_pos (Nat.le_max_right ..)
    exact Nat.le_trans (Nat.le_succ _) (Nat.le_mul_of_pos_left _ hpos)
  have hroom := h.room
  have hlong : machine.tooLong? (f.indent cfg + bytes (dropWhite f.row.chars)) = none := by
    rw [Machine.tooLong?, if_neg (by omega)]
  rw [Focus.limit?, hfits, hlong, Machine.overflow?_true]
  cases f.row.start with
  | block => rfl
  | code => cases f.row.isBlank <;> rfl

theorem indentationsFit : b.indentationsFit cfg = true := by
  rw [Buffer.indentationsFit, List.all_eq_true]
  intro x hx
  obtain ⟨hrow, hline⟩ := List.of_mem_zip (List.mem_of_mem_filter hx)
  rw [reindent_eq, reindentBelow_eq_map] at hline
  obtain ⟨r, hr, hline⟩ := List.mem_map.mp hline
  obtain ⟨f, hf, rfl⟩ := List.mem_map.mp hr
  obtain ⟨-, -, hplaced⟩ := h.placements_within f hf
  rw [(h.within_of_mem_rows hrow).indentationFits h.span_lt, ← hline, hplaced.indentationFits h.span_lt]
  rfl

theorem indentFits {i : Nat} {f : Focus} (hf : b.focus? i = some f) : f.indentFits cfg = true := by
  obtain ⟨r, -, rfl⟩ := Option.map_eq_some_iff.mp hf
  refine (Focus.indent_within h.span_lt fun s hs => ?_).1
  exact h.within_of_mem_rows (List.mem_of_mem_take (List.mem_reverse.mp hs))

end Ordinary

end Buffer

end BffLayout
