import BffLayout.Proofs.Margin
import BffLayout.Proofs.Words

/-!
The content of a line. Whatever indentation asks of a line is a question about its content and the
column where that starts: the answer is the same when both margins are cut off, except that every
place moves by the length of the left margin.
-/
namespace BffLayout

namespace Bracket

theorem ofOpener?_eq_some_iff {c : Char} {b : Bracket} : ofOpener? c = some b ↔ c = b.opener := by
  constructor
  · intro h
    have he := List.find?_some h
    exact (beq_iff_eq.mp he).symm
  · rintro rfl
    cases b <;> rfl

theorem ofCloser?_eq_some_iff {c : Char} {b : Bracket} : ofCloser? c = some b ↔ c = b.closer := by
  constructor
  · intro h
    have he := List.find?_some h
    exact (beq_iff_eq.mp he).symm
  · rintro rfl
    cases b <;> rfl

theorem isWhite_opener (b : Bracket) : isWhite b.opener = false := by cases b <;> decide

theorem isWhite_closer (b : Bracket) : isWhite b.closer = false := by cases b <;> decide

end Bracket

theorem ofOpener?_white {c : Char} (hc : isWhite c = true) : Bracket.ofOpener? c = none := by
  rw [Option.eq_none_iff_forall_ne_some]
  intro b h
  exact ne_of_isWhite hc b.isWhite_opener (Bracket.ofOpener?_eq_some_iff.mp h)

theorem ofCloser?_white {c : Char} (hc : isWhite c = true) : Bracket.ofCloser? c = none := by
  rw [Option.eq_none_iff_forall_ne_some]
  intro b h
  exact ne_of_isWhite hc b.isWhite_closer (Bracket.ofCloser?_eq_some_iff.mp h)

/-- Nothing white takes part in a name. -/
theorem isNameChar_white {c : Char} (hc : isWhite c = true) : isNameChar c = false := by
  have hrange : c.toNat ≤ 32 ∨ 133 ≤ c.toNat := by
    simp only [isWhite, whiteRanges, List.any_cons, List.any_nil, Bool.or_eq_true, Bool.and_eq_true,
      decide_eq_true_eq, Bool.false_eq_true, or_false] at hc
    omega
  have hname : isNameChar c = (decide ('A'.val ≤ c.val ∧ c.val ≤ 'Z'.val) ||
      ('a'.val ≤ c.val && c.val ≤ 'z'.val) || ('0'.val ≤ c.val && c.val ≤ '9'.val) || c == '_') := rfl
  rw [hname, Bool.eq_false_iff]
  intro hn
  simp only [Bool.or_eq_true, Bool.and_eq_true, decide_eq_true_eq, beq_iff_eq,
    UInt32.le_iff_toNat_le] at hn
  rcases hn with hn | rfl
  · simp at hn
    omega
  · simp at hrange

theorem takeWhile_name_white {t : List Char} (ht : allWhite t = true) :
    t.takeWhile isNameChar = [] := by
  cases t with
  | nil => rfl
  | cons c rest =>
    have hc := isNameChar_white (allWhite_iff.mp ht c List.mem_cons_self)
    rw [List.takeWhile_cons_of_neg (by simp [hc])]

theorem takeWhile_name_append {t : List Char} (ht : t.takeWhile isNameChar = []) (cs : List Char) :
    (cs ++ t).takeWhile isNameChar = cs.takeWhile isNameChar := by
  induction cs with
  | nil => exact ht
  | cons c rest ih => cases hc : isNameChar c <;> simp [hc, ih]

/-- A name ends before a text that neither goes on with it nor begins another one. -/
theorem name_append {t : List Char} (ht : t.takeWhile isNameChar = [])
    (hdrop : (t.dropWhile fun c => c == ' ' || c == '\t').takeWhile isNameChar = []) (cs : List Char) :
    ((cs ++ t).dropWhile fun c => c == ' ' || c == '\t').takeWhile isNameChar =
      (cs.dropWhile fun c => c == ' ' || c == '\t').takeWhile isNameChar := by
  induction cs with
  | nil => exact hdrop
  | cons c rest ih =>
    rw [List.cons_append, List.dropWhile_cons, List.dropWhile_cons]
    split
    · exact ih
    · rw [← List.cons_append, takeWhile_name_append ht]

/-- A right margin is such a text. -/
theorem name_append_white {t : List Char} (ht : allWhite t = true) (cs : List Char) :
    ((cs ++ t).dropWhile fun c => c == ' ' || c == '\t').takeWhile isNameChar =
      (cs.dropWhile fun c => c == ' ' || c == '\t').takeWhile isNameChar := by
  have hdrop : allWhite (t.dropWhile fun c => c == ' ' || c == '\t') = true := by
    rw [allWhite_iff] at ht ⊢
    exact fun c hc => ht c ((List.dropWhile_sublist _).subset hc)
  exact name_append (takeWhile_name_white ht) (takeWhile_name_white hdrop) cs

namespace Line

/-- The content of a line, with no margin on either side. -/
def core (l : Line) : Line := ⟨l.start, trim l.chars⟩

/-- The number of characters before the content. -/
def margin (l : Line) : Nat := (takeWhite l.chars).length

@[simp] theorem core_start (l : Line) : l.core.start = l.start := rfl

@[simp] theorem core_chars (l : Line) : l.core.chars = trim l.chars := rfl

@[simp] theorem core_setIndentation (l : Line) (n : Nat) : (l.setIndentation n).core = l.core := by
  simp only [core, setIndentation, trim_withIndent]

/-- What the content decides is the same for lines with the same content. -/
theorem eq_of_core {β : Type} {f : Line → β} (hf : ∀ l : Line, f l.core = f l) {l m : Line}
    (h : l.core = m.core) : f l = f m := by
  rw [← hf l, h, hf m]

/-- The margins of a line are white and so are their cells, whatever kind the scanner gives them. -/
theorem exists_cells (l : Line) :
    ∃ a b : List Cell, a.length = l.margin ∧ (∀ x ∈ a ++ b, isWhite x.char = true) ∧
      l.cells = a ++ l.core.cells ++ b := by
  obtain ⟨t, ht, he⟩ := exists_margins l.chars
  refine ⟨l.start.mode.tag (takeWhite l.chars), (l.start.mode.run (trim l.chars)).tag t, ?_, ?_, ?_⟩
  · rw [Mode.length_tag, margin]
  · intro x hx
    have hmem : x.char ∈ takeWhite l.chars ++ t := by
      have h := List.mem_map_of_mem (f := Cell.char) hx
      rwa [List.map_append, Mode.map_char_tag, Mode.map_char_tag] at h
    rcases List.mem_append.mp hmem with h | h
    · exact allWhite_iff.mp (allWhite_takeWhite _) _ h
    · exact allWhite_iff.mp ht _ h
  · have hslash := head?_ne_of_allWhite ht (d := '/') (by decide)
    have hstar := head?_ne_of_allWhite ht (d := '*') (by decide)
    calc l.cells = l.start.mode.tag (takeWhite l.chars ++ (trim l.chars ++ t)) := by
          rw [← List.append_assoc, ← he, cells]
      _ = _ := by
          rw [Mode.tag_white_append l.start (allWhite_takeWhite _), Mode.tag_append hslash hstar,
            List.append_assoc]
          rfl

/-- The same with the columns of the cells. -/
theorem exists_numbered (l : Line) :
    ∃ a b : List (Cell × Nat), a.length = l.margin ∧ (∀ x ∈ a ++ b, isWhite x.1.char = true) ∧
      l.cells.zipIdx = a ++ l.core.cells.zipIdx.map (Prod.map id (l.margin + ·)) ++ b := by
  obtain ⟨a, b, ha, hwhite, he⟩ := l.exists_cells
  refine ⟨a.zipIdx, b.zipIdx (l.margin + l.core.cells.length), ?_, ?_, ?_⟩
  · rw [List.length_zipIdx, ha]
  · intro x hx
    apply hwhite
    rcases List.mem_append.mp hx with h | h
    · exact List.mem_append_left _ (List.fst_mem_of_mem_zipIdx h)
    · exact List.mem_append_right _ (List.fst_mem_of_mem_zipIdx h)
  · rw [he, List.zipIdx_append, List.zipIdx_append, List.length_append, ha, Nat.zero_add,
      Nat.zero_add, List.zipIdx_eq_map_add (l := l.core.cells)]
    rfl

/-- The line below starts in the same state. -/
@[simp] theorem next_core (l : Line) : l.core.next = l.next := by
  obtain ⟨t, ht, he⟩ := exists_margins l.chars
  have hslash := head?_ne_of_allWhite ht (d := '/') (by decide)
  have hstar := head?_ne_of_allWhite ht (d := '*') (by decide)
  have hrun : l.finish = (l.core.finish).run t := by
    rw [finish, he, List.append_assoc, Mode.run_white_append _ (allWhite_takeWhite _),
      Mode.run_append hslash hstar]
    rfl
  have hquoted : l.core.finish.WellQuoted := Mode.wellQuoted_run (Mode.wellQuoted_mode _) _
  have hkind : l.finish.kind = l.core.finish.kind := by rw [hrun, Mode.kind_run_white hquoted ht]
  simp only [next, Mode.atLineEnd, hkind]

theorem next_trim (s : ScanState) (cs : List Char) : next ⟨s, trim cs⟩ = next ⟨s, cs⟩ :=
  next_core ⟨s, cs⟩

/-- A blank line leaves the state as it is. -/
theorem next_of_allWhite (s : ScanState) {cs : List Char} (h : allWhite cs = true) :
    next ⟨s, cs⟩ = s := by
  rw [← next_trim, (trim_eq_nil_iff cs).mpr h]
  cases s <;> rfl

@[simp] theorem isBlank_core (l : Line) : l.core.isBlank = l.isBlank := allWhite_trim l.chars

/-- The first character that is not white belongs to the content. -/
theorem first?_core (l : Line) : l.first? = l.core.first?.map (Prod.map (l.margin + ·) id) := by
  obtain ⟨a, b, -, hwhite, he⟩ := l.exists_numbered
  have ha : a.find? (fun x => !isWhite x.1.char) = none := by
    rw [List.find?_eq_none]
    intro x hx
    simp [hwhite x (List.mem_append_left _ hx)]
  have hb : b.find? (fun x => !isWhite x.1.char) = none := by
    rw [List.find?_eq_none]
    intro x hx
    simp [hwhite x (List.mem_append_right _ hx)]
  simp only [first?, he, List.find?_append, ha, hb, List.find?_map, Option.none_or, Option.or_none,
    Option.map_map]
  rfl

theorem leading?_core (l : Line) : l.leading? = l.core.leading?.map (Prod.map (l.margin + ·) id) := by
  simp only [leading?, first?_core l]
  rcases l.core.first? with _ | ⟨column, c, kind⟩
  · rfl
  · cases kind <;> rfl

/-- The content, if there is any, starts with a character that is not white. -/
theorem isWhite_head_trim {cs : List Char} {c : Char} (h : (trim cs).head? = some c) :
    isWhite c = false := by
  obtain ⟨t, -, he⟩ := exists_white_end (dropWhite cs)
  have hhead : (dropWhite cs).head? = some c := by
    rw [he, List.head?_append, ← trim, h]
    rfl
  have hnot := List.head?_dropWhile_not isWhite cs
  rw [← dropWhite, hhead] at hnot
  simpa using hnot

/-- The first character that is not white stands right after the left margin. -/
theorem first?_eq (l : Line) : l.first? = l.core.cells.head?.map fun cell => (l.margin, cell) := by
  rw [first?_core]
  cases htrim : trim l.chars with
  | nil => simp [first?, cells, core, htrim]
  | cons c rest =>
    have hc : isWhite c = false := isWhite_head_trim (by rw [htrim]; rfl)
    simp [first?, cells, core, htrim, hc]

theorem core_of_isBlank {l : Line} (h : l.isBlank = true) : l.core = ⟨l.start, []⟩ := by
  rw [core, (trim_eq_nil_iff l.chars).mpr h]

theorem isBlank_of_leading? {l : Line} {p : Nat × Char} (h : l.leading? = some p) :
    l.isBlank = false := by
  rw [Bool.eq_false_iff]
  intro hblank
  rw [leading?, first?_eq, core_of_isBlank hblank] at h
  cases h

theorem column_eq_margin {l : Line} {column : Nat} {c : Char} (h : l.leading? = some (column, c)) :
    column = l.margin := by
  rw [leading?, first?_eq] at h
  split at h
  · next k d hfirst =>
    obtain ⟨cell, -, he⟩ := Option.map_eq_some_iff.mp hfirst
    cases h
    exact (congrArg Prod.fst he).symm
  · cases h

@[simp] theorem leadsWith_core (l : Line) (p : Char → Bool) : l.core.leadsWith p = l.leadsWith p := by
  simp only [leadsWith, leading?_core l]
  rcases l.core.leading? with _ | ⟨column, c⟩ <;> rfl

@[simp] theorem isContinuation_core (l : Line) : l.core.isContinuation = l.isContinuation :=
  leadsWith_core l _

/-- The nesting closer that the line leads with. -/
def leadingCloser? (l : Line) : Option Bracket := l.leading?.bind fun p => nestingCloser? p.2

@[simp] theorem leadingCloser?_core (l : Line) : l.core.leadingCloser? = l.leadingCloser? := by
  simp only [leadingCloser?, leading?_core l]
  rcases l.core.leading? with _ | ⟨column, c⟩ <;> rfl

theorem leadsWithCloser_eq (l : Line) : l.leadsWithCloser = l.leadingCloser?.isSome := by
  simp only [leadsWithCloser, leadsWith, leadingCloser?, isNestingCloser]
  rcases l.leading? with _ | ⟨column, c⟩ <;> rfl

@[simp] theorem leadsWithCloser_core (l : Line) : l.core.leadsWithCloser = l.leadsWithCloser :=
  leadsWith_core l _

/-- The code characters that are not white, with their columns. -/
def ink (l : Line) : List (Nat × Char) := l.codeChars.filter fun p => !isWhite p.2

theorem ink_eq_filterMap (l : Line) :
    l.ink = l.cells.zipIdx.filterMap fun x =>
      if x.1.kind = .code ∧ isWhite x.1.char = false then some (x.2, x.1.char) else none := by
  rw [ink, codeChars, List.filter_filterMap]
  congr
  funext x
  by_cases hc : x.1.kind = .code <;> cases hw : isWhite x.1.char <;> simp [hc, hw]

/-- All ink belongs to the content. -/
theorem ink_core (l : Line) : l.ink = l.core.ink.map (Prod.map (l.margin + ·) id) := by
  obtain ⟨a, b, -, hwhite, he⟩ := l.exists_numbered
  have hnone : ∀ x ∈ a ++ b,
      (if x.1.kind = .code ∧ isWhite x.1.char = false then some (x.2, x.1.char) else none) = none := by
    intro x hx
    simp [hwhite x hx]
  have ha := List.filterMap_eq_nil_iff.mpr fun x hx => hnone x (List.mem_append_left b hx)
  have hb := List.filterMap_eq_nil_iff.mpr fun x hx => hnone x (List.mem_append_right a hx)
  rw [ink_eq_filterMap, ink_eq_filterMap, he, List.filterMap_append, List.filterMap_append, ha, hb,
    List.nil_append, List.append_nil, List.filterMap_map, List.map_filterMap]
  congr
  funext x
  simp only [Function.comp, Prod.map, id]
  split <;> rfl

/-- A question about code that no white character answers is a question about the ink. -/
theorem filter_codeChars {p : Nat × Char → Bool} (hp : ∀ x, isWhite x.2 = true → p x = false)
    (l : Line) : l.codeChars.filter p = l.ink.filter p := by
  rw [ink, List.filter_filter]
  congr
  funext x
  cases hw : isWhite x.2 with
  | true => simp [hp x hw]
  | false => simp

theorem find?_codeChars {p : Nat × Char → Bool} (hp : ∀ x, isWhite x.2 = true → p x = false)
    (l : Line) : l.codeChars.find? p = l.ink.find? p := by
  rw [← List.head?_filter, ← List.head?_filter, filter_codeChars hp]

theorem isBracket_white {c : Char} (hc : isWhite c = true) : isBracket c = false := by
  simp [isBracket, ofOpener?_white hc, ofCloser?_white hc]

theorem brackets_eq_ink (l : Line) : l.brackets = l.ink.filter fun p => isBracket p.2 := by
  apply filter_codeChars
  intro x hx
  exact isBracket_white hx

/-- The brackets with their columns, counted from the content. -/
theorem brackets_core (l : Line) : l.brackets = l.core.brackets.map (Prod.map (l.margin + ·) id) := by
  rw [brackets_eq_ink, brackets_eq_ink, ink_core l, List.filter_map]
  rfl

theorem trailing?_eq (l : Line) : l.trailing? = l.ink.getLast? := by
  rw [trailing?, ← List.head?_filter, List.filter_reverse, List.head?_reverse, ink]

theorem trailing?_core (l : Line) : l.trailing? = l.core.trailing?.map (Prod.map (l.margin + ·) id) := by
  rw [trailing?_eq, trailing?_eq, ink_core l, List.getLast?_map]

theorem depthStep_white {c : Char} (hc : isWhite c = true) : depthStep c = 0 := by
  simp [depthStep, nestingOpener?, isNestingCloser, nestingCloser?, ofOpener?_white hc,
    ofCloser?_white hc]

/-- White characters move no line. -/
theorem depthSum_codeChars (l : Line) :
    depthSum (l.codeChars.map Prod.snd) = depthSum (l.ink.map Prod.snd) := by
  rw [ink]
  induction l.codeChars with
  | nil => rfl
  | cons x rest ih =>
    cases hw : isWhite x.2 with
    | true => simp [hw, ih, depthStep_white hw]
    | false => simp [hw, ih]

theorem pushBracket_white (stack : List (Bracket × Nat)) {x : Nat × Char} (hx : isWhite x.2 = true) :
    pushBracket stack x = stack := by
  simp [pushBracket, nestingOpener?, nestingCloser?, ofOpener?_white hx, ofCloser?_white hx]

theorem openBrackets_eq (l : Line) : l.openBrackets = l.ink.foldl pushBracket [] := by
  rw [openBrackets, ink]
  generalize ([] : List (Bracket × Nat)) = stack
  induction l.codeChars generalizing stack with
  | nil => rfl
  | cons x rest ih =>
    cases hw : isWhite x.2 with
    | true => simp [hw, ih, pushBracket_white stack hw]
    | false => simp [hw, ih]

theorem pushBracket_shift (n : Nat) (stack : List (Bracket × Nat)) (x : Nat × Char) :
    pushBracket (stack.map (Prod.map id (n + ·))) (Prod.map (n + ·) id x) =
      (pushBracket stack x).map (Prod.map id (n + ·)) := by
  unfold pushBracket
  simp only [Prod.map, id]
  cases nestingOpener? x.2 with
  | some b => rfl
  | none =>
    cases nestingCloser? x.2 with
    | none => cases stack <;> rfl
    | some b =>
      cases stack with
      | nil => rfl
      | cons top rest =>
        by_cases htop : top.1 = b <;> simp [htop]

theorem openBrackets_core (l : Line) :
    l.openBrackets = l.core.openBrackets.map (Prod.map id (l.margin + ·)) := by
  rw [openBrackets_eq, openBrackets_eq, ink_core l]
  suffices h : ∀ (xs : List (Nat × Char)) (stack : List (Bracket × Nat)),
      (xs.map (Prod.map (l.margin + ·) id)).foldl pushBracket (stack.map (Prod.map id (l.margin + ·))) =
        (xs.foldl pushBracket stack).map (Prod.map id (l.margin + ·)) from h _ []
  intro xs
  induction xs with
  | nil => intro stack; rfl
  | cons x rest ih =>
    intro stack
    rw [List.map_cons, List.foldl_cons, List.foldl_cons, pushBracket_shift, ih]

theorem contentAfter?_core (l : Line) (j : Nat) :
    l.contentAfter? (l.margin + j) = (l.core.contentAfter? j).map (l.margin + ·) := by
  obtain ⟨a, b, ha, hwhite, he⟩ := l.exists_numbered
  have hb : ∀ n, (b.drop n).find? (fun x => !isWhite x.1.char) = none := by
    intro n
    rw [List.find?_eq_none]
    intro x hx
    simp [hwhite x (List.mem_append_right a (List.mem_of_mem_drop hx))]
  have hdrop : l.margin + j + 1 = a.length + (j + 1) := by omega
  have hfind : (l.cells.zipIdx.drop (l.margin + j + 1)).find? (fun x => !isWhite x.1.char) =
      ((l.core.cells.zipIdx.drop (j + 1)).find? fun x => !isWhite x.1.char).map
        (Prod.map id (l.margin + ·)) := by
    rw [he, hdrop, List.append_assoc, ← List.drop_drop, List.drop_left, List.drop_append,
      List.find?_append, hb, Option.or_none, ← List.map_drop, List.find?_map]
    rfl
  simp only [contentAfter?, hfind]
  rcases (l.core.cells.zipIdx.drop (j + 1)).find? _ with _ | ⟨⟨c, kind⟩, content⟩
  · rfl
  · cases kind <;> rfl

theorem getElem?_of_leading? {l : Line} {column : Nat} {c : Char}
    (h : l.leading? = some (column, c)) : l.cells[column]? = some ⟨c, .code⟩ := by
  unfold leading? at h
  split at h
  · next k d hfirst =>
    obtain ⟨⟨cell, j⟩, hx, he⟩ := Option.map_eq_some_iff.mp hfirst
    cases h
    cases he
    exact List.mem_zipIdx_iff_getElem?.mp (List.mem_of_find?_eq_some hx)
  · cases h

theorem getElem?_of_mem_codeChars {l : Line} {column : Nat} {c : Char}
    (h : (column, c) ∈ l.codeChars) : l.cells[column]? = some ⟨c, .code⟩ := by
  obtain ⟨⟨⟨d, kind⟩, j⟩, hx, he⟩ := List.mem_filterMap.mp h
  simp only at he
  split at he
  · next hkind =>
    cases he
    cases hkind
    exact List.mem_zipIdx_iff_getElem?.mp hx
  · cases he

theorem getElem?_of_trailing? {l : Line} {column : Nat} {c : Char}
    (h : l.trailing? = some (column, c)) : l.cells[column]? = some ⟨c, .code⟩ :=
  getElem?_of_mem_codeChars (List.mem_reverse.mp (List.mem_of_find?_eq_some h))

theorem lt_length_of_getElem? {l : Line} {column : Nat} {cell : Cell}
    (h : l.cells[column]? = some cell) : column < l.chars.length := by
  have hlt := (List.getElem?_eq_some_iff.mp h).1
  rwa [length_cells, length] at hlt

theorem drop_chars {l : Line} {j : Nat} (hj : j ≤ l.core.chars.length) :
    ∃ t, allWhite t = true ∧ l.chars.drop (l.margin + j) = l.core.chars.drop j ++ t := by
  obtain ⟨t, ht, he⟩ := exists_margins l.chars
  refine ⟨t, ht, ?_⟩
  calc l.chars.drop (l.margin + j)
      = (takeWhite l.chars ++ (trim l.chars ++ t)).drop (l.margin + j) := by
        rw [← List.append_assoc, ← he]
    _ = l.core.chars.drop j ++ t := by
        rw [margin, ← List.drop_drop, List.drop_left, ← core_chars, List.drop_append_of_le_length hj]

@[simp] theorem directive?_core (l : Line) : l.core.directive? = l.directive? := by
  unfold directive?
  rw [leading?_core l]
  rcases hlead : l.core.leading? with _ | ⟨hash, c⟩
  · rfl
  · have hlt := lt_length_of_getElem? (getElem?_of_leading? hlead)
    obtain ⟨t, ht, he⟩ := drop_chars (l := l) (j := hash + 1) hlt
    by_cases hc : c = '#'
    · subst hc
      simp only [Option.map_some, Prod.map, id, Nat.add_assoc, he, name_append_white ht]
    · simp only [Option.map_some, Prod.map, id]
      split
      · next h => simp_all
      · split
        · next h => simp_all
        · rfl

@[simp] theorem opensBranch_core (l : Line) : l.core.opensBranch = l.opensBranch := by
  simp only [opensBranch, directive?_core]

@[simp] theorem closesBranch_core (l : Line) : l.core.closesBranch = l.closesBranch := by
  simp only [closesBranch, directive?_core]

@[simp] theorem depthChange_core (l : Line) : l.core.depthChange = l.depthChange := by
  simp only [depthChange_eq, opensBranch_core, depthSum_codeChars, ink_core l, List.map_map]
  rfl

section SetIndentation

variable (l : Line) (n : Nat)

@[simp] theorem next_setIndentation : (l.setIndentation n).next = l.next :=
  eq_of_core next_core (core_setIndentation l n)

@[simp] theorem isBlank_setIndentation : (l.setIndentation n).isBlank = l.isBlank :=
  eq_of_core isBlank_core (core_setIndentation l n)

@[simp] theorem isContinuation_setIndentation :
    (l.setIndentation n).isContinuation = l.isContinuation :=
  eq_of_core isContinuation_core (core_setIndentation l n)

@[simp] theorem leadingCloser?_setIndentation :
    (l.setIndentation n).leadingCloser? = l.leadingCloser? :=
  eq_of_core leadingCloser?_core (core_setIndentation l n)

@[simp] theorem leadsWithCloser_setIndentation :
    (l.setIndentation n).leadsWithCloser = l.leadsWithCloser :=
  eq_of_core leadsWithCloser_core (core_setIndentation l n)

@[simp] theorem opensBranch_setIndentation : (l.setIndentation n).opensBranch = l.opensBranch :=
  eq_of_core opensBranch_core (core_setIndentation l n)

@[simp] theorem closesBranch_setIndentation : (l.setIndentation n).closesBranch = l.closesBranch :=
  eq_of_core closesBranch_core (core_setIndentation l n)

end SetIndentation

theorem find?_equals (l : Line) :
    (l.codeChars.find? fun p => p.2 == '=') = l.ink.find? fun p => p.2 == '=' :=
  find?_codeChars (fun _ hx => beq_eq_false_iff_ne.mpr (ne_of_isWhite hx (by decide))) l

theorem anchorColumn?_core (l : Line) : l.anchorColumn? = l.core.anchorColumn?.map (l.margin + ·) := by
  have hequals : (l.codeChars.find? fun p => p.2 == '=').map Prod.fst =
      ((l.core.codeChars.find? fun p => p.2 == '=').map Prod.fst).map (l.margin + ·) := by
    rw [find?_equals, find?_equals, ink_core l, List.find?_map, Option.map_map, Option.map_map]
    rfl
  unfold anchorColumn?
  rw [leading?_core l, hequals]
  rcases l.core.leading? with _ | ⟨column, c⟩
  · rfl
  · by_cases hc : c = '+'
    · subst hc
      rfl
    · simp only [Option.map_some, Prod.map, id]
      split
      · next h => simp_all
      · split
        · next h => simp_all
        · rfl

theorem column_lt_of_contentAfter? {l : Line} {column content : Nat}
    (h : l.contentAfter? column = some content) : content < l.chars.length := by
  unfold contentAfter? at h
  split at h
  · next cell k hfind =>
    have hmem := List.mem_of_mem_drop (List.mem_of_find?_eq_some hfind)
    have hlt := lt_length_of_getElem? (List.mem_zipIdx_iff_getElem?.mp hmem)
    split at h
    · cases h
      exact hlt
    · cases h
      exact hlt
    · cases h
    · cases h
  · cases h

theorem column_lt_of_openContent? {l : Line} {content : Nat} (h : l.openContent? = some content) :
    content < l.chars.length := by
  unfold openContent? at h
  split at h
  · exact column_lt_of_contentAfter? h
  · cases h

theorem column_lt_of_anchorColumn? {l : Line} {column : Nat} (h : l.anchorColumn? = some column) :
    column < l.chars.length := by
  unfold anchorColumn? at h
  split at h
  · next hlead =>
    cases h
    exact lt_length_of_getElem? (getElem?_of_leading? hlead)
  · obtain ⟨p, hp, rfl⟩ := Option.map_eq_some_iff.mp h
    exact lt_length_of_getElem? (getElem?_of_mem_codeChars (List.mem_of_find?_eq_some hp))

/-- The visual column of the character with index `j` of the content, which starts in column
`start`. -/
def columnIn (tab start : Nat) (l : Line) (j : Nat) : Nat :=
  (l.chars.take j).foldl (advance (max tab 1)) start

/-- Visual columns are counted on from the indentation. -/
theorem visualColumn_core (l : Line) (tab : Nat) {j : Nat} (hj : j ≤ l.core.chars.length) :
    visualColumn tab l.chars (l.margin + j) = columnIn tab (l.indentation tab) l.core j := by
  obtain ⟨t, -, he⟩ := exists_margins l.chars
  have htake : l.chars.take (l.margin + j) = takeWhite l.chars ++ l.core.chars.take j := by
    calc l.chars.take (l.margin + j)
        = (takeWhite l.chars ++ (trim l.chars ++ t)).take (l.margin + j) := by
          rw [← List.append_assoc, ← he]
      _ = takeWhite l.chars ++ l.core.chars.take j := by
          rw [margin, List.take_length_add_append, ← core_chars, List.take_append_of_le_length hj]
  rw [visualColumn, htake, width_eq, List.foldl_append, ← width_eq]
  rfl

theorem anchor?_core (l : Line) (tab : Nat) :
    l.anchor? tab = l.core.anchorColumn?.map (columnIn tab (l.indentation tab) l.core) := by
  rw [anchor?_eq, anchorColumn?_core, Option.map_map]
  cases h : l.core.anchorColumn? with
  | none => rfl
  | some j =>
    have hj := Nat.le_of_lt (column_lt_of_anchorColumn? h)
    simp only [Option.map_some, Function.comp, visualColumn_core l tab hj]

theorem openColumn?_core (l : Line) (tab : Nat) :
    l.openColumn? tab = match l.core.openBrackets with
      | (_, column) :: _ =>
        (l.core.contentAfter? column).map (columnIn tab (l.indentation tab) l.core)
      | [] => none := by
  rw [openColumn?_eq, openContent?, openBrackets_core]
  rcases l.core.openBrackets with _ | ⟨⟨b, column⟩, rest⟩
  · rfl
  · simp only [List.map_cons, Prod.map, contentAfter?_core, Option.map_map]
    cases h : l.core.contentAfter? column with
    | none => rfl
    | some j =>
      have hj := Nat.le_of_lt (column_lt_of_contentAfter? h)
      simp only [Option.map_some, Function.comp, visualColumn_core l tab hj]

/-- Spaces take one column each. -/
theorem foldl_advance_spaces (tab : Nat) {start n : Nat} (h : start + n < UInt64.size) :
    (List.replicate n ' ').foldl (advance tab) start = start + n := by
  induction n generalizing start with
  | zero => rfl
  | succ n ih =>
    have hfirst : advance tab start ' ' = start + 1 := by
      rw [advance_eq, nextColumn, if_neg (by decide), Nat.mod_eq_of_lt (by omega)]
    rw [List.replicate_succ, List.foldl_cons, hfirst, ih (by omega)]
    omega

/-- A line with content stands where it is put. -/
theorem indentation_setIndentation {l : Line} (h : l.isBlank = false) {n : Nat} (hn : n < UInt64.size)
    (tab : Nat) : (l.setIndentation n).indentation tab = n := by
  rw [indentation, setIndentation, indentWidth, withIndent_of_content h,
    takeWhite_append_white (allWhite_spaces n), takeWhite_dropWhite, List.append_nil, width_eq,
    foldl_advance_spaces _ (by rwa [Nat.zero_add]), Nat.zero_add]

end Line

end BffLayout
