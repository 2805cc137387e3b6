import BffLayout.Proofs.Margin
import BffLayout.Report

/-!
Reading a whole text. An automaton reads the lines joined by line feeds once, from the first
character to the last. A buffer reads every line on its own, from one of two states that it has
kept for the line. Both give every character the same kind, and the automaton passes through the
start and the end of each line in the mode in which the buffer starts and leaves it.
-/
namespace BffLayout

namespace Mode

/-- The mode after `c`, where `next` is the character that follows in the text. A line feed ends
strings and line comments, and no comment sign goes across it. -/
def move : Mode → Char → Option Char → Mode
  | code, c, next =>
    if c = '\x22' ∨ c = '\x27' then string c
    else if c = ';' ∨ (c = '/' ∧ next = some '/') then lineComment
    else if c = '/' ∧ next = some '*' then opening
    else code
  | string quote, c, _ =>
    if c = '\n' then code
    else if c = '^' then escape quote
    else if c = quote then code
    else string quote
  | escape quote, c, _ => if c = '\n' then code else string quote
  | lineComment, c, _ => if c = '\n' then code else lineComment
  | opening, _, _ => block
  | block, c, _ => if c = '*' then star else block
  | star, c, _ => if c = '/' then code else if c = '*' then star else block

/-- In code a character has the kind of what it opens, and elsewhere the kind of what it is in. -/
def mark (m : Mode) (c : Char) (next : Option Char) : Kind :=
  match m with
  | code => (code.move c next).kind
  | _ => m.kind

/-- The kinds of the characters of a text. -/
def marks : Mode → List Char → List Kind
  | _, [] => []
  | m, c :: rest => m.mark c rest.head? :: marks (m.move c rest.head?) rest

/-- The modes on the way through a text, before each character and at the end. -/
def path : Mode → List Char → List Mode
  | m, [] => [m]
  | m, c :: rest => m :: path (m.move c rest.head?) rest

@[simp] theorem marks_cons (m : Mode) (c : Char) (rest : List Char) :
    m.marks (c :: rest) = m.mark c rest.head? :: (m.move c rest.head?).marks rest := rfl

@[simp] theorem path_cons (m : Mode) (c : Char) (rest : List Char) :
    m.path (c :: rest) = m :: (m.move c rest.head?).path rest := rfl

theorem head?_path (m : Mode) (cs : List Char) : (m.path cs).head? = some m := by
  cases cs <;> rfl

/-- Within a line the automaton and the scanner do the same. -/
theorem move_eq_step {m : Mode} (hm : m.WellQuoted) {c : Char} (hc : c ≠ '\n')
    (next : Option Char) :
    m.mark c next = (m.step c next).1 ∧ m.move c next = (m.step c next).2 := by
  cases m with
  | code =>
    simp only [mark, move, step, isQuote, Bool.or_eq_true, beq_iff_eq]
    by_cases hquote : c = '\x22' ∨ c = '\x27'
    · simp [hquote, kind]
    · by_cases hsemi : c = ';'
      · simp [hsemi, kind]
      · by_cases hslash : c = '/' ∧ next = some '/'
        · simp [hslash, kind]
        · by_cases hstar : c = '/' ∧ next = some '*'
          · simp [hstar, kind]
          · simp [hquote, hsemi, hslash, hstar, kind]
  | string quote =>
    have hcaret : quote ≠ '^' := by
      rintro rfl
      cases hm
    refine ⟨rfl, ?_⟩
    by_cases hquote : c = quote
    · subst hquote
      simp [move, step, hc, hcaret]
    · simp [move, step, hc, hquote]
  | escape quote => simp [mark, move, step, hc, kind]
  | lineComment => simp [mark, move, step, hc, kind]
  | opening | block | star => exact ⟨rfl, rfl⟩

/-- A line feed leaves of a mode what the end of a line leaves of it. -/
theorem move_lineFeed (m : Mode) (next : Option Char) : m.move '\n' next = m.atLineEnd.mode := by
  cases m with
  | code => simp [move, atLineEnd, kind, ScanState.mode]
  | string quote | escape quote | lineComment | opening | block | star => rfl

section Line

variable {t : List Char} (hslash : t.head? ≠ some '/') (hstar : t.head? ≠ some '*')

include hslash hstar

/-- What follows a line in the text has no influence on how its characters are read. -/
theorem move_append {m : Mode} (hm : m.WellQuoted) {c : Char} (hc : c ≠ '\n') (rest : List Char) :
    m.mark c (rest ++ t).head? = (m.step c rest.head?).1 ∧
      m.move c (rest ++ t).head? = (m.step c rest.head?).2 := by
  have hstep := move_eq_step hm hc (rest ++ t).head?
  have hahead : m.step c (rest ++ t).head? = m.step c rest.head? := by
    cases rest with
    | nil => rw [List.nil_append, step_next hslash hstar, List.head?_nil]
    | cons d more => rfl
  rwa [hahead] at hstep

theorem marks_append {m : Mode} (hm : m.WellQuoted) {cs : List Char} (hcs : '\n' ∉ cs) :
    m.marks (cs ++ t) = (m.tag cs).map Cell.kind ++ (m.run cs).marks t := by
  induction cs generalizing m with
  | nil => rfl
  | cons c rest ih =>
    have hc := List.ne_of_not_mem_cons hcs
    have hrest := List.not_mem_of_not_mem_cons hcs
    obtain ⟨hmark, hmove⟩ := move_append hslash hstar hm hc.symm rest
    rw [List.cons_append, marks_cons, hmark, hmove, ih (wellQuoted_step hm c _) hrest]
    rfl

theorem path_append {m : Mode} (hm : m.WellQuoted) {cs : List Char} (hcs : '\n' ∉ cs) :
    (m.path (cs ++ t)).drop cs.length = (m.run cs).path t := by
  induction cs generalizing m with
  | nil => rfl
  | cons c rest ih =>
    have hc := List.ne_of_not_mem_cons hcs
    have hrest := List.not_mem_of_not_mem_cons hcs
    obtain ⟨-, hmove⟩ := move_append hslash hstar hm hc.symm rest
    rw [List.cons_append, path_cons, hmove, List.length_cons, List.drop_succ_cons,
      ih (wellQuoted_step hm c _) hrest]
    rfl

end Line

end Mode

/-- What stands after a line in the text, when these lines follow it. -/
def afterLine : List (List Char) → List Char
  | [] => []
  | cs :: rest => '\n' :: joinLines (cs :: rest)

theorem joinLines_cons (cs : List Char) (rest : List (List Char)) :
    joinLines (cs :: rest) = cs ++ afterLine rest := by
  cases rest with
  | nil => rw [joinLines, List.intercalate_singleton, afterLine, List.append_nil]
  | cons ds more =>
    rw [joinLines, List.intercalate_cons_cons, List.append_assoc, afterLine]
    rfl

theorem afterLine_of_ne_nil {rest : List (List Char)} (h : rest ≠ []) :
    afterLine rest = '\n' :: joinLines rest := by
  cases rest with
  | nil => exact absurd rfl h
  | cons cs more => rfl

theorem head?_afterLine (rest : List (List Char)) {c : Char} (hc : c ≠ '\n') :
    (afterLine rest).head? ≠ some c := by
  cases rest with
  | nil => simp [afterLine]
  | cons ds more => simpa [afterLine] using hc.symm

theorem foldl_lineOffset (lines : List (List Char)) (n : Nat) :
    lines.foldl (fun offset line => offset + line.length + 1) n =
      n + lines.foldl (fun offset line => offset + line.length + 1) 0 := by
  induction lines generalizing n with
  | nil => rfl
  | cons cs rest ih =>
    rw [List.foldl_cons, List.foldl_cons, ih, ih (0 + cs.length + 1)]
    omega

open Report (lineOffset)

theorem lineOffset_succ (cs : List Char) (rest : List (List Char)) (i : Nat) :
    lineOffset (cs :: rest) (i + 1) = cs.length + (1 + lineOffset rest i) := by
  rw [lineOffset, List.take_succ_cons, List.foldl_cons, foldl_lineOffset, lineOffset]
  omega

/-- From the start of a line on, the automaton reads as if the text began there. -/
theorem drop_lineOffset {s : ScanState} {lines : List (List Char)}
    (hlines : ∀ cs ∈ lines, '\n' ∉ cs) {i : Nat} {l : Line} (hl : (linesFrom s lines)[i]? = some l) :
    (s.mode.path (joinLines lines)).drop (lineOffset lines i) =
        l.start.mode.path (joinLines (lines.drop i)) ∧
      (s.mode.marks (joinLines lines)).drop (lineOffset lines i) =
        l.start.mode.marks (joinLines (lines.drop i)) := by
  induction lines generalizing s i with
  | nil => cases hl
  | cons cs rest ih =>
    cases i with
    | zero =>
      cases hl
      exact ⟨rfl, rfl⟩
    | succ n =>
      have hcs : '\n' ∉ cs := hlines cs List.mem_cons_self
      have hrest : ∀ ds ∈ rest, '\n' ∉ ds := fun ds hds => hlines ds (List.mem_cons_of_mem cs hds)
      have hslash := head?_afterLine rest (c := '/') (by decide)
      have hstar := head?_afterLine rest (c := '*') (by decide)
      obtain ⟨hpath, hmarks⟩ := ih hrest hl
      cases rest with
      | nil => cases hl
      | cons ds more =>
        have hbreak : ∀ next, (s.mode.run cs).move '\n' next = (Line.next ⟨s, cs⟩).mode :=
          Mode.move_lineFeed _
        have hlength : ((s.mode.tag cs).map Cell.kind).length = cs.length := by
          rw [List.length_map, Mode.length_tag]
        rw [joinLines_cons, lineOffset_succ, List.drop_succ_cons, ← hpath, ← hmarks]
        constructor
        · rw [← List.drop_drop, ← List.drop_drop,
            Mode.path_append hslash hstar (Mode.wellQuoted_mode s) hcs, afterLine, Mode.path_cons,
            hbreak, List.drop_succ_cons, List.drop_zero]
        · rw [← List.drop_drop, ← List.drop_drop,
            Mode.marks_append hslash hstar (Mode.wellQuoted_mode s) hcs, List.drop_left' hlength,
            afterLine, Mode.marks_cons, hbreak, List.drop_succ_cons, List.drop_zero]

/-- A line of the buffer at the start of what is left of the text. -/
theorem joinLines_drop {s : ScanState} {lines : List (List Char)} {i : Nat} {l : Line}
    (hl : (linesFrom s lines)[i]? = some l) :
    l.chars ∈ lines ∧ joinLines (lines.drop i) = l.chars ++ afterLine (lines.drop (i + 1)) := by
  have hchars : lines[i]? = some l.chars := by
    rw [← map_chars_linesFrom s lines, List.getElem?_map, hl]
    rfl
  obtain ⟨hi, he⟩ := List.getElem?_eq_some_iff.mp hchars
  refine ⟨List.mem_of_getElem? hchars, ?_⟩
  rw [List.drop_eq_getElem_cons hi, he, joinLines_cons]

namespace Buffer

/-- Reading line by line from the states that a buffer keeps comes to the same as reading the whole
text once: it gives the same kinds, and each line starts and ends as the automaton passes it. -/
theorem read_whole {lines : List (List Char)} (hlines : ∀ cs ∈ lines, '\n' ∉ cs) {i : Nat}
    {cs : List Char} (hcs : lines[i]? = some cs) :
    ∃ l, (ofLines lines).lines[i]? = some l ∧ l.chars = cs ∧
      (∀ column < cs.length, (Mode.code.marks (joinLines lines))[lineOffset lines i + column]? =
        l.cells[column]?.map Cell.kind) ∧
      (∃ m, (Mode.code.path (joinLines lines))[lineOffset lines i]? = some m ∧
        ((ofLines lines).startState i = .block ↔ m = .block ∨ m = .star)) ∧
      ∃ m, (Mode.code.path (joinLines lines))[lineOffset lines i + cs.length]? = some m ∧
        l.openAtEnd = m.kind := by
  obtain ⟨l, hl, rfl⟩ : ∃ l, (ofLines lines).lines[i]? = some l ∧ l.chars = cs := by
    rw [← map_chars_linesFrom .code lines, List.getElem?_map, Option.map_eq_some_iff] at hcs
    exact hcs
  obtain ⟨hmem, hjoin⟩ := joinLines_drop hl
  have hpath : (Mode.code.path (joinLines lines)).drop (lineOffset lines i) =
      l.start.mode.path (l.chars ++ afterLine (lines.drop (i + 1))) :=
    hjoin ▸ (drop_lineOffset hlines hl).1
  have hmarks : (Mode.code.marks (joinLines lines)).drop (lineOffset lines i) =
      l.start.mode.marks (l.chars ++ afterLine (lines.drop (i + 1))) :=
    hjoin ▸ (drop_lineOffset hlines hl).2
  have hslash := head?_afterLine (lines.drop (i + 1)) (c := '/') (by decide)
  have hstar := head?_afterLine (lines.drop (i + 1)) (c := '*') (by decide)
  have hfeed : '\n' ∉ l.chars := hlines _ hmem
  have hquoted := Mode.wellQuoted_mode l.start
  have hstart : (ofLines lines).startState i = l.start := by rw [startState, hl]
  refine ⟨l, hl, rfl, ?_, ⟨l.start.mode, ?_, ?_⟩, l.finish, ?_, rfl⟩
  · intro column hcolumn
    have hlt : column < ((l.start.mode.tag l.chars).map Cell.kind).length := by
      rwa [List.length_map, Mode.length_tag]
    rw [← List.getElem?_drop, hmarks, Mode.marks_append hslash hstar hquoted hfeed,
      List.getElem?_append_left hlt, List.getElem?_map]
    rfl
  · rw [← Nat.add_zero (lineOffset lines i), ← List.getElem?_drop, hpath, ← List.head?_eq_getElem?,
      Mode.head?_path]
  · rw [hstart]
    cases hs : l.start <;> simp [ScanState.mode]
  · rw [← Nat.add_zero (lineOffset lines i + l.chars.length), ← List.getElem?_drop, ← List.drop_drop,
      hpath, Mode.path_append hslash hstar hquoted hfeed, ← List.head?_eq_getElem?, Mode.head?_path]
    rfl

/-- A star at the end of a line, a slash at the start of the next, a sign that opens a comment and
does not close it, and a caret at the end of a string that is left open. -/
def looseEnds : List (List Char) :=
  ["a /*/ *", "/ **/ 'b^", "\"c'^\" // d"].map String.toList

theorem read_whole_looseEnds :
    (∀ cs ∈ looseEnds, '\n' ∉ cs) ∧
    (Mode.code.marks (joinLines looseEnds))[lineOffset looseEnds 1 + 4]? = some .blockComment ∧
    ∃ m, (Mode.code.path (joinLines looseEnds))[lineOffset looseEnds 1 + 9]? = some m ∧
      Kind.string = m.kind := by
  have hlines : ∀ cs ∈ looseEnds, '\n' ∉ cs := by decide
  have hline : (ofLines looseEnds).lines[1]? = some ⟨.block, "/ **/ 'b^".toList⟩ := by decide
  have hcs : looseEnds[1]? = some "/ **/ 'b^".toList := rfl
  obtain ⟨l, hl, -, hmarks, -, hend⟩ := read_whole hlines hcs
  obtain rfl := Option.some.inj (hline.symm.trans hl)
  exact ⟨hlines, hmarks 4 (by decide), hend⟩

end Buffer

end BffLayout
