import BffLayout.Proofs.Cuts
import BffLayout.Proofs.Remarks

/-!
Scanning with loops. A scanner has a place on its line and a list to which it adds a kind for every
character that it passes. Strings and comments are read by loops of their own, which return as soon as
they are closed or the line ends, and what is open then is known from the loop that met the end. At its
place the scanner has given the kinds of all characters before it, and the loop that it is in tells the mode
in which the next one is read. So every way through the loops ends at the end of the line, with one kind for
each of its characters.
-/
namespace BffLayout

/-- A scanner: the characters of its line, the number of those passed, and the kinds given to them. -/
structure Scanner where
  chars : List Char
  position : Nat
  kinds : List Kind
  deriving DecidableEq, Repr

namespace Scanner

def peek (s : Scanner) : Option Char := s.chars[s.position]?

def peekNext (s : Scanner) : Option Char := s.chars[s.position + 1]?

/-- The scanner behind its next character, which is of kind `k`. -/
def pass (s : Scanner) (k : Kind) : Scanner :=
  { s with position := s.position + 1, kinds := s.kinds ++ [k] }

/-- Passes one character, if the line has not ended. -/
def advance (s : Scanner) (k : Kind) : Option Char × Scanner :=
  match s.peek with
  | none => (none, s)
  | some c => (some c, s.pass k)

/-- The number of characters still to be passed. -/
def left (s : Scanner) : Nat := s.chars.length - s.position

variable {s t : Scanner} {c : Char} {k : Kind}

theorem advance_of_some (h : s.peek = some c) : s.advance k = (some c, s.pass k) := by rw [advance, h]

theorem advance_eq_none (h : s.advance k = (none, t)) : s.peek = none ∧ t = s := by
  rw [advance] at h
  split at h
  next hp =>
    cases h
    exact ⟨hp, rfl⟩
  next => cases h

theorem advance_eq_some (h : s.advance k = (some c, t)) : s.peek = some c ∧ t = s.pass k := by
  rw [advance] at h
  split at h
  next => cases h
  next d hp =>
    cases h
    exact ⟨hp, rfl⟩

theorem left_pass_lt (h : s.peek = some c) : (s.pass k).left < s.left := by
  have hlt := (List.getElem?_eq_some_iff.mp h).1
  simp only [left, pass]
  omega

theorem left_lt_of_advance (h : s.advance k = (some c, t)) : t.left < s.left := by
  obtain ⟨hc, rfl⟩ := advance_eq_some h
  exact left_pass_lt hc

theorem left_advance_le (s : Scanner) (k : Kind) : (s.advance k).2.left ≤ s.left := by
  cases h : s.peek with
  | none => exact Nat.le_of_eq (by rw [advance, h])
  | some c =>
    rw [advance_of_some h]
    exact Nat.le_of_lt (left_pass_lt h)

/-- Passes the rest of the line. -/
def lineComment (s : Scanner) : Scanner :=
  match _h : s.advance .lineComment with
  | (none, t) => t
  | (some _, t) => t.lineComment
termination_by s.left
decreasing_by exact left_lt_of_advance _h

/-- Passes a block comment up to and with the sign that closes it, and tells whether there was one. -/
def block (s : Scanner) : Bool × Scanner :=
  match _h : s.advance .blockComment with
  | (none, t) => (false, t)
  | (some c, t) =>
    if c = '*' ∧ t.peek = some '/' then (true, (t.advance .blockComment).2) else t.block
termination_by s.left
decreasing_by exact left_lt_of_advance _h

/-- Passes a string from behind its first quote up to and with the last, and tells whether there was one.
A caret takes the character behind it along, if there is one. -/
def quoted (quote : Char) (s : Scanner) : Bool × Scanner :=
  match _h : s.advance .string with
  | (none, t) => (false, t)
  | (some c, t) =>
    if c = '^' then quoted quote (t.advance .string).2
    else if c = quote then (true, t)
    else quoted quote t
termination_by s.left
decreasing_by
  · exact Nat.lt_of_le_of_lt (left_advance_le _ _) (left_lt_of_advance _h)
  · exact left_lt_of_advance _h

/-- Passes a string from its first quote on. -/
def string (s : Scanner) : Bool × Scanner :=
  match s.advance .string with
  | (none, t) => (false, t)
  | (some quote, t) => quoted quote t

theorem left_block_le (s : Scanner) : s.block.2.left ≤ s.left := by
  fun_induction block s with
  | case1 s t h => exact (advance_eq_none h).2 ▸ Nat.le_refl _
  | case2 s c t h _ => exact Nat.le_trans (left_advance_le _ _) (Nat.le_of_lt (left_lt_of_advance h))
  | case3 s c t h _ ih => exact Nat.le_trans ih (Nat.le_of_lt (left_lt_of_advance h))

theorem left_quoted_le (quote : Char) (s : Scanner) : (quoted quote s).2.left ≤ s.left := by
  fun_induction quoted quote s with
  | case1 s t h => exact (advance_eq_none h).2 ▸ Nat.le_refl _
  | case2 s t h ih =>
    exact Nat.le_trans ih (Nat.le_trans (left_advance_le _ _) (Nat.le_of_lt (left_lt_of_advance h)))
  | case3 s t h _ => exact Nat.le_of_lt (left_lt_of_advance h)
  | case4 s c t h _ _ ih => exact Nat.le_trans ih (Nat.le_of_lt (left_lt_of_advance h))

theorem string_of_some (h : s.peek = some c) : s.string = quoted c (s.pass .string) := by
  rw [string, advance_of_some h]

theorem left_lt_of_string {closed : Bool} (h : s.peek = some c) (hs : s.string = (closed, t)) :
    t.left < s.left := by
  have hle := left_quoted_le c (s.pass .string)
  rw [← string_of_some h, hs] at hle
  exact Nat.lt_of_le_of_lt hle (left_pass_lt h)

/-- The scanner behind the sign that opens a block comment. -/
def behindSign (s : Scanner) : Scanner := ((s.advance .blockComment).2.advance .blockComment).2

theorem left_lt_of_comment {closed : Bool} (h : s.peek = some c) (hs : s.behindSign.block = (closed, t)) :
    t.left < s.left := by
  have hle := left_block_le s.behindSign
  rw [hs, behindSign, advance_of_some h] at hle
  exact Nat.lt_of_le_of_lt (Nat.le_trans hle (left_advance_le _ _)) (left_pass_lt h)

/-- Passes the rest of a line from a place in code. Gives the kind of what is open at its end, and the
state in which the line below starts. -/
def code (s : Scanner) : Scanner × Kind × ScanState :=
  match _h : s.peek with
  | none => (s, .code, .code)
  | some c =>
    if isQuote c then
      match _hs : s.string with
      | (true, t) => t.code
      | (false, t) => (t, .string, .code)
    else if c = ';' then (s.lineComment, .lineComment, .code)
    else if c = '/' ∧ s.peekNext = some '/' then (s.lineComment, .lineComment, .code)
    else if c = '/' ∧ s.peekNext = some '*' then
      match _hs : s.behindSign.block with
      | (true, t) => t.code
      | (false, t) => (t, .blockComment, .block)
    else (s.advance .code).2.code
termination_by s.left
decreasing_by
  · exact left_lt_of_string _h _hs
  · exact left_lt_of_comment _h _hs
  · rw [advance_of_some _h]
    exact left_pass_lt _h

end Scanner

namespace Line

/-- The kinds of the characters of a line. -/
def kinds (l : Line) : List Kind := l.cells.map Cell.kind

/-- A line read with loops, from the state in which it starts. -/
def scan (l : Line) : Scanner × Kind × ScanState :=
  let s : Scanner := ⟨l.chars, 0, []⟩
  match l.start with
  | .code => s.code
  | .block =>
    match s.block with
    | (true, t) => t.code
    | (false, t) => (t, .blockComment, .block)

@[simp] theorem length_kinds (l : Line) : l.kinds.length = l.length := by
  rw [kinds, List.length_map, length_cells]

/-- The scanner that has passed all of a line. -/
def scanned (l : Line) : Scanner := ⟨l.chars, l.length, l.kinds⟩

/-- The mode at the end of the line is the one in which a further character would be read. -/
theorem modeAt_length (l : Line) : l.modeAt l.length = l.finish := (Mode.run_eq_reading _ _).symm

/-- One more character is one more kind. -/
theorem take_kinds_succ {l : Line} {column : Nat} {c : Char} (h : l.chars[column]? = some c) :
    l.kinds.take (column + 1) =
      l.kinds.take column ++ [((l.modeAt column).step c l.chars[column + 1]?).1] := by
  have hkind : l.kinds[column]? = some ((l.modeAt column).step c l.chars[column + 1]?).1 := by
    rw [kinds, List.getElem?_map]
    exact (l.kind?_eq column).trans (by rw [h, Option.map_some])
  rw [List.take_add_one, hkind, Option.toList_some]

end Line

namespace Mode

/-- A star that no slash follows changes nothing. -/
theorem step_star {c : Char} (h : c ≠ '/') (next : Option Char) : star.step c next = block.step c next := by
  simp only [step, if_neg h]

theorem step_caret {quote : Char} (h : quote ≠ '^') (next : Option Char) :
    (string quote).step '^' next = (.string, escape quote) := by
  simp only [step, if_neg h.symm, if_pos]

theorem step_quote (quote : Char) (next : Option Char) :
    (string quote).step quote next = (.string, code) := by
  simp only [step, if_pos]

theorem step_inside {quote c : Char} (hquote : c ≠ quote) (hcaret : c ≠ '^') (next : Option Char) :
    (string quote).step c next = (.string, string quote) := by
  simp only [step, if_neg hquote, if_neg hcaret]

end Mode

namespace Scanner

/-- The scanner has passed a line up to a place where the mode is `m`. -/
structure Reads (l : Line) (m : Mode) (s : Scanner) : Prop where
  chars : s.chars = l.chars
  bound : s.position ≤ l.length
  mode : l.modeAt s.position = m
  kinds : s.kinds = l.kinds.take s.position

variable {l : Line} {m : Mode} {s : Scanner} {c : Char} {k : Kind}

/-- A character that gets the kind it has in its mode is passed into the mode behind it. -/
theorem Reads.pass {after : Mode} (h : Reads l m s) (hc : s.peek = some c)
    (hstep : m.step c s.peekNext = (k, after)) : Reads l after (s.pass k) := by
  obtain ⟨hchars, hbound, rfl, hkinds⟩ := h
  rw [peek, hchars] at hc
  rw [peekNext, hchars] at hstep
  refine ⟨hchars, (List.getElem?_eq_some_iff.mp hc).1, ?_, ?_⟩
  · rw [Scanner.pass, Line.modeAt_succ hc, hstep]
  · rw [Scanner.pass, Line.take_kinds_succ hc, hstep, hkinds]

/-- At the end of the line nothing is left out. -/
theorem Reads.eq_scanned (h : Reads l m s) (hend : s.peek = none) : s = l.scanned ∧ l.finish = m := by
  obtain ⟨chars, position, kinds⟩ := s
  obtain ⟨hchars, hbound, hmode, hkinds⟩ := h
  dsimp only at hchars hbound hmode hkinds
  subst hchars
  have hposition : position = l.length := Nat.le_antisymm hbound (List.getElem?_eq_none_iff.mp hend)
  rw [hposition, l.modeAt_length] at hmode
  rw [hposition, List.take_of_length_le (Nat.le_of_eq l.length_kinds)] at hkinds
  rw [hposition, hkinds]
  exact ⟨rfl, hmode⟩

/-- How a loop leaves a scanner: in code behind what was closed, or at the end of the line with text of
kind `k` open. -/
def Leaves (l : Line) (k : Kind) : Bool × Scanner → Prop
  | (true, t) => Reads l .code t
  | (false, t) => t = l.scanned ∧ l.openAtEnd = k

theorem Reads.leaves_open (h : Reads l m s) (hend : s.peek = none) (hk : m.kind = k) :
    Leaves l k (false, s) := by
  obtain ⟨hs, hm⟩ := h.eq_scanned hend
  exact ⟨hs, by rw [Line.openAtEnd, hm, hk]⟩

theorem Leaves.result (h : Leaves l k (false, s)) (hk : k ≠ .blockComment) :
    (s, k, ScanState.code) = (l.scanned, l.openAtEnd, l.next) := by
  obtain ⟨rfl, rfl⟩ := h
  rw [Line.next, Mode.atLineEnd, ← Line.openAtEnd]
  split
  next hopen => exact absurd hopen hk
  next => rfl

theorem Leaves.result_block (h : Leaves l .blockComment (false, s)) :
    (s, Kind.blockComment, ScanState.block) = (l.scanned, l.openAtEnd, l.next) := by
  obtain ⟨rfl, hopen⟩ := h
  rw [Line.next, Mode.atLineEnd, ← Line.openAtEnd, hopen]

theorem Reads.lineComment (h : Reads l .lineComment s) :
    Leaves l .lineComment (false, s.lineComment) := by
  fun_induction Scanner.lineComment s with
  | case1 s t hstep =>
    obtain ⟨hend, rfl⟩ := advance_eq_none hstep
    exact h.leaves_open hend rfl
  | case2 s c t hstep ih =>
    obtain ⟨hc, rfl⟩ := advance_eq_some hstep
    exact ih (h.pass hc rfl)

/-- A place in a block comment at which a slash does not close it. -/
def InBlock (l : Line) (s : Scanner) : Prop :=
  Reads l .block s ∨ Reads l .star s ∧ s.peek ≠ some '/'

theorem InBlock.pass (h : InBlock l s) (hc : s.peek = some c) :
    Reads l (if c = '*' then .star else .block) (s.pass .blockComment) := by
  obtain h | ⟨h, hslash⟩ := h
  · exact h.pass hc rfl
  · have hne : c ≠ '/' := by
      rintro rfl
      exact hslash hc
    exact h.pass hc (Mode.step_star hne _)

theorem InBlock.block (h : InBlock l s) : Leaves l .blockComment s.block := by
  fun_induction Scanner.block s with
  | case1 s t hstep =>
    obtain ⟨hend, rfl⟩ := advance_eq_none hstep
    obtain h | ⟨h, -⟩ := h
    · exact h.leaves_open hend rfl
    · exact h.leaves_open hend rfl
  | case2 s c t hstep hclose =>
    obtain ⟨hc, rfl⟩ := advance_eq_some hstep
    obtain ⟨rfl, hslash⟩ := hclose
    rw [advance_of_some hslash]
    exact (h.pass hc).pass hslash rfl
  | case3 s c t hstep hopen ih =>
    obtain ⟨hc, rfl⟩ := advance_eq_some hstep
    have hafter := h.pass hc
    by_cases hstar : c = '*'
    · rw [if_pos hstar] at hafter
      exact ih (.inr ⟨hafter, fun hslash => hopen ⟨hstar, hslash⟩⟩)
    · rw [if_neg hstar] at hafter
      exact ih (.inl hafter)

/-- A place in a string, or the end of the line behind a caret that had nothing to take along. -/
def InString (l : Line) (quote : Char) (s : Scanner) : Prop :=
  Reads l (.string quote) s ∨ Reads l (.escape quote) s ∧ s.peek = none

theorem InString.reads {quote : Char} (h : InString l quote s) (hc : s.peek = some c) :
    Reads l (.string quote) s := by
  obtain h | ⟨-, hend⟩ := h
  · exact h
  · cases hend.symm.trans hc

/-- A caret is passed together with the character behind it. -/
theorem Reads.caret {quote : Char} (hquote : quote ≠ '^') (h : Reads l (.string quote) s)
    (hc : s.peek = some '^') : InString l quote ((s.pass .string).advance .string).2 := by
  have hescape := h.pass hc (Mode.step_caret hquote _)
  cases hnext : (s.pass .string).peek with
  | none =>
    rw [Scanner.advance, hnext]
    exact .inr ⟨hescape, hnext⟩
  | some c =>
    rw [advance_of_some hnext]
    exact .inl (hescape.pass hnext rfl)

theorem InString.quoted {quote : Char} (hquote : quote ≠ '^') (h : InString l quote s) :
    Leaves l .string (quoted quote s) := by
  fun_induction Scanner.quoted quote s with
  | case1 s t hstep =>
    obtain ⟨hend, rfl⟩ := advance_eq_none hstep
    obtain h | ⟨h, -⟩ := h
    · exact h.leaves_open hend rfl
    · exact h.leaves_open hend rfl
  | case2 s t hstep ih =>
    obtain ⟨hc, rfl⟩ := advance_eq_some hstep
    exact ih ((h.reads hc).caret hquote hc)
  | case3 s t hstep hcaret =>
    obtain ⟨hc, rfl⟩ := advance_eq_some hstep
    exact (h.reads hc).pass hc (Mode.step_quote quote _)
  | case4 s c t hstep hcaret hne ih =>
    obtain ⟨hc, rfl⟩ := advance_eq_some hstep
    exact ih (.inl ((h.reads hc).pass hc (Mode.step_inside hne hcaret _)))

theorem Reads.string (h : Reads l .code s) (hc : s.peek = some c) (hquote : isQuote c = true) :
    Leaves l .string s.string := by
  have hcaret : c ≠ '^' := by
    rintro rfl
    cases hquote
  rw [string_of_some hc]
  refine InString.quoted hcaret (.inl (h.pass hc ?_))
  simp only [Mode.step, if_pos hquote]

theorem Reads.comment (h : Reads l .code s) (hc : s.peek = some '/') (hnext : s.peekNext = some '*') :
    Leaves l .blockComment s.behindSign.block := by
  have hopening : Reads l .opening (s.pass .blockComment) := h.pass hc (by rw [hnext]; rfl)
  have hstar : (s.pass .blockComment).peek = some '*' := hnext
  rw [behindSign, advance_of_some hc, advance_of_some hstar]
  exact InBlock.block (.inl (hopening.pass hstar rfl))

theorem Reads.remark (h : Reads l .code s) (hc : s.peek = some c)
    (hsign : c = ';' ∨ c = '/' ∧ s.peekNext = some '/') :
    Leaves l .lineComment (false, s.lineComment) := by
  have hafter : s.lineComment = (s.pass .lineComment).lineComment := by
    rw [Scanner.lineComment, advance_of_some hc]
  rw [hafter]
  exact (h.pass hc (Mode.step_comment hsign)).lineComment

/-- From a place in code the rest of the line is read as its modes say. -/
theorem Reads.code (h : Reads l .code s) : s.code = (l.scanned, l.openAtEnd, l.next) := by
  fun_induction Scanner.code s with
  | case1 s hend =>
    obtain ⟨rfl, hfinish⟩ := h.eq_scanned hend
    rw [Line.openAtEnd, Line.next, hfinish]
    rfl
  | case2 s c hc hquote t hs ih =>
    have hleaves := h.string hc hquote
    rw [hs] at hleaves
    exact ih hleaves
  | case3 s c hc hquote t hs =>
    have hleaves := h.string hc hquote
    rw [hs] at hleaves
    exact hleaves.result (by decide)
  | case4 s hc hquote => exact (h.remark hc (.inl rfl)).result (by decide)
  | case5 s c hc hquote hsemi hsign => exact (h.remark hc (.inr hsign)).result (by decide)
  | case6 s c hc hquote hsemi hline hsign t hs ih =>
    obtain ⟨rfl, hnext⟩ := hsign
    have hleaves := h.comment hc hnext
    rw [hs] at hleaves
    exact ih hleaves
  | case7 s c hc hquote hsemi hline hsign t hs =>
    obtain ⟨rfl, hnext⟩ := hsign
    have hleaves := h.comment hc hnext
    rw [hs] at hleaves
    exact hleaves.result_block
  | case8 s c hc hquote hsemi hline hsign ih =>
    rw [advance_of_some hc] at ih ⊢
    refine ih (h.pass hc ?_)
    simp only [Mode.step, if_neg hquote, if_neg hsemi, if_neg hline, if_neg hsign]

end Scanner

namespace Line

/-- Reading with loops passes the whole line, gives each character the kind that it has, and knows what is
left open. -/
theorem scan_eq (l : Line) : l.scan = (l.scanned, l.openAtEnd, l.next) := by
  have hreads : Scanner.Reads l l.start.mode ⟨l.chars, 0, []⟩ :=
    ⟨rfl, Nat.zero_le _, Mode.reading_zero _ _, rfl⟩
  cases hstart : l.start with
  | code =>
    rw [hstart] at hreads
    rw [scan, hstart]
    exact hreads.code
  | block =>
    rw [hstart] at hreads
    have hleaves : Scanner.Leaves l .blockComment (Scanner.block ⟨l.chars, 0, []⟩) :=
      Scanner.InBlock.block (.inl hreads)
    simp only [scan, hstart]
    split
    next t hs =>
      rw [hs] at hleaves
      exact Scanner.Reads.code hleaves
    next t hs =>
      rw [hs] at hleaves
      exact hleaves.result_block

end Line

end BffLayout
