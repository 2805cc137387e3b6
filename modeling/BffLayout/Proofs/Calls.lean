import BffLayout.Proofs.Counters

/-!
Reading backwards call by call. Between two calls the walker keeps its line and what is left of it, and a
call takes as many steps as there are characters to pass over: strings, comments, and the breaks between
lines. Each call finds the next code character, so the calls together give all code before the walker,
line by line from the bottom, and when that is used up every further call finds nothing.
-/
namespace BffLayout

def CodeChar.placed (c : CodeChar) : Position × Char := (c.position, c.char)

namespace Walker

variable (b : Buffer)

/-- One call: steps until a code character is found or nothing is left. -/
def next (w : Walker) : Run (Option CodeChar × Walker) :=
  match _h : w.step b with
  | .error e => .error e
  | .ok none => .ok (none, w)
  | .ok (some (some c, after)) => .ok (some c, after)
  | .ok (some (none, after)) => next after
termination_by (w.current.isSome.toNat, w.line, w.remaining)
decreasing_by exact lex_of_step b _h

/-- What call number `k` finds, when calls are made one after another. -/
def call : Nat → Walker → Run (Option CodeChar)
  | 0, w => (next b w).map Prod.fst
  | k + 1, w => do
    let found ← next b w
    call k found.2

theorem exists_walk_of_step {w after : Walker} {found : Option CodeChar} {code : List CodeChar}
    (hstep : w.step b = .ok (some (found, after))) (h : walk b w = .ok code) :
    ∃ rest, walk b after = .ok rest ∧ code = found.toList ++ rest := by
  rw [walk_of_step b hstep] at h
  cases hafter : walk b after with
  | error e =>
    rw [hafter] at h
    cases h
  | ok rest =>
    rw [hafter] at h
    cases h
    exact ⟨rest, rfl, rfl⟩

/-- A call finds the first code character that is left, and leaves the others. -/
theorem exists_next {w : Walker} {code : List CodeChar} (h : walk b w = .ok code) :
    ∃ after, next b w = .ok (code.head?, after) ∧ walk b after = .ok code.tail := by
  fun_induction next b w with
  | case1 w e hstep =>
    rw [walk] at h
    split at h <;> simp_all
  | case2 w hstep =>
    have hwalk : walk b w = .ok [] := by
      rw [walk]
      split <;> simp_all
    cases hwalk.symm.trans h
    exact ⟨w, rfl, hwalk⟩
  | case3 w c after hstep =>
    obtain ⟨rest, hrest, rfl⟩ := exists_walk_of_step b hstep h
    exact ⟨after, rfl, hrest⟩
  | case4 w after hstep ih =>
    obtain ⟨rest, hrest, rfl⟩ := exists_walk_of_step b hstep h
    exact ih hrest

/-- The calls give what is left, one after another, and then nothing. -/
theorem call_eq {w : Walker} {code : List CodeChar} (h : walk b w = .ok code) (k : Nat) :
    call b k w = .ok code[k]? := by
  obtain ⟨after, hnext, hafter⟩ := exists_next b h
  induction k generalizing w code after with
  | zero =>
    rw [call, hnext, ← List.head?_eq_getElem?]
    rfl
  | succ k ih =>
    obtain ⟨later, hlater, hrest⟩ := exists_next b hafter
    rw [call, hnext, ← List.getElem?_tail]
    exact ih hafter later hlater hrest

end Walker

namespace Buffer

variable (b : Buffer)

def codeAt? (p : Position) : Option (Position × Char) :=
  (b.cell? p).bind fun cell => if cell.kind = .code then some (p, cell.char) else none

/-- How many columns of a line lie before a position. -/
def columnsBefore (p : Position) (line : Nat) : Nat :=
  let length := b.lines[line]?.elim 0 Line.length
  if line = p.line then min p.column length else length

/-- The code in the first `n` columns of a line. -/
def codeInLine (line n : Nat) : List (Position × Char) :=
  (List.range n).filterMap fun column => b.codeAt? ⟨line, column⟩

/-- All code before a position, from the first line on, and on each line from its first column on. -/
def codeUpTo (p : Position) : List (Position × Char) :=
  (List.range (p.line + 1)).flatMap fun line => b.codeInLine line (b.columnsBefore p line)

variable {b}

theorem placed_codeAt {line : Nat} {l : Line} (hl : b.lines[line]? = some l) (column : Nat) :
    (l.codeAt line column).map CodeChar.placed = b.codeAt? ⟨line, column⟩ := by
  rw [Line.codeAt, codeAt?, cell?, hl, Option.bind_some]
  cases l.cells[column]? with
  | none => rfl
  | some cell =>
    rw [Option.filter_some, Option.bind_some]
    by_cases hkind : cell.kind = .code
    · rw [if_pos hkind, if_pos (beq_iff_eq.mpr hkind)]
      rfl
    · rw [if_neg hkind, if_neg (by simpa using hkind)]
      rfl

theorem codeInLine_succ (b : Buffer) (line n : Nat) :
    b.codeInLine line (n + 1) = b.codeInLine line n ++ (b.codeAt? ⟨line, n⟩).toList := by
  rw [codeInLine, List.range_succ, List.filterMap_append, codeInLine, List.filterMap_cons]
  cases b.codeAt? ⟨line, n⟩ <;> rfl

theorem placed_filter_code {line : Nat} {l : Line} (hl : b.lines[line]? = some l) (n : Nat) :
    ((Row.of line l).code.filter fun c => c.column < n).map CodeChar.placed = b.codeInLine line n := by
  induction n with
  | zero => simp [codeInLine]
  | succ n ih =>
    rw [Line.filter_code_succ, List.map_append, ih, ← Option.toList_map, placed_codeAt hl, codeInLine_succ]

theorem placed_codeBack {line : Nat} (h : line ≤ b.count) :
    (codeBack (b.above line)).map CodeChar.placed =
      ((List.range line).flatMap fun i => b.codeInLine i (b.lines[i]?.elim 0 Line.length)).reverse := by
  induction line with
  | zero => rfl
  | succ i ih =>
    obtain ⟨l, hl⟩ : ∃ l, b.lines[i]? = some l := ⟨_, List.getElem?_eq_getElem h⟩
    have hback : codeBack (b.above (i + 1)) = (Row.of i l).code.reverse ++ codeBack (b.above i) := by
      rw [above_succ hl]
      rfl
    rw [hback, List.map_append, ih (Nat.le_of_succ_le h), List.map_reverse, ← Line.filter_code_length,
      placed_filter_code hl, List.range_succ, List.flatMap_append, List.reverse_append,
      List.flatMap_singleton, hl, Option.elim_some]

/-- Reading backwards gives the code before a position in reverse. -/
theorem placed_codeBefore {p : Position} (h : p.line < b.count) :
    (b.codeBefore p).map CodeChar.placed = (b.codeUpTo p).reverse := by
  obtain ⟨l, hl⟩ : ∃ l, b.lines[p.line]? = some l := ⟨_, List.getElem?_eq_getElem h⟩
  have habove : ((List.range p.line).flatMap fun line => b.codeInLine line (b.columnsBefore p line)) =
      (List.range p.line).flatMap fun line => b.codeInLine line (b.lines[line]?.elim 0 Line.length) := by
    apply List.flatMap_congr
    intro line hline
    rw [columnsBefore, if_neg (Nat.ne_of_lt (List.mem_range.mp hline))]
  have hrow : b.columnsBefore p p.line = min p.column l.length := by
    rw [columnsBefore, if_pos rfl, hl, Option.elim_some]
  have hcode : b.codeBefore p =
      ((Row.of p.line l).code.filter fun c => c.column < p.column).reverse ++ codeBack (b.above p.line) := by
    rw [codeBefore, focus?_eq_some hl]
    rfl
  rw [hcode, List.map_append, List.map_reverse, ← Line.filter_code_min, placed_filter_code hl,
    placed_codeBack (Nat.le_of_lt h), codeUpTo, List.range_succ, List.flatMap_append,
    List.flatMap_singleton, List.reverse_append, hrow, habove]

/-- Call after call, reading backwards from a position gives the code before it in reverse, line by line
and column by column, and nothing if its line is missing. Once the code is used up, every call finds
nothing. -/
theorem call_before (b : Buffer) (p : Position) :
    (∀ k, Walker.call b k (.before b p) = .ok (b.codeBefore p)[k]?) ∧
    (b.codeBefore p).map CodeChar.placed = if p.line < b.count then (b.codeUpTo p).reverse else [] := by
  refine ⟨Walker.call_eq b (Walker.walk_before b p), ?_⟩
  split
  · next h => exact placed_codeBefore h
  · next h => rw [codeBefore_missing h, List.map_nil]

end Buffer

end BffLayout
