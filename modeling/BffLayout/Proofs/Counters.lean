import BffLayout.Proofs.Cursor
import BffLayout.Proofs.Unclosed

/-!
Searches with counters. Code is read backwards by a walker that counts what is left of its line and of
the lines above, brackets are answered by a depth that goes up and down, and the start of a name is moved
back from its end. Here every counter that is lowered and every index is checked, and a run that would
lower a zero or read beyond an end stops with a fault. No run does: the walker stops at the top of the
buffer with all of the code read, the depth is never below one where an opener can lower it, and the
start of a name stays on its line.
-/
namespace BffLayout

/-- A code character of a line, if that is what stands in the column. -/
def Line.codeAt (l : Line) (index column : Nat) : Option CodeChar :=
  (l.cells[column]?.filter fun cell => cell.kind == .code).map fun cell =>
    ⟨⟨Row.of index l, column⟩, cell.char⟩

/-- Walks back through a buffer: the line it is on, if it has not passed the top, and the number of
characters still to be visited there. -/
structure Walker where
  line : Nat
  current : Option Line
  remaining : Nat
  deriving DecidableEq, Repr

namespace Walker

/-- The walker right before a position. -/
def before (b : Buffer) (p : Position) : Walker :=
  ⟨p.line, b.lines[p.line]?, b.lines[p.line]?.elim 0 fun l => min p.column l.length⟩

/-- The walker at the end of a line. -/
def atEnd (b : Buffer) (line : Nat) : Walker := ⟨line, b.lines[line]?, b.lines[line]?.elim 0 Line.length⟩

/-- One step: over a character, which may be code, or up to the line above, or past the top. -/
def step (b : Buffer) (w : Walker) : Run (Option (Option CodeChar × Walker)) :=
  match w.current with
  | none => .ok none
  | some l =>
    if 0 < w.remaining then
      (down w.remaining).map fun n => some (l.codeAt w.line n, { w with remaining := n })
    else if w.line = 0 then .ok (some (none, { w with current := none }))
    else (down w.line).map fun i => some (none, atEnd b i)

variable (b : Buffer)

theorem step_char (line : Nat) (l : Line) (n : Nat) :
    step b ⟨line, some l, n + 1⟩ = .ok (some (l.codeAt line n, ⟨line, some l, n⟩)) := rfl

theorem step_up (line : Nat) (l : Line) :
    step b ⟨line + 1, some l, 0⟩ = .ok (some (none, atEnd b line)) := rfl

theorem step_top (l : Line) : step b ⟨0, some l, 0⟩ = .ok (some (none, ⟨0, none, 0⟩)) := rfl

/-- Every step leaves less to be visited. -/
theorem lex_of_step {w next : Walker} {found : Option CodeChar} (h : w.step b = .ok (some (found, next))) :
    Prod.Lex (· < ·) (Prod.Lex (· < ·) (· < ·))
      (next.current.isSome.toNat, next.line, next.remaining)
      (w.current.isSome.toNat, w.line, w.remaining) := by
  obtain ⟨line, current, remaining⟩ := w
  cases current with
  | none => cases h
  | some l =>
    cases remaining with
    | succ n =>
      cases h
      exact .right _ (.right _ (Nat.lt_succ_self n))
    | zero =>
      cases line with
      | zero =>
        cases h
        exact .left _ _ Nat.zero_lt_one
      | succ i =>
        cases h
        cases hl : b.lines[i]? with
        | none => exact .left _ _ (by simp [atEnd, hl])
        | some m =>
          simp only [atEnd, hl]
          exact .right _ (.left _ _ (Nat.lt_succ_self i))

/-- All code that the walker comes to, in the order in which it does. -/
def walk (w : Walker) : Run (List CodeChar) :=
  match _h : w.step b with
  | .error e => .error e
  | .ok none => .ok []
  | .ok (some (found, next)) => (walk next).map (found.toList ++ ·)
termination_by (w.current.isSome.toNat, w.line, w.remaining)
decreasing_by exact lex_of_step b _h

theorem walk_of_step {w next : Walker} {found : Option CodeChar} (h : w.step b = .ok (some (found, next))) :
    walk b w = (walk b next).map (found.toList ++ ·) := by
  rw [walk]
  split <;> simp_all

theorem walk_past (line n : Nat) : walk b ⟨line, none, n⟩ = .ok [] := by
  rw [walk]
  split <;> simp_all [step]

end Walker

namespace Line

theorem filter_code (l : Line) (index n : Nat) :
    ((Row.of index l).code.filter fun c => c.column < n) =
      (l.codeChars.filter fun x => x.1 < n).map fun x => ⟨⟨Row.of index l, x.1⟩, x.2⟩ := by
  rw [Row.code, List.filter_map]
  rfl

/-- One character more is at most one code character more. -/
theorem filter_code_succ (l : Line) (index n : Nat) :
    ((Row.of index l).code.filter fun c => c.column < n + 1) =
      ((Row.of index l).code.filter fun c => c.column < n) ++ (l.codeAt index n).toList := by
  rw [filter_code, filter_code, filter_codeChars_lt, filter_codeChars_lt, List.take_add_one, codeAt]
  cases hcell : l.cells[n]? with
  | none => simp
  | some cell =>
    have hlength : (l.cells.take n).length = n :=
      List.length_take_of_le (Nat.le_of_lt (List.getElem?_eq_some_iff.mp hcell).1)
    rw [Option.toList_some, List.zipIdx_append, hlength, List.filterMap_append, List.map_append]
    by_cases hkind : cell.kind = .code
    · simp [hkind, Option.filter]
    · simp [hkind, Option.filter]

theorem filter_code_length (l : Line) (index : Nat) :
    ((Row.of index l).code.filter fun c => c.column < l.length) = (Row.of index l).code := by
  rw [List.filter_eq_self]
  intro c hc
  obtain ⟨x, hx, rfl⟩ := List.mem_map.mp hc
  have hlt := (List.getElem?_eq_some_iff.mp (getElem?_of_mem_codeChars hx)).1
  rw [length_cells] at hlt
  exact decide_eq_true hlt

/-- Columns behind the end of the line hold no code. -/
theorem filter_code_min (l : Line) (index n : Nat) :
    ((Row.of index l).code.filter fun c => c.column < min n l.length) =
      (Row.of index l).code.filter fun c => c.column < n := by
  conv_rhs => rw [← filter_code_length l index]
  rw [List.filter_filter]
  congr
  funext c
  simp only [Nat.lt_min, Bool.decide_and]

end Line

namespace Walker

variable (b : Buffer)

/-- Over the rest of a line. -/
theorem walk_chars {line : Nat} {l : Line} {code : List CodeChar}
    (h : walk b ⟨line, some l, 0⟩ = .ok code) (n : Nat) :
    walk b ⟨line, some l, n⟩ =
      .ok (((Row.of line l).code.filter fun c => c.column < n).reverse ++ code) := by
  induction n with
  | zero => simpa using h
  | succ n ih =>
    rw [walk_of_step b (step_char b line l n), ih, Line.filter_code_succ, List.reverse_append,
      List.append_assoc]
    cases l.codeAt line n <;> rfl

/-- At the start of a line all code above is left. -/
theorem walk_start {line : Nat} {l : Line} (hl : b.lines[line]? = some l) :
    walk b ⟨line, some l, 0⟩ = .ok (codeBack (b.above line)) := by
  induction line generalizing l with
  | zero =>
    rw [walk_of_step b (step_top b l), walk_past]
    rfl
  | succ i ih =>
    obtain ⟨m, hm⟩ : ∃ m, b.lines[i]? = some m :=
      ⟨_, List.getElem?_eq_getElem (Nat.lt_of_succ_lt (List.getElem?_eq_some_iff.mp hl).1)⟩
    have hline := walk_chars b (ih hm) m.length
    rw [Line.filter_code_length] at hline
    rw [walk_of_step b (step_up b i l), atEnd, hm, Option.elim_some, hline, Buffer.above_succ hm]
    rfl

/-- The walker reads all code before a position. -/
theorem walk_before (p : Position) : walk b (before b p) = .ok (b.codeBefore p) := by
  obtain ⟨line, column⟩ := p
  rw [before, Buffer.codeBefore]
  cases hl : b.lines[line]? with
  | none => rw [Buffer.focus?_eq_none hl, walk_past]
  | some l =>
    rw [Option.elim_some, walk_chars b (walk_start b hl), Line.filter_code_min, Buffer.focus?_eq_some hl]
    rfl

end Walker

/-- Searches code read backwards, with the depth checked wherever it is lowered. -/
def Bracket.seek {α : Type} (k : Bracket) (ask : CodeChar → Run (Option α)) (code : List CodeChar) :
    Run (Option α) := k.scanM (fun depth next => down depth >>= next) ask 1 code

/-- The depth is one at least wherever an opener lowers it. -/
theorem Bracket.seek_eq {α : Type} (k : Bracket) (ask : CodeChar → Run (Option α)) (code : List CodeChar) :
    k.seek ask code = ((k.openers 0 code).map Prod.fst).findSomeM? ask :=
  scanM_eq (fun _ _ => rfl) k ask 0 code

section LookBack

variable {α : Type}

/-- What stands before index `i`, with its own index; at the start there is nothing. -/
def lookBack (xs : List α) (i : Nat) : Run (Option (Nat × α)) :=
  if 0 < i then do
    let j ← down i
    match xs[j]? with
    | some x => pure (some (j, x))
    | none => .error .outOfBounds
  else pure none

theorem lookBack_zero (xs : List α) : lookBack xs 0 = .ok none := rfl

theorem lookBack_succ {xs : List α} {n : Nat} {x : α} (h : xs[n]? = some x) :
    lookBack xs (n + 1) = .ok (some (n, x)) := by
  simp only [lookBack, Nat.zero_lt_succ, if_true, down, bind, Except.bind, h]
  rfl

theorem lt_of_lookBack {xs : List α} {i j : Nat} {x : α} (h : lookBack xs i = .ok (some (j, x))) :
    j < i := by
  cases i with
  | zero => cases h
  | succ n =>
    cases hx : xs[n]? with
    | none => simp [lookBack, down, bind, Except.bind, hx] at h
    | some y =>
      rw [lookBack_succ hx] at h
      cases h
      exact Nat.lt_succ_self j

theorem reverse_take_succ {xs : List α} {n : Nat} {x : α} (h : xs[n]? = some x) :
    (xs.take (n + 1)).reverse = x :: (xs.take n).reverse := by
  rw [List.take_add_one, h, Option.toList_some, List.reverse_append]
  rfl

end LookBack

/-- Moves the start of a name back, from its end, for as long as a name character stands before it. -/
def nameStart (cs : List Char) (start : Nat) : Run Nat :=
  match _h : lookBack cs start with
  | .error e => .error e
  | .ok none => .ok start
  | .ok (some (i, c)) => if isNameChar c then nameStart cs i else .ok start
termination_by start
decreasing_by exact lt_of_lookBack _h

theorem nameStart_of_lookBack {cs : List Char} {start i : Nat} {c : Char}
    (h : lookBack cs start = .ok (some (i, c))) :
    nameStart cs start = if isNameChar c then nameStart cs i else .ok start := by
  rw [nameStart]
  split <;> simp_all

theorem nameStart_eq {cs : List Char} {start : Nat} (h : start ≤ cs.length) :
    nameStart cs start = .ok ((cs.take start).reverse.dropWhile isNameChar).length := by
  induction start with
  | zero =>
    rw [nameStart]
    simp only [lookBack_zero]
    rfl
  | succ n ih =>
    obtain ⟨c, hc⟩ : ∃ c, cs[n]? = some c := ⟨_, List.getElem?_eq_getElem h⟩
    rw [nameStart_of_lookBack (lookBack_succ hc), reverse_take_succ hc, List.dropWhile_cons]
    split
    · exact ih (Nat.le_of_lt h)
    · rw [List.length_cons, List.length_reverse, List.length_take_of_le (Nat.le_of_lt h)]

/-- The characters from one index up to another. -/
def slice (cs : List Char) (start stop : Nat) : Run (List Char) :=
  if start ≤ stop ∧ stop ≤ cs.length then .ok ((cs.take stop).drop start) else .error .outOfBounds

/-- Whether a caret stands before a cell. -/
def escapedAt (cells : List Cell) (i : Nat) : Run Bool :=
  (lookBack cells i).map fun x => x.any fun x => x.2.char == '^'

theorem escapedAt_eq {cells : List Cell} {i : Nat} (h : i ≤ cells.length) :
    escapedAt cells i = .ok (afterCaret (cells.take i).reverse) := by
  cases i with
  | zero => rfl
  | succ n =>
    obtain ⟨cell, hcell⟩ : ∃ cell, cells[n]? = some cell := ⟨_, List.getElem?_eq_getElem h⟩
    rw [escapedAt, lookBack_succ hcell, reverse_take_succ hcell]
    rfl

/-- Counts back over the cells of kind `k` before index `i` the dollar signs that are not escaped. -/
def dollarsBefore (k : Kind) (cells : List Cell) (i : Nat) : Run Nat :=
  match _h : lookBack cells i with
  | .error e => .error e
  | .ok none => .ok 0
  | .ok (some (j, cell)) =>
    if cell.kind = k then do
      let escaped ← escapedAt cells j
      let n ← dollarsBefore k cells j
      pure ((if cell.char = '$' ∧ escaped = false then 1 else 0) + n)
    else .ok 0
termination_by i
decreasing_by exact lt_of_lookBack _h

theorem dollarsBefore_of_lookBack {k : Kind} {cells : List Cell} {i j : Nat} {cell : Cell}
    (h : lookBack cells i = .ok (some (j, cell))) :
    dollarsBefore k cells i =
      if cell.kind = k then do
        let escaped ← escapedAt cells j
        let n ← dollarsBefore k cells j
        pure ((if cell.char = '$' ∧ escaped = false then 1 else 0) + n)
      else .ok 0 := by
  rw [dollarsBefore]
  split <;> simp_all

theorem dollarsBefore_eq {k : Kind} {cells : List Cell} {i : Nat} (h : i ≤ cells.length) :
    dollarsBefore k cells i = .ok (dollarsBack k (cells.take i).reverse) := by
  induction i with
  | zero =>
    rw [dollarsBefore]
    simp only [lookBack_zero]
    rfl
  | succ n ih =>
    obtain ⟨cell, hcell⟩ : ∃ cell, cells[n]? = some cell := ⟨_, List.getElem?_eq_getElem h⟩
    rw [dollarsBefore_of_lookBack (lookBack_succ hcell), escapedAt_eq (Nat.le_of_lt h),
      ih (Nat.le_of_lt h), reverse_take_succ hcell, dollarsBack]
    split <;> rfl

/-- Whether the dollar sign at an index opens a reference. -/
def opensAt (cells : List Cell) (dollar : Nat) : Run Bool :=
  match cells[dollar]? with
  | none => pure false
  | some cell => do
    if ← escapedAt cells dollar then pure false
    else
      let n ← dollarsBefore cell.kind cells dollar
      pure (n % 2 == 0)

theorem opensAt_eq {cells : List Cell} {dollar : Nat} {cell : Cell} (h : cells[dollar]? = some cell) :
    opensAt cells dollar = .ok (opensReference (cell :: (cells.take dollar).reverse)) := by
  have hle := Nat.le_of_lt (List.getElem?_eq_some_iff.mp h).1
  simp only [opensAt, h, escapedAt_eq hle, dollarsBefore_eq hle, opensReference]
  cases afterCaret (cells.take dollar).reverse <;> rfl

end BffLayout
