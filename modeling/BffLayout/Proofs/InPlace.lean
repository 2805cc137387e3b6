import BffLayout.Proofs.Placing

/-!
Placing in place. Re-indentation can be done by a loop over line numbers that sets the indentation
of one line after another, each to the indent that the buffer gives it at that moment, and counts
the lines whose text changes. The loop never fails. It ends with the placed buffer, and its count is
the number of lines in which that differs from the buffer it started with.
-/
namespace BffLayout

namespace Buffer

/-- The text of a line. -/
def text? (b : Buffer) (index : Nat) : Option (List Char) := b.lines[index]?.map Line.chars

section OnPlatform

variable {m : Type → Type} [Monad m] (p : Platform m) (indent : Buffer → Nat → m Nat)

/-- Replaces the indentation of one line, if it exists. -/
def setIndentationM (b : Buffer) (index n : Nat) : m Buffer :=
  match b.lines[index]? with
  | some l => do
    let placed ← l.setIndentationM p n
    pure ⟨b.lines.set index placed⟩
  | none => pure b

/-- Places one line, and counts it if its text changes. -/
def placeLineM (state : Buffer × Nat) (index : Nat) : m (Buffer × Nat) :=
  match state.1.startState index with
  | .block => pure state
  | .code => do
    let n ← if state.1.isBlank index then pure 0 else indent state.1 index
    let placed ← state.1.setIndentationM p index n
    pure (placed, if placed.text? index = state.1.text? index then state.2 else state.2 + 1)

def placeLinesM (b : Buffer) : m (Buffer × Nat) :=
  (List.range b.count).foldlM (placeLineM p indent) (b, 0)

end OnPlatform

/-- Places the lines one after another, and counts those that change. -/
def placeLines (cfg : Config) (b : Buffer) : Except Error (Buffer × Nat) :=
  b.placeLinesM .plain fun b index => b.indent cfg index

section Middle

variable (done : List Line) (l : Line) (rest : List Line)

theorem getElem?_middle : (done ++ l :: rest)[done.length]? = some l := by
  rw [List.getElem?_append_right (Nat.le_refl _), Nat.sub_self]
  rfl

theorem text?_middle : (Buffer.mk (done ++ l :: rest)).text? done.length = some l.chars := by
  rw [text?, getElem?_middle]
  rfl

theorem set_middle (placed : Line) :
    (done ++ l :: rest).set done.length placed = done ++ placed :: rest := by
  rw [List.set_append_right _ _ (Nat.le_refl _), Nat.sub_self]
  rfl

/-- The line after those that are done, in focus. -/
theorem focus?_middle : (Buffer.mk (done ++ l :: rest)).focus? done.length =
    some ⟨(rowsFrom 0 done).reverse, Row.of done.length l⟩ := by
  have habove : (Buffer.mk (done ++ l :: rest)).above done.length = (rowsFrom 0 done).reverse := by
    rw [above, rows_eq, rowsFrom_append, List.take_left' (length_rowsFrom 0 done)]
  rw [focus?_eq_some (getElem?_middle done l rest), habove]

/-- A line more is done. -/
theorem reverse_rowsFrom_concat : (rowsFrom 0 (done ++ [l])).reverse =
    Row.of done.length l :: (rowsFrom 0 done).reverse := by
  rw [rowsFrom_append, Nat.zero_add, List.reverse_append]
  rfl

end Middle

theorem changes_cons (l m : Line) (ls ms : List Line) :
    changes ⟨l :: ls⟩ ⟨m :: ms⟩ = (if l.chars != m.chars then 1 else 0) + changes ⟨ls⟩ ⟨ms⟩ := by
  rw [changes, List.zip_cons_cons, List.countP_cons, Nat.add_comm]
  rfl

section Loop

variable {m : Type → Type} [Monad m] [LawfulMonad m] (p : Platform m) {indent : Buffer → Nat → m Nat}
  {rule : Focus → m Nat} (hrule : ∀ {b : Buffer} {i : Nat} {f : Focus}, b.focus? i = some f → indent b i = rule f)

include hrule

/-- One round of the loop places the line below those that are done. -/
theorem placeLineM_middle (done : List Line) (l : Line) (rest : List Line) (n : Nat) :
    placeLineM p indent (⟨done ++ l :: rest⟩, n) done.length = (do
      let placed ← Focus.placedM p rule ⟨(rowsFrom 0 done).reverse, Row.of done.length l⟩
      pure (⟨done ++ placed :: rest⟩, n + if l.chars != placed.chars then 1 else 0)) := by
  have hstart : (Buffer.mk (done ++ l :: rest)).startState done.length = l.start := by
    rw [startState, getElem?_middle]
  have hblank : (Buffer.mk (done ++ l :: rest)).isBlank done.length = l.isBlank := by
    rw [isBlank, getElem?_middle]
  have hset : ∀ n, setIndentationM p ⟨done ++ l :: rest⟩ done.length n = (do
      let placed ← l.setIndentationM p n
      pure ⟨done ++ placed :: rest⟩) := by
    intro n
    simp only [setIndentationM, getElem?_middle, set_middle]
  have hrow : (Row.of done.length l).toLine = l := rfl
  have hcount : ∀ placed : Line, (if some placed.chars = some l.chars then n else n + 1) =
      n + if l.chars != placed.chars then 1 else 0 := by
    intro placed
    by_cases hchars : l.chars = placed.chars
    · simp [hchars]
    · simp [hchars, Ne.symm hchars]
  cases hs : l.start with
  | block => simp [placeLineM, Focus.placedM, hstart, hs, hrow]
  | code =>
    simp only [placeLineM, Focus.placedM, hstart, hs, hblank, hset, hrow,
      hrule (focus?_middle done l rest), text?_middle]
    split <;> simp only [bind_assoc, pure_bind, text?_middle, hcount]

/-- With the lines `done` behind it, the loop places those that are left. -/
theorem foldlM_placeLineM (done rest : List Line) (n : Nat) :
    (List.range' done.length rest.length).foldlM (placeLineM p indent) (⟨done ++ rest⟩, n) = (do
      let rows ← reindentBelowM p rule (rowsFrom 0 done).reverse (rowsFrom done.length rest)
      pure (⟨done ++ rows.map Row.toLine⟩, n + changes ⟨rest⟩ ⟨rows.map Row.toLine⟩)) := by
  induction rest generalizing done n with
  | nil => simp [reindentBelowM, changes]
  | cons l rest ih =>
    rw [List.length_cons, List.range'_succ, List.foldlM_cons, placeLineM_middle p hrule, rowsFrom_cons,
      reindentBelowM]
    simp only [bind_assoc, pure_bind]
    refine bind_congr fun placed => ?_
    have hloop := ih (done ++ [placed]) (n + if l.chars != placed.chars then 1 else 0)
    rw [List.length_append, List.append_assoc, reverse_rowsFrom_concat] at hloop
    refine hloop.trans (bind_congr fun rows => congrArg pure ?_)
    rw [List.map_cons, changes_cons, ← Nat.add_assoc, List.append_assoc]
    rfl

/-- The loop is the pass over the rows, whatever the platform. -/
theorem placeLinesM_eq (b : Buffer) : b.placeLinesM p indent = (do
    let rows ← reindentBelowM p rule [] b.rows
    pure (⟨rows.map Row.toLine⟩, b.changes ⟨rows.map Row.toLine⟩)) := by
  have hloop := foldlM_placeLineM p hrule [] b.lines 0
  simp only [Nat.zero_add] at hloop
  rw [placeLinesM, List.range_eq_range', rows_eq]
  exact hloop

end Loop

end Buffer

section Plain

variable {m : Type → Type} [Monad m] [LawfulMonad m] (cfg : Config)

theorem withIndentM_plain (n : Nat) (cs : List Char) :
    withIndentM (m := m) .plain n cs = pure (withIndent n cs) := by
  rw [withIndentM, withIndent_eq]
  split
  · rfl
  · exact pure_bind _ _

theorem Focus.placedM_plain (f : Focus) :
    f.placedM (m := m) .plain (fun f => pure (f.indent cfg)) = pure (f.reindented cfg).toLine := by
  rw [placedM, reindented_eq]
  split
  · rfl
  · have hset : ∀ n, f.row.setIndentationM (m := m) .plain n = pure (f.row.setIndentation n) := by
      intro n
      rw [Line.setIndentationM, withIndentM_plain, pure_bind]
      rfl
    simp only [hset]
    split <;> exact pure_bind _ _

theorem reindentBelowM_plain (above rows : List Row) :
    reindentBelowM (m := m) .plain (fun f => pure (f.indent cfg)) above rows =
      pure (reindentBelow cfg above rows) := by
  induction rows generalizing above with
  | nil => rfl
  | cons r rest ih =>
    have hrow : Row.of r.index (Focus.reindented cfg ⟨above, r⟩).toLine = Focus.reindented cfg ⟨above, r⟩ := rfl
    rw [reindentBelowM, Focus.placedM_plain, pure_bind, hrow, ih, pure_bind, reindentBelow_cons]

end Plain

namespace Buffer

/-- The loop comes to the placed buffer, whatever the buffer, and counts what has changed. -/
theorem placeLines_eq (cfg : Config) (b : Buffer) :
    b.placeLines cfg = .ok (b.reindent cfg, b.changes (b.reindent cfg)) := by
  have hindent : ∀ {b : Buffer} {i : Nat} {f : Focus}, b.focus? i = some f →
      b.indent cfg i = pure (f.indent cfg) := by
    intro b i f hf
    rw [indent, focus, hf]
    rfl
  rw [placeLines, placeLinesM_eq .plain hindent, reindentBelowM_plain]
  rfl

/-- The lines `rest` below the lines `done`, as the pass places them. -/
def placedBelow (cfg : Config) (done rest : List Line) : List Line :=
  (reindentBelow cfg (rowsFrom 0 done).reverse (rowsFrom done.length rest)).map Row.toLine

/-- The first of them is placed, and then belongs to the lines that are done. -/
theorem placedBelow_cons (cfg : Config) (done : List Line) (l : Line) (rest : List Line) {placed : Row}
    (hplaced : Focus.reindented cfg ⟨(rowsFrom 0 done).reverse, Row.of done.length l⟩ = placed) :
    placedBelow cfg done (l :: rest) =
      placed.toLine :: placedBelow cfg (done ++ [placed.toLine]) rest := by
  have hrow : Row.of done.length placed.toLine = placed := by
    rw [← hplaced]
    rfl
  rw [placedBelow, placedBelow, rowsFrom_cons, reindentBelow_cons, hplaced, reverse_rowsFrom_concat, hrow,
    List.length_append]
  rfl

/-- What has changed, counted by line numbers. -/
theorem changes_eq_countP {b c : Buffer} (h : b.count = c.count) :
    b.changes c = (List.range b.count).countP fun i => b.text? i != c.text? i := by
  obtain ⟨ls⟩ := b
  obtain ⟨ms⟩ := c
  induction ls generalizing ms with
  | nil => rfl
  | cons l ls ih =>
    cases ms with
    | nil => cases h
    | cons m ms =>
      have hrest := ih ms (Nat.succ.inj h)
      have hrange : List.range (count ⟨l :: ls⟩) = 0 :: (List.range (count ⟨ls⟩)).map Nat.succ :=
        List.range_succ_eq_map
      rw [changes_cons, hrest, hrange, List.countP_cons, List.countP_map, Nat.add_comm]
      rfl

end Buffer

end BffLayout
