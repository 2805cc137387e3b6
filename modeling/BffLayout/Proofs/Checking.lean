import BffLayout.Proofs.Preservation

/-!
Checking. A buffer is checked against a placed copy of itself, in which the lines above a mismatch
may already stand elsewhere. Down to the first mismatch, though, the copy looks like the buffer, so
the check begins at the very line where asking the buffer itself, line by line, would first find a
difference.
-/
namespace BffLayout

/-- A list can be gone through by number. -/
theorem filterMap_eq_range {α β : Type} (f : α → Option β) (xs : List α) :
    xs.filterMap f = (List.range xs.length).filterMap fun i => xs[i]?.bind f := by
  have hall : (List.range xs.length).map (fun i => xs[i]?) = xs.map some := by
    apply List.ext_getElem?
    intro i
    by_cases hi : i < xs.length <;> simp [hi]
  have hsome : (xs.map some).filterMap (fun x => x.bind f) = xs.filterMap f := by
    rw [List.filterMap_map]
    rfl
  rw [← hsome, ← hall, List.filterMap_map]
  rfl

namespace Buffer

section OnPlatform

variable {m : Type → Type} [Monad m] (p : Platform m)

/-- The indentation of a line; a missing line has none. -/
def indentationM (b : Buffer) (index tab : Nat) : m Nat :=
  match b.lines[index]? with
  | some l => l.indentationM p tab
  | none => pure 0

/-- What there is to say about one line, given a placed copy. -/
def mismatchM (tab : Nat) (b placed : Buffer) (index : Nat) : m (Option Mismatch) := do
  let actual ← b.indentationM p index tab
  let expected ← placed.indentationM p index tab
  pure (if actual = expected then none else some ⟨index, expected, actual⟩)

/-- Places a copy, then compares the lines with content by number. -/
def checkLinesM (tab : Nat) (indent : Buffer → Nat → m Nat) (b : Buffer) : m (List Mismatch) := do
  let placed ← b.placeLinesM p indent
  let found ← ((List.range b.count).filter fun i => !b.isBlank i).mapM (b.mismatchM p tab placed.1)
  pure (found.filterMap id)

/-- The rows are compared by number. -/
theorem map_compared (tab : Nat) {b placed : Buffer} (h : placed.count = b.count) :
    (((b.rows.zip placed.lines).filter fun x => !x.1.isBlank).map fun x =>
        x.1.mismatchM p tab x.1.index x.2) =
      ((List.range b.count).filter fun i => !b.isBlank i).map (b.mismatchM p tab placed) := by
  have hlength : (b.rows.zip placed.lines).length = b.count := by
    have hrows : b.rows.length = b.count := length_rowsFrom 0 b.lines
    have hplaced : placed.lines.length = b.count := h
    rw [List.length_zip]
    omega
  rw [← List.filterMap_eq_map, ← List.filterMap_eq_map, List.filterMap_filter, List.filterMap_filter,
    filterMap_eq_range, hlength]
  apply List.filterMap_congr
  intro i hi
  obtain ⟨l, hl⟩ : ∃ l, b.lines[i]? = some l :=
    ⟨_, List.getElem?_eq_getElem (List.mem_range.mp hi)⟩
  obtain ⟨l', hl'⟩ : ∃ l', placed.lines[i]? = some l' :=
    ⟨_, List.getElem?_eq_getElem (by rw [← count, h]; exact List.mem_range.mp hi)⟩
  have hzip : (b.rows.zip placed.lines)[i]? = some (Row.of i l, l') := by
    rw [List.getElem?_zip_eq_some, getElem?_rows, hl]
    exact ⟨rfl, hl'⟩
  have hmismatch : b.mismatchM p tab placed i = l.mismatchM p tab i l' := by
    simp only [mismatchM, indentationM, hl, hl', Line.mismatchM]
  simp only [hzip, Option.bind_some, isBlank, hl, Function.comp_apply, hmismatch]
  rfl

end OnPlatform

def mismatch? (tab : Nat) (b placed : Buffer) (index : Nat) : Option Mismatch :=
  Id.run (b.mismatchM .plain tab placed index)

theorem check_eq (cfg : Config) (b : Buffer) :
    b.check cfg = ((List.range b.count).filter fun i => !b.isBlank i).filterMap
      (b.mismatch? cfg.tab (b.reindent cfg)) := by
  have hcompared := map_compared (m := Id) .plain cfg.tab (count_reindent cfg b)
  have hfound := congrArg (List.filterMap id) hcompared
  rw [List.filterMap_map, List.filterMap_map] at hfound
  rw [check_eq_filterMap]
  exact hfound

theorem mismatch?_eq (tab : Nat) (b placed : Buffer) (i : Nat) :
    b.mismatch? tab placed i = if b.indentation i tab = placed.indentation i tab then none
      else some ⟨i, placed.indentation i tab, b.indentation i tab⟩ := by
  unfold mismatch? mismatchM indentationM indentation
  cases b.lines[i]? <;> cases placed.lines[i]? <;> rfl

theorem mismatch?_eq_some_iff {tab : Nat} {b placed : Buffer} {i : Nat} {m : Mismatch} :
    b.mismatch? tab placed i = some m ↔ m.line = i ∧ m.expected = placed.indentation i tab ∧
      m.actual = b.indentation i tab ∧ m.expected ≠ m.actual := by
  obtain ⟨line, expected, actual⟩ := m
  rw [mismatch?_eq]
  split
  · next h => simp; omega
  · next h =>
    simp only [Option.some.injEq, Mismatch.mk.injEq]
    omega

section Except

variable {ε : Type} {p : Platform (Except ε)}

theorem length_of_reindentBelowM {rule : Focus → Except ε Nat} {above rows placed : List Row}
    (h : reindentBelowM p rule above rows = .ok placed) : placed.length = rows.length := by
  induction rows generalizing above placed with
  | nil =>
    cases h
    rfl
  | cons r rest ih =>
    rw [reindentBelowM] at h
    cases hl : Focus.placedM p rule ⟨above, r⟩ with
    | error e =>
      rw [hl] at h
      cases h
    | ok l =>
      rw [hl] at h
      cases hothers : reindentBelowM p rule (Row.of r.index l :: above) rest with
      | error e => simp [bind, Except.bind, hothers] at h
      | ok others =>
        simp only [bind, Except.bind, hothers, pure, Except.pure, Except.ok.injEq] at h
        rw [← h, List.length_cons, List.length_cons, ih hothers]

/-- The comparison by number is the comparison of rows, on every platform where a run may stop. -/
theorem checkLinesM_eq (tab : Nat) {indent : Buffer → Nat → Except ε Nat} {rule : Focus → Except ε Nat}
    (hrule : ∀ {b : Buffer} {i : Nat} {f : Focus}, b.focus? i = some f → indent b i = rule f) (b : Buffer) :
    b.checkLinesM p tab indent = (do
      let rows ← reindentBelowM p rule [] b.rows
      let compared := (b.rows.zip (rows.map Row.toLine)).filter fun x => !x.1.isBlank
      let found ← compared.mapM fun x => x.1.mismatchM p tab x.1.index x.2
      pure (found.filterMap id)) := by
  rw [checkLinesM, placeLinesM_eq p hrule]
  cases hrows : reindentBelowM p rule [] b.rows with
  | error e => rfl
  | ok rows =>
    have hcount : count ⟨rows.map Row.toLine⟩ = b.count := by
      rw [count, List.length_map, length_of_reindentBelowM hrows]
      exact length_rowsFrom 0 b.lines
    have hcompared := map_compared p tab hcount
    have hfound := congrArg (List.mapM id) hcompared
    rw [List.mapM_map, List.mapM_map] at hfound
    exact congrArg (fun x : Except ε _ => x >>= fun found => pure (found.filterMap id)) hfound.symm

end Except

theorem mem_check_iff {cfg : Config} {b : Buffer} {m : Mismatch} :
    m ∈ b.check cfg ↔ b.isBlank m.line = false ∧
      m.expected = (b.reindent cfg).indentation m.line cfg.tab ∧
      m.actual = b.indentation m.line cfg.tab ∧ m.expected ≠ m.actual := by
  rw [check_eq, List.mem_filterMap]
  constructor
  · rintro ⟨i, hi, hm⟩
    obtain ⟨rfl, hm⟩ := mismatch?_eq_some_iff.mp hm
    have hblank := (List.mem_filter.mp hi).2
    exact ⟨by simpa using hblank, hm⟩
  · rintro ⟨hblank, hm⟩
    refine ⟨m.line, ?_, mismatch?_eq_some_iff.mpr ⟨rfl, hm⟩⟩
    rw [List.mem_filter, List.mem_range]
    refine ⟨?_, by simpa using hblank⟩
    by_contra hle
    have hnone : b.lines[m.line]? = none := List.getElem?_eq_none (Nat.le_of_not_lt hle)
    simp [isBlank, hnone] at hblank

end Buffer

end BffLayout
