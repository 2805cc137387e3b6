import BffLayout.Proofs.Placing

/-!
Chains in a placed buffer. Each line of a chain is put at the plus sign of the line before it, and
the first at the equals sign of the statement. No column is lost or gained on the way, so all lines
of a chain stand where the statement says, however long the chain is. The line after the chain goes
back to the statement.
-/
namespace BffLayout

namespace Line

/-- The visual column of the first equals sign in code. -/
def equalsColumn? (l : Line) (tab : Nat) : Option Nat :=
  (l.codeChars.find? fun p => p.2 == '=').map fun p => visualColumn tab l.chars p.1

/-- A line that follows the lines above it: it holds something, starts in code, and is neither a
continuation nor a closer nor the end of a branch. -/
structure IsOrdinary (l : Line) : Prop where
  content : l.isBlank = false
  start : l.start = .code
  no_continuation : l.isContinuation = false
  no_closer : l.leadsWithCloser = false
  no_branchEnd : l.closesBranch = false

theorem IsOrdinary.leadingCloser? {l : Line} (h : l.IsOrdinary) : l.leadingCloser? = none := by
  have hcloser := h.no_closer
  rwa [leadsWithCloser_eq, Option.isSome_eq_false_iff, Option.isNone_iff_eq_none] at hcloser

theorem leading?_of_continuation {l : Line} (h : l.isContinuation = true) :
    l.leading? = some (l.margin, '+') := by
  unfold isContinuation leadsWith at h
  split at h
  · next column c hlead =>
    rw [hlead, ← column_eq_margin hlead, beq_iff_eq.mp h]
  · cases h

theorem anchor?_of_continuation {l : Line} (h : l.isContinuation = true) (tab : Nat) :
    l.anchor? tab = some (l.indentation tab) := by
  have hcolumn : visualColumn tab l.chars l.margin = l.indentation tab :=
    visualColumn_core l tab (Nat.zero_le _)
  simp only [anchor?_eq, anchorColumn?, leading?_of_continuation h, Option.map_some, hcolumn]

theorem anchor?_of_not_continuation {l : Line} (h : l.isContinuation = false) (tab : Nat) :
    l.anchor? tab = l.equalsColumn? tab := by
  rw [anchor?_eq]
  unfold anchorColumn? equalsColumn?
  split
  · next column hlead => simp [isContinuation, leadsWith, hlead] at h
  · rw [Option.map_map]
    rfl

/-- Inside a block comment a line does not begin with code. -/
theorem start_of_leading? {l : Line} {p : Nat × Char} (h : l.leading? = some p) : l.start = .code := by
  cases hs : l.start with
  | code => rfl
  | block =>
    rw [leading?, first?_eq, cells, core_start, hs] at h
    cases htrim : trim l.chars with
    | nil => simp [htrim] at h
    | cons c rest => simp [htrim, ScanState.mode, Mode.step] at h

end Line

/-- Every row stands where the rows above it put it. -/
def AllPlaced (cfg : Config) : List Row → Prop
  | [] => True
  | r :: above => Focus.reindented cfg ⟨above, r⟩ = r ∧ AllPlaced cfg above

/-- The column of a continuation directly below the rows. -/
def continuationColumn (cfg : Config) (above : List Row) : Nat :=
  match nearest? above with
  | some f => (f.row.anchor? cfg.tab).getD (f.row.indentation cfg.tab)
  | none => 0

/-- The column that a statement gives to its continuations. -/
def statementColumn (tab : Nat) : Option Row → Nat
  | some s => (s.equalsColumn? tab).getD (s.indentation tab)
  | none => 0

theorem Focus.indent_continuation (cfg : Config) {f : Focus} (h : f.row.isContinuation = true) :
    f.indent cfg = continuationColumn cfg f.above := by
  simp only [indent_eq, continuationColumn, previous?, h, if_true]
  cases nearest? f.above <;> rfl

theorem statement?_cons_skip {r : Row} (h : (r.isBlank || r.isContinuation) = true) (above : List Row) :
    statement? (r :: above) = statement? above := by
  rw [statement?, List.find?_cons_of_neg, ← statement?]
  simpa [Bool.or_eq_true, Classical.or_iff_not_imp_left] using h

theorem statement?_cons_stop {r : Row} (hblank : r.isBlank = false) (hcont : r.isContinuation = false)
    (above : List Row) : statement? (r :: above) = some r := by
  rw [statement?, List.find?_cons_of_pos]
  simp [hblank, hcont]

/-- A placed continuation stands at the column of the rows above it, and its own plus sign hands that
column on. -/
theorem continuationColumn_eq {cfg : Config} {above : List Row} (h : AllPlaced cfg above) :
    continuationColumn cfg above = statementColumn cfg.tab (statement? above) := by
  induction above with
  | nil => rfl
  | cons r above ih =>
    obtain ⟨hr, habove⟩ := h
    cases hblank : r.isBlank with
    | true =>
      have hnearest : nearest? (r :: above) = nearest? above := by simp [nearest?, hblank]
      rw [statement?_cons_skip (by simp [hblank]), ← ih habove, continuationColumn, hnearest]
      rfl
    | false =>
      have hnearest : nearest? (r :: above) = some ⟨above, r⟩ := by simp [nearest?, hblank]
      simp only [continuationColumn, hnearest]
      cases hcont : r.isContinuation with
      | true =>
        have hstart := Line.start_of_leading? (Line.leading?_of_continuation hcont)
        have hcolumn := Focus.indentation_of_reindented hr hstart hblank
        rw [Line.anchor?_of_continuation hcont, statement?_cons_skip (by simp [hcont]), ← ih habove,
          ← Focus.indent_continuation (f := ⟨above, r⟩) cfg hcont]
        exact hcolumn
      | false =>
        rw [Line.anchor?_of_not_continuation hcont, statement?_cons_stop hblank hcont]
        rfl

theorem suffix_of_nearest? {above : List Row} {f : Focus} (h : nearest? above = some f) :
    (f.row :: f.above) <:+ above := by
  induction above with
  | nil => cases h
  | cons r above ih =>
    rw [nearest?] at h
    split at h
    · exact (ih h).trans (List.suffix_cons r above)
    · cases h
      exact List.suffix_rfl

theorem mem_of_nearest? {above : List Row} {f : Focus} (h : nearest? above = some f) : f.row ∈ above :=
  (suffix_of_nearest? h).subset List.mem_cons_self

/-- Blank rows are passed over on the way to the statement. -/
theorem statement?_of_nearest? {above : List Row} {f : Focus} (h : nearest? above = some f) :
    statement? above = statement? (f.row :: f.above) := by
  induction above with
  | nil => cases h
  | cons r above ih =>
    rw [nearest?] at h
    split at h
    · next hblank => rw [statement?_cons_skip (by simp [hblank]), ih h]
    · cases h
      rfl

/-- An ordinary line below a chain goes back to the statement. -/
theorem followColumn_chain (cfg : Config) {above : List Row} {f : Focus} (hf : nearest? above = some f)
    (hcont : f.row.isContinuation = true) :
    followColumn cfg above =
      shifted (chainStart cfg.tab above).base (chainStart cfg.tab above).depth cfg.unit := by
  have hchain : chainStart cfg.tab above = chainStart cfg.tab (f.row :: f.above) := by
    rw [chainStart, statement?_of_nearest? hf, chainStart]
  simp only [followColumn, hf, Focus.follow_eq, hcont, if_true, Follow.column_afterChain, hchain]

namespace Buffer

/-- The statement of the chain that ends right before a line. -/
def chainStart (b : Buffer) (tab index : Nat) : ChainStart := BffLayout.chainStart tab (b.above index)

theorem getElem?_of_mem_above {b : Buffer} {i : Nat} {r : Row} (h : r ∈ b.above i) :
    b.lines[r.index]? = some r.toLine := by
  have hmem := List.mem_of_mem_take (List.mem_reverse.mp h)
  obtain ⟨k, hk⟩ := List.mem_iff_getElem?.mp hmem
  have hindex := index_of_getElem?_rows hk
  rw [getElem?_rows, Option.map_eq_some_iff] at hk
  obtain ⟨l, hl, rfl⟩ := hk
  exact hl

section Placed

variable {cfg : Config} {b : Buffer} (hb : b.reindent cfg = b)

include hb

theorem indentation_of_placed {i : Nat} {l : Line} (hl : b.lines[i]? = some l)
    (hblank : l.isBlank = false) (hstart : l.start = .code) :
    l.indentation cfg.tab = Focus.indent cfg ⟨b.above i, Row.of i l⟩ :=
  Focus.indentation_of_reindented (reindented_of_placed hb (focus?_eq_some hl)) hstart hblank

theorem allPlaced_above (i : Nat) : AllPlaced cfg (b.above i) := by
  induction i with
  | zero => trivial
  | succ n ih =>
    cases hl : b.lines[n]? with
    | none => rwa [above_succ_of_none hl]
    | some l =>
      rw [above_succ hl]
      exact ⟨reindented_of_placed hb (focus?_eq_some hl), ih⟩

theorem indentation_of_continuation {i : Nat} {l : Line} (hl : b.lines[i]? = some l)
    (hcont : l.isContinuation = true) :
    l.indentation cfg.tab = statementColumn cfg.tab (statement? (b.above i)) := by
  have hlead := Line.leading?_of_continuation hcont
  rw [indentation_of_placed hb hl (Line.isBlank_of_leading? hlead) (Line.start_of_leading? hlead),
    Focus.indent_continuation (f := ⟨b.above i, Row.of i l⟩) cfg hcont,
    continuationColumn_eq (allPlaced_above hb i)]

theorem indentation_after_chain {j : Nat} {l : Line} (hl : b.lines[j]? = some l) (h : l.IsOrdinary)
    {f : Focus} (hf : nearest? (b.above j) = some f) (hcont : f.row.isContinuation = true) :
    l.indentation cfg.tab =
      shifted (b.chainStart cfg.tab j).base (b.chainStart cfg.tab j).depth cfg.unit := by
  have hindent := Focus.indent_ordinary (f := ⟨b.above j, Row.of j l⟩) cfg h.no_continuation
    h.leadingCloser? h.no_branchEnd
  rw [indentation_of_placed hb hl h.content h.start, hindent, followColumn_chain cfg hf hcont]
  rfl

end Placed

/-- Chains are stable. In a placed buffer every line of a chain stands at the first equals sign of
its statement, or at the indentation of a statement without one, and at the left edge if there is
no statement. An ordinary line after the chain stands at the depth that the statement leaves, as long
as that column is a number of 64 bits with a sign. -/
theorem reindent_chain (cfg : Config) (b : Buffer) :
    (∀ (i : Nat) (l : Line), (b.reindent cfg).lines[i]? = some l → l.isContinuation = true →
      match ((b.reindent cfg).chainStart cfg.tab i).line with
      | some s => ∃ m, (b.reindent cfg).lines[s]? = some m ∧
          l.indentation cfg.tab = (m.equalsColumn? cfg.tab).getD (m.indentation cfg.tab)
      | none => l.indentation cfg.tab = 0) ∧
    ∀ (j k : Nat) (l m : Line), (b.reindent cfg).lines[j]? = some l → l.IsOrdinary →
      (b.reindent cfg).previousNonBlank? j = some k → (b.reindent cfg).lines[k]? = some m →
      m.isContinuation = true → ∀ column : Int, column = ((b.reindent cfg).chainStart cfg.tab j).base +
        ((b.reindent cfg).chainStart cfg.tab j).depth * cfg.unit →
      -(signBound : Int) ≤ column → column < signBound → (l.indentation cfg.tab : Int) = max 0 column := by
  have hplaced := reindent_idem cfg b
  generalize b.reindent cfg = p at hplaced ⊢
  constructor
  · intro i l hl hcont
    have hcolumn := indentation_of_continuation hplaced hl hcont
    rw [chainStart, BffLayout.chainStart]
    cases hs : statement? (p.above i) with
    | none =>
      rw [hs] at hcolumn
      exact hcolumn
    | some s =>
      rw [hs] at hcolumn
      exact ⟨s.toLine, getElem?_of_mem_above (List.mem_of_find?_eq_some hs), hcolumn⟩
  · intro j k l m hl hordinary hprevious hm hcont column hcolumn hleast hmost
    obtain ⟨f, hf, rfl⟩ := Option.map_eq_some_iff.mp hprevious
    have hrow : f.row.toLine = m := by
      have hmem := getElem?_of_mem_above (mem_of_nearest? hf)
      exact Option.some.inj (hmem.symm.trans hm)
    rw [← hrow] at hcont
    subst hcolumn
    rw [indentation_after_chain hplaced hl hordinary hf hcont, shifted_of_fits hleast hmost,
      Int.toNat_eq_max, Int.max_comm]

/-- A statement with a tab before it, right behind a comment of two lines, and its chain. -/
def tabbedChain : Buffer :=
  ofLines (["\x7b", "/* of two", "\tlines */ .A = 'x'", "+ 'y'", "", "\t\t\t+ 'z' // =", ".B = 1"].map
    String.toList)

theorem reindent_chain_tabbed :
    (∃ m, (tabbedChain.reindent .standard).lines[2]? = some m ∧
      (Line.mk .code "                + 'z' // =".toList).indentation Config.standard.tab =
        (m.equalsColumn? Config.standard.tab).getD (m.indentation Config.standard.tab)) ∧
    ((Line.mk .code "    .B = 1".toList).indentation Config.standard.tab : Int) =
      max 0 (((tabbedChain.reindent .standard).chainStart Config.standard.tab 6).base +
        ((tabbedChain.reindent .standard).chainStart Config.standard.tab 6).depth *
          Config.standard.unit) := by
  obtain ⟨hchain, hafter⟩ := reindent_chain .standard tabbedChain
  have hlast : (tabbedChain.reindent .standard).lines[5]? =
      some ⟨.code, "                + 'z' // =".toList⟩ := by decide
  have hnext : (tabbedChain.reindent .standard).lines[6]? =
      some ⟨.code, "    .B = 1".toList⟩ := by decide
  have hstart : ((tabbedChain.reindent .standard).chainStart Config.standard.tab 5).line = some 2 := by
    decide
  constructor
  · have hcolumn := hchain 5 _ hlast (by decide)
    simp only [hstart] at hcolumn
    exact hcolumn
  · have hordinary : Line.IsOrdinary ⟨.code, "    .B = 1".toList⟩ := by
      constructor <;> decide
    exact hafter 6 5 _ _ hnext hordinary (by decide) hlast (by decide) _ rfl (by decide) (by decide)

end Buffer

end BffLayout
