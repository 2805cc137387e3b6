import BffLayout.Proofs.Layout

/-!
Lines that read alike. What is asked of a line for the sake of indentation is asked of its first
character, its directive, its code and a few columns. Lines that give the same answers there can
stand in for each other: no line below is indented differently.
-/
namespace BffLayout

namespace Line

/-- The line `m` gives the same answers as `l`, which may end before it. -/
structure ReadsLike (l m : Line) : Prop where
  isBlank : m.isBlank = l.isBlank
  leading? : m.leading? = l.leading?
  directive? : m.directive? = l.directive?
  ink : m.ink = l.ink
  contentAfter? : ∀ column, m.contentAfter? column = l.contentAfter? column
  indentation : ∀ tab, m.indentation tab = l.indentation tab
  columns : ∀ tab column, column ≤ l.chars.length →
    visualColumn tab m.chars column = visualColumn tab l.chars column

namespace ReadsLike

theorem refl (l : Line) : l.ReadsLike l :=
  ⟨rfl, rfl, rfl, rfl, fun _ => rfl, fun _ => rfl, fun _ _ _ => rfl⟩

variable {l m : Line} (h : l.ReadsLike m)

include h

theorem isContinuation : m.isContinuation = l.isContinuation := by
  simp only [Line.isContinuation, leadsWith, h.leading?]

theorem leadingCloser? : m.leadingCloser? = l.leadingCloser? := by
  simp only [Line.leadingCloser?, h.leading?]

theorem opensBranch : m.opensBranch = l.opensBranch := by
  simp only [Line.opensBranch, h.directive?]

theorem closesBranch : m.closesBranch = l.closesBranch := by
  simp only [Line.closesBranch, h.directive?]

theorem depthChange : m.depthChange = l.depthChange := by
  simp only [Line.depthChange_eq, depthSum_codeChars, h.ink, h.opensBranch]

theorem brackets : m.brackets = l.brackets := by
  rw [brackets_eq_ink, brackets_eq_ink, h.ink]

theorem trailing? : m.trailing? = l.trailing? := by
  rw [trailing?_eq, trailing?_eq, h.ink]

theorem anchor? (tab : Nat) : m.anchor? tab = l.anchor? tab := by
  have hcolumn : m.anchorColumn? = l.anchorColumn? := by
    simp only [anchorColumn?, h.leading?, find?_equals, h.ink]
  rw [Line.anchor?_eq, Line.anchor?_eq, hcolumn]
  cases hl : l.anchorColumn? with
  | none => rfl
  | some column =>
    exact congrArg some (h.columns tab column (Nat.le_of_lt (column_lt_of_anchorColumn? hl)))

theorem openColumn? (tab : Nat) : m.openColumn? tab = l.openColumn? tab := by
  have hcontent : m.openContent? = l.openContent? := by
    simp only [openContent?, openBrackets_eq, h.ink, h.contentAfter?]
  rw [Line.openColumn?_eq, Line.openColumn?_eq, hcontent]
  cases hl : l.openContent? with
  | none => rfl
  | some content =>
    exact congrArg some (h.columns tab content (Nat.le_of_lt (column_lt_of_openContent? hl)))

end ReadsLike

end Line

/-- Rows with the same number that read alike. -/
abbrev Row.ReadsLike : Row → Row → Prop := Row.Lift Line.ReadsLike

/-- What can be told of a place: the number of its row, the indentation of the row, and the column
of a closer that answers a bracket at the place. -/
def Spot.facts (tab : Nat) (s : Spot) : Nat × Nat × Nat :=
  (s.row.index, s.row.indentation tab, s.closerColumn tab)

theorem indentation_of_facts {tab : Nat} {o o' : Option Spot}
    (h : o'.map (Spot.facts tab) = o.map (Spot.facts tab)) :
    (o'.map fun s => s.row.indentation tab) = o.map fun s => s.row.indentation tab := by
  have hproj := congrArg (Option.map fun t : Nat × Nat × Nat => t.2.1) h
  rwa [Option.map_map, Option.map_map] at hproj

section ReadsLike

variable (tab : Nat)

theorem Row.ReadsLike.map_places {r s : Row} (h : r.ReadsLike s) {ps : List (Nat × Char)}
    (hps : ∀ p ∈ ps, p ∈ r.toLine.brackets) :
    (ps.map fun p => CodeChar.mk ⟨s, p.1⟩ p.2).map (fun c => (c.char, c.facts tab)) =
      (ps.map fun p => CodeChar.mk ⟨r, p.1⟩ p.2).map fun c => (c.char, c.facts tab) := by
  rw [List.map_map, List.map_map]
  apply List.map_congr_left
  intro p hp
  have hlt := Nat.le_of_lt (column_lt_of_mem_brackets (hps p hp))
  simp only [Function.comp, Spot.facts, Spot.closerColumn_ite, h.index, h.line.indentation,
    h.line.contentAfter?, h.line.columns tab p.1 hlt]

theorem Row.ReadsLike.map_brackets {r s : Row} (h : r.ReadsLike s) :
    s.brackets.map (fun c => (c.char, c.facts tab)) =
      r.brackets.map fun c => (c.char, c.facts tab) := by
  rw [Row.brackets, Row.brackets, s.marks_eq, r.marks_eq, h.line.brackets]
  exact h.map_places tab fun p hp => hp

theorem map_bracketsBack_readsLike {above above' : List Row}
    (h : List.Forall₂ Row.ReadsLike above above') :
    (bracketsBack above').map (fun c => (c.char, c.facts tab)) =
      (bracketsBack above).map fun c => (c.char, c.facts tab) := by
  induction h with
  | nil => rfl
  | cons hr _ ih =>
    rw [bracketsBack_cons, bracketsBack_cons, List.map_append, List.map_append, ih, List.map_reverse,
      List.map_reverse, hr.map_brackets]

theorem chainStart_readsLike {above above' : List Row} (h : List.Forall₂ Row.ReadsLike above above') :
    chainStart tab above' = chainStart tab above := by
  induction h with
  | nil => rfl
  | @cons r s above above' hr _ ih =>
    have hblank := hr.line.isBlank
    have hcont := hr.line.isContinuation
    simp only [chainStart, statement?, List.find?_cons, hblank, hcont] at ih ⊢
    split
    · simp only [ChainStart.ofRow?_some, hr.index, hr.line.indentation, hr.line.depthChange]
    · exact ih

theorem nearest?_readsLike {above above' : List Row} (h : List.Forall₂ Row.ReadsLike above above') :
    (nearest? above = none ∧ nearest? above' = none) ∨
      ∃ f g, nearest? above = some f ∧ nearest? above' = some g ∧ f.row.ReadsLike g.row ∧
        List.Forall₂ Row.ReadsLike f.above g.above := by
  induction h with
  | nil => exact .inl ⟨rfl, rfl⟩
  | @cons r s above above' hr habove ih =>
    simp only [nearest?, hr.line.isBlank]
    cases r.isBlank with
    | true => exact ih
    | false => exact .inr ⟨_, _, rfl, rfl, hr, habove⟩

namespace Focus

variable {f g : Focus} (hrow : f.row.ReadsLike g.row)
  (habove : List.Forall₂ Row.ReadsLike f.above g.above)

include hrow habove

theorem map_bracketsBefore_readsLike (column : Nat) :
    (g.bracketsBefore column).map (fun c => (c.char, c.facts tab)) =
      (f.bracketsBefore column).map fun c => (c.char, c.facts tab) := by
  have hown : ∀ r : Row, (r.brackets.filter fun c => c.column < column) =
      (r.toLine.brackets.filter fun p => p.1 < column).map fun p => ⟨⟨r, p.1⟩, p.2⟩ := by
    intro r
    rw [Row.brackets, r.marks_eq, List.filter_map]
    rfl
  rw [bracketsBefore, bracketsBefore, hown, hown, hrow.line.brackets, List.map_append,
    List.map_append, List.map_reverse, List.map_reverse,
    hrow.map_places tab fun p hp => (List.mem_filter.mp hp).1]
  exact congrArg _ (map_bracketsBack_readsLike tab habove)

theorem leadingOpener?_readsLike :
    g.leadingOpener?.map (Spot.facts tab) = f.leadingOpener?.map (Spot.facts tab) := by
  rw [leadingOpener?_eq, leadingOpener?_eq, hrow.line.leadingCloser?]
  cases f.row.leadingCloser? with
  | none => rfl
  | some b => exact b.opener?_congr _ _ (map_bracketsBack_readsLike tab habove)

theorem trailingOpener?_readsLike :
    g.trailingOpener?.map (Spot.facts tab) = f.trailingOpener?.map (Spot.facts tab) := by
  rw [trailingOpener?_eq, trailingOpener?_eq, hrow.line.trailing?, hrow.index]
  rcases f.row.trailing? with _ | ⟨column, c⟩
  · rfl
  · simp only [Option.bind_some]
    cases nestingCloser? c with
    | none => rfl
    | some b =>
      have hopener := b.opener?_congr _ _ (map_bracketsBefore_readsLike tab hrow habove column)
      have hfilter : ∀ o : Option Spot, (o.filter fun s => s.row.index < f.row.index).map (Spot.facts tab) =
          (o.map (Spot.facts tab)).filter fun t => t.1 < f.row.index := by
        intro o
        rw [Option.filter_map]
        rfl
      simp only [Option.bind_some, hfilter, hopener]

/-- An ordinary line below is indented alike. -/
theorem follow_column_readsLike (cfg : Config) :
    (g.follow cfg).column cfg = (f.follow cfg).column cfg := by
  have hcloser : g.row.leadsWithCloser = f.row.leadsWithCloser := by
    rw [Line.leadsWithCloser_eq, Line.leadsWithCloser_eq, hrow.line.leadingCloser?]
  have hstart := chainStart_readsLike cfg.tab (List.Forall₂.cons hrow habove)
  have hleading := indentation_of_facts (leadingOpener?_readsLike cfg.tab hrow habove)
  have htrailing := indentation_of_facts (trailingOpener?_readsLike cfg.tab hrow habove)
  rw [follow_eq, follow_eq, hrow.line.isContinuation, hcloser, hrow.line.openColumn?, hstart]
  split
  · rfl
  · split
    · rw [Follow.column_afterLeadingCloser, Follow.column_afterLeadingCloser, hleading]
    · cases hf : f.trailingOpener? with
      | some s =>
        rw [hf] at htrailing
        obtain ⟨t, hg, ht⟩ := Option.map_eq_some_iff.mp htrailing
        rw [hg]
        exact ht
      | none =>
        rw [hf, Option.map_none, Option.map_eq_none_iff] at htrailing
        rw [htrailing]
        cases f.row.openColumn? cfg.tab with
        | some column => rfl
        | none => simp only [Follow.column_nested, hrow.line.indentation, hrow.line.depthChange]

/-- Rows that read alike are indented alike. -/
theorem indent_readsLike (cfg : Config) : g.indent cfg = f.indent cfg := by
  have hcloser : ∀ b : Bracket, (b.opener? (bracketsBack g.above)).map (·.closerColumn cfg.tab) =
      (b.opener? (bracketsBack f.above)).map (·.closerColumn cfg.tab) := by
    intro b
    have hfacts := b.opener?_congr _ _ (map_bracketsBack_readsLike cfg.tab habove)
    have h := congrArg (Option.map fun t : Nat × Nat × Nat => t.2.2) hfacts
    rwa [Option.map_map, Option.map_map] at h
  rcases nearest?_readsLike habove with ⟨h₁, h₂⟩ | ⟨p, q, h₁, h₂, hpq, hrest⟩
  · simp only [indent_eq, previous?, h₁, h₂]
  · simp only [indent_eq, previous?, h₁, h₂, hrow.line.isContinuation, hrow.line.leadingCloser?,
      hrow.line.closesBranch, hcloser, hpq.line.anchor?, hpq.line.indentation,
      follow_column_readsLike hpq hrest]

end Focus

end ReadsLike

namespace Buffer

/-- Buffers whose lines read alike are indented alike. -/
theorem indent_readsLike {b c : Buffer} (h : List.Forall₂ Line.ReadsLike b.lines c.lines)
    (cfg : Config) (i : Nat) : c.indent cfg i = b.indent cfg i := by
  have hcount : b.count = c.count := h.length_eq
  have hrows : List.Forall₂ Row.ReadsLike b.rows c.rows := forall₂_rowsFrom h 0
  have habove : List.Forall₂ Row.ReadsLike (b.above i) (c.above i) :=
    List.rel_reverse (List.forall₂_take i hrows)
  have hbelow : List.Forall₂ Row.ReadsLike (b.rows.drop i) (c.rows.drop i) :=
    List.forall₂_drop i hrows
  rw [indent, indent, focus, focus, focus?, focus?, ← List.head?_drop, ← List.head?_drop, hcount]
  generalize b.rows.drop i = xs, c.rows.drop i = ys at hbelow ⊢
  cases hbelow with
  | nil => rfl
  | cons hr _ => exact congrArg Except.ok (Focus.indent_readsLike hr habove cfg)

end Buffer

end BffLayout
