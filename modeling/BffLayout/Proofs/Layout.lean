import BffLayout.Proofs.Lookback

/-!
What the indent of a line depends on. Of the lines above, only those with content count, and of
each of them only the visual column of the content and the content itself. So blank lines, right
margins and the choice between tabs and spaces have no influence, and neither has the line's own
left margin or anything below it.
-/
namespace BffLayout

/-- What is seen of a line: the column where its content starts, and the content. -/
structure Layout where
  width : Nat
  text : List Char
  deriving DecidableEq, Repr

def layout (tab : Nat) (cs : List Char) : Layout := ⟨indentWidth tab cs, trim cs⟩

/-- The layouts of the lines that are not blank, top to bottom. -/
def layouts (tab : Nat) (lines : List (List Char)) : List Layout :=
  (lines.filter fun cs => !allWhite cs).map (layout tab)

/-- The layout of a line together with the state it starts in. -/
structure Sight where
  line : Line
  width : Nat

def Line.sight (tab : Nat) (l : Line) : Sight := ⟨l.core, l.indentation tab⟩

/-- The visual column of a closer that answers the bracket with index `j` of the content. -/
def Sight.closerColumn (tab : Nat) (v : Sight) (j : Nat) : Nat :=
  if (v.line.contentAfter? j).isSome then v.line.columnIn tab v.width j else v.width

/-- What is seen of the rows, in their order. -/
def sights (tab : Nat) (rows : List Row) : List Sight :=
  (rows.filter fun r => !r.isBlank).map fun r => r.sight tab

theorem sights_cons_blank (tab : Nat) {r : Row} (hr : r.isBlank = true) (rows : List Row) :
    sights tab (r :: rows) = sights tab rows := by
  simp [sights, hr]

theorem sights_cons (tab : Nat) {r : Row} (hr : r.isBlank = false) (rows : List Row) :
    sights tab (r :: rows) = r.sight tab :: sights tab rows := by
  simp [sights, hr]

/-- Whatever else is known of the places takes no part in matching. -/
theorem Bracket.openers_congr {κ : Type} (k₁ k₂ : CodeChar → κ) (b : Bracket) (pending : Nat)
    {code₁ code₂ : List CodeChar}
    (h : code₁.map (fun c => (c.char, k₁ c)) = code₂.map fun c => (c.char, k₂ c)) :
    (b.openers pending code₁).map (fun p => k₁ p.1) =
      (b.openers pending code₂).map fun p => k₂ p.1 := by
  rw [map_eq_map_iff_forall₂] at h ⊢
  have hopeners := b.openers_forall₂ (fun _ _ hcd => congrArg Prod.fst hcd) pending h
  exact hopeners.imp fun _ _ hpq => congrArg Prod.snd hpq.1

theorem Bracket.opener?_congr {κ : Type} (k₁ k₂ : Spot → κ) (b : Bracket)
    {code₁ code₂ : List CodeChar}
    (h : code₁.map (fun c => (c.char, k₁ c.toSpot)) = code₂.map fun c => (c.char, k₂ c.toSpot)) :
    (b.opener? code₁).map k₁ = (b.opener? code₂).map k₂ := by
  have hall := congrArg List.head? (b.openers_congr (fun c => k₁ c.toSpot) (fun c => k₂ c.toSpot) 0 h)
  rw [List.head?_map, List.head?_map] at hall
  simpa only [opener?, Option.map_map, Function.comp_def] using hall

/-- The column of a closer, from what is seen of the row of its opener. -/
theorem Spot.closerColumn_eq (tab : Nat) (r : Row) {j : Nat} (hj : j ≤ r.core.chars.length) :
    Spot.closerColumn ⟨r, r.margin + j⟩ tab = (r.sight tab).closerColumn tab j := by
  have hcolumn := Line.visualColumn_core r.toLine tab hj
  have hcontent := congrArg Option.isSome (Line.contentAfter?_core r.toLine j)
  rw [Option.isSome_map] at hcontent
  by_cases h : (r.core.contentAfter? j).isSome = true
  · simp [Spot.closerColumn_ite, Sight.closerColumn, Line.sight, hcontent, hcolumn, h]
  · simp [Spot.closerColumn_ite, Sight.closerColumn, Line.sight, hcontent, h]

theorem column_lt_of_mem_brackets {l : Line} {p : Nat × Char} (hp : p ∈ l.brackets) :
    p.1 < l.chars.length :=
  Line.lt_length_of_getElem? (Line.getElem?_of_mem_codeChars (List.mem_filter.mp hp).1)

section Places

variable {κ : Type} {tab : Nat} {k : Spot → κ} {K : Sight → Nat → κ}

/-- Let `K` tell from the sight of a row what `k` tells of the places in its content. Then `k` tells
nothing of the brackets of the row that is not seen. -/
theorem map_brackets {r : Row}
    (hk : ∀ j ≤ r.core.chars.length, k ⟨r, r.margin + j⟩ = K (r.sight tab) j) :
    r.brackets.map (fun c => (c.char, k c.toSpot)) =
      (r.sight tab).line.brackets.map fun p => (p.2, K (r.sight tab) p.1) := by
  rw [Row.brackets_core, List.map_map]
  apply List.map_congr_left
  intro p hp
  have hlt := Nat.le_of_lt (column_lt_of_mem_brackets hp)
  exact congrArg (Prod.mk p.2) (hk p.1 hlt)

theorem map_bracketsBack {above : List Row}
    (hk : ∀ r ∈ above, ∀ j ≤ r.core.chars.length, k ⟨r, r.margin + j⟩ = K (r.sight tab) j) :
    (bracketsBack above).map (fun c => (c.char, k c.toSpot)) =
      (sights tab above).flatMap fun v => (v.line.brackets.map fun p => (p.2, K v p.1)).reverse := by
  induction above with
  | nil => rfl
  | cons r rest ih =>
    have hrow := map_brackets (hk r List.mem_cons_self)
    have hrest := ih fun s hs => hk s (List.mem_cons_of_mem r hs)
    rw [bracketsBack_cons, List.map_append, List.map_reverse, hrow, hrest]
    cases hblank : r.isBlank with
    | true =>
      rw [sights_cons_blank tab hblank, Line.sight, Line.core_of_isBlank hblank]
      rfl
    | false =>
      rw [sights_cons tab hblank, List.flatMap_cons]

/-- A closer below rows that look alike finds the same of its opener in both. -/
theorem opener?_bracketsBack_congr {above₁ above₂ : List Row}
    (hk : ∀ (r : Row) (j : Nat), j ≤ r.core.chars.length → k ⟨r, r.margin + j⟩ = K (r.sight tab) j)
    (h : sights tab above₁ = sights tab above₂) (b : Bracket) :
    (b.opener? (bracketsBack above₁)).map k = (b.opener? (bracketsBack above₂)).map k := by
  apply Bracket.opener?_congr
  rw [map_bracketsBack fun r _ => hk r, map_bracketsBack fun r _ => hk r, h]

end Places

/-- The rows above have smaller numbers. -/
def Focus.Numbered (f : Focus) : Prop := ∀ r ∈ f.above, r.index < f.row.index

/-- Rows in focus that look alike and have the same sight above. -/
structure Focus.Alike (tab : Nat) (f g : Focus) : Prop where
  row : f.row.sight tab = g.row.sight tab
  above : sights tab f.above = sights tab g.above
  left : f.Numbered
  right : g.Numbered

namespace Focus

theorem Alike.core {tab : Nat} {f g : Focus} (h : f.Alike tab g) : f.row.core = g.row.core :=
  congrArg Sight.line h.row

theorem Alike.indentation {tab : Nat} {f g : Focus} (h : f.Alike tab g) :
    f.row.indentation tab = g.row.indentation tab :=
  congrArg Sight.width h.row

/-- The indentation at a place, provided that the place is on a row before number `n`. -/
def indentBefore (tab n : Nat) (s : Spot) : Option Nat :=
  if s.row.index < n then some (s.row.indentation tab) else none

/-- What is seen of the brackets before the character with index `j` of the content. -/
theorem map_bracketsBefore {tab : Nat} {f : Focus} (hf : f.Numbered) (j : Nat) :
    (f.bracketsBefore (f.row.margin + j)).map
        (fun c => (c.char, indentBefore tab f.row.index c.toSpot)) =
      ((f.row.core.brackets.filter fun p => p.1 < j).map fun p => (p.2, none)).reverse ++
        (sights tab f.above).flatMap fun v =>
          (v.line.brackets.map fun p => (p.2, some v.width)).reverse := by
  have hown : (f.row.brackets.filter fun c => c.column < f.row.margin + j).map
      (fun c => (c.char, indentBefore tab f.row.index c.toSpot)) =
        (f.row.core.brackets.filter fun p => p.1 < j).map fun p => (p.2, none) := by
    rw [Row.filter_brackets, List.map_map]
    simp [Function.comp_def, indentBefore]
  have hkey : ∀ r ∈ f.above, ∀ j ≤ r.core.chars.length,
      indentBefore tab f.row.index ⟨r, r.margin + j⟩ = some (r.sight tab).width := by
    intro r hr j _
    simp [indentBefore, hf r hr, Line.sight]
  have habove := map_bracketsBack (K := fun v _ => some v.width) hkey
  rw [← hown, ← habove, ← List.map_reverse, ← List.map_append]
  rfl

theorem trailingIndent_eq {tab : Nat} {f : Focus} :
    f.trailingOpener?.map (fun s => s.row.indentation tab) =
      f.row.core.trailing?.bind fun p => (nestingCloser? p.2).bind fun b =>
        ((b.opener? (f.bracketsBefore (f.row.margin + p.1))).map
          (indentBefore tab f.row.index)).join := by
  rw [trailingOpener?_eq, Line.trailing?_core f.row.toLine]
  rcases f.row.core.trailing? with _ | ⟨j, c⟩
  · rfl
  · simp only [Option.map_some, Prod.map, id, Option.bind_some]
    cases nestingCloser? c with
    | none => rfl
    | some b =>
      simp only [Option.bind_some]
      cases b.opener? (f.bracketsBefore (f.row.margin + j)) with
      | none => rfl
      | some s => by_cases hs : s.row.index < f.row.index <;> simp [indentBefore, Option.filter, hs]

/-- Below rows that look alike, a closer at the end of the row finds the same indentation. -/
theorem trailingIndent_congr {tab : Nat} {f g : Focus} (h : f.Alike tab g) :
    f.trailingOpener?.map (fun s => s.row.indentation tab) =
      g.trailingOpener?.map fun s => s.row.indentation tab := by
  have hopener : ∀ (b : Bracket) (j : Nat),
      (b.opener? (f.bracketsBefore (f.row.margin + j))).map (indentBefore tab f.row.index) =
        (b.opener? (g.bracketsBefore (g.row.margin + j))).map (indentBefore tab g.row.index) := by
    intro b j
    apply Bracket.opener?_congr
    rw [map_bracketsBefore h.left, map_bracketsBefore h.right, h.core, h.above]
  simp only [trailingIndent_eq, h.core, hopener]

theorem Alike.sights {tab : Nat} {f g : Focus} (h : f.Alike tab g) :
    BffLayout.sights tab (f.row :: f.above) = BffLayout.sights tab (g.row :: g.above) := by
  have hblank : f.row.isBlank = g.row.isBlank :=
    Line.eq_of_core Line.isBlank_core h.core
  cases hg : g.row.isBlank with
  | true => rw [sights_cons_blank tab (hblank.trans hg), sights_cons_blank tab hg, h.above]
  | false => rw [sights_cons tab (hblank.trans hg), sights_cons tab hg, h.above, h.row]

end Focus

/-- The statement that a chain hangs from is the nearest line seen that continues none. -/
theorem sight_statement? (tab : Nat) (above : List Row) :
    (statement? above).map (fun r => r.sight tab) =
      (sights tab above).find? fun v => !v.line.isContinuation := by
  rw [sights, List.find?_map, List.find?_filter, statement?]
  congr
  funext r
  simp [Line.sight]

theorem chainColumn_congr {cfg : Config} {above₁ above₂ : List Row}
    (h : sights cfg.tab above₁ = sights cfg.tab above₂) :
    (Follow.afterChain (chainStart cfg.tab above₁)).column cfg =
      (Follow.afterChain (chainStart cfg.tab above₂)).column cfg := by
  have hstatement := (sight_statement? cfg.tab above₁).trans
    ((congrArg _ h).trans (sight_statement? cfg.tab above₂).symm)
  unfold chainStart
  cases h₁ : statement? above₁ with
  | none =>
    cases h₂ : statement? above₂ with
    | none => rfl
    | some s => simp [h₁, h₂] at hstatement
  | some r =>
    cases h₂ : statement? above₂ with
    | none => simp [h₁, h₂] at hstatement
    | some s =>
      rw [h₁, h₂] at hstatement
      have hsight : r.sight cfg.tab = s.sight cfg.tab := Option.some.inj hstatement
      have hbase : r.indentation cfg.tab = s.indentation cfg.tab := congrArg Sight.width hsight
      have hcore : r.core = s.core := congrArg Sight.line hsight
      have hdepth : r.depthChange = s.depthChange := Line.eq_of_core Line.depthChange_core hcore
      simp only [ChainStart.ofRow?_some, Follow.column_afterChain, hbase, hdepth]

namespace Focus

/-- An ordinary line stands in the same column below rows that look alike. -/
theorem follow_column_congr {cfg : Config} {f g : Focus} (h : f.Alike cfg.tab g) :
    (f.follow cfg).column cfg = (g.follow cfg).column cfg := by
  have hcont : f.row.isContinuation = g.row.isContinuation :=
    Line.eq_of_core Line.isContinuation_core h.core
  have hcloser : f.row.leadsWithCloser = g.row.leadsWithCloser :=
    Line.eq_of_core Line.leadsWithCloser_core h.core
  have hbracket : f.row.leadingCloser? = g.row.leadingCloser? :=
    Line.eq_of_core Line.leadingCloser?_core h.core
  have hdepth : f.row.depthChange = g.row.depthChange :=
    Line.eq_of_core Line.depthChange_core h.core
  have hopen : f.row.openColumn? cfg.tab = g.row.openColumn? cfg.tab := by
    rw [Line.openColumn?_core, h.core, h.indentation, ← Line.openColumn?_core]
  have htrailing := trailingIndent_congr h
  rw [follow_eq, follow_eq, hcont, hcloser, hopen]
  split
  · exact chainColumn_congr h.sights
  · split
    · rw [Follow.column_afterLeadingCloser, Follow.column_afterLeadingCloser, leadingOpener?_eq,
        leadingOpener?_eq, hbracket]
      cases g.row.leadingCloser? with
      | none => rfl
      | some b =>
        have hopener := opener?_bracketsBack_congr (k := fun s => s.row.indentation cfg.tab)
          (K := fun v _ => v.width) (fun _ _ _ => rfl) h.above b
        simp only [Option.bind_some, hopener]
    · cases hf : f.trailingOpener? with
      | none =>
        cases hg : g.trailingOpener? with
        | some t => simp [hf, hg] at htrailing
        | none =>
          cases g.row.openColumn? cfg.tab with
          | some column => rfl
          | none => simp only [Follow.column_nested, h.indentation, hdepth]
      | some s =>
        cases hg : g.trailingOpener? with
        | none => simp [hf, hg] at htrailing
        | some t =>
          rw [hf, hg] at htrailing
          exact Option.some.inj htrailing

end Focus

/-- Numbers fall from each row to the rows above it. -/
def Descending (above : List Row) : Prop := above.Pairwise fun r s => s.index < r.index

theorem sights_of_nearest?_none (tab : Nat) {above : List Row} (h : nearest? above = none) :
    sights tab above = [] := by
  induction above with
  | nil => rfl
  | cons r rest ih =>
    rw [nearest?] at h
    split at h
    · next hr => rw [sights_cons_blank tab hr, ih h]
    · cases h

theorem sights_of_nearest?_some (tab : Nat) {above : List Row} {f : Focus}
    (h : nearest? above = some f) :
    sights tab above = f.row.sight tab :: sights tab f.above := by
  induction above with
  | nil => cases h
  | cons r rest ih =>
    rw [nearest?] at h
    split at h
    · next hr => rw [sights_cons_blank tab hr, ih h]
    · next hr =>
      cases h
      exact sights_cons tab (by simpa using hr) rest

theorem numbered_of_nearest? {above : List Row} {f : Focus} (hd : Descending above)
    (h : nearest? above = some f) : f.Numbered := by
  induction above with
  | nil => cases h
  | cons r rest ih =>
    obtain ⟨hr, hrest⟩ := List.pairwise_cons.mp hd
    rw [nearest?] at h
    split at h
    · exact ih hrest h
    · cases h
      exact hr

/-- Rows that look alike have nearest rows with content that look alike, or none at all. -/
theorem nearest?_alike {tab : Nat} {above₁ above₂ : List Row} (hd₁ : Descending above₁)
    (hd₂ : Descending above₂) (h : sights tab above₁ = sights tab above₂) :
    (nearest? above₁ = none ∧ nearest? above₂ = none) ∨
      ∃ f g, nearest? above₁ = some f ∧ nearest? above₂ = some g ∧ f.Alike tab g := by
  cases h₁ : nearest? above₁ with
  | none =>
    cases h₂ : nearest? above₂ with
    | none => exact .inl ⟨rfl, rfl⟩
    | some g => simp [sights_of_nearest?_none tab h₁, sights_of_nearest?_some tab h₂] at h
  | some f =>
    cases h₂ : nearest? above₂ with
    | none => simp [sights_of_nearest?_some tab h₁, sights_of_nearest?_none tab h₂] at h
    | some g =>
      rw [sights_of_nearest?_some tab h₁, sights_of_nearest?_some tab h₂] at h
      obtain ⟨hrow, habove⟩ := List.cons.inj h
      exact .inr ⟨f, g, rfl, rfl, hrow, habove, numbered_of_nearest? hd₁ h₁, numbered_of_nearest? hd₂ h₂⟩

/-- The indent of a row is fixed by its content and by what is seen of the rows above. -/
theorem Focus.indent_congr_sights {cfg : Config} {f g : Focus} (hf : Descending f.above)
    (hg : Descending g.above) (hrow : f.row.core = g.row.core)
    (habove : sights cfg.tab f.above = sights cfg.tab g.above) : f.indent cfg = g.indent cfg := by
  have hcont : f.row.isContinuation = g.row.isContinuation :=
    Line.eq_of_core Line.isContinuation_core hrow
  have hbracket : f.row.leadingCloser? = g.row.leadingCloser? :=
    Line.eq_of_core Line.leadingCloser?_core hrow
  have hbranch : f.row.closesBranch = g.row.closesBranch :=
    Line.eq_of_core Line.closesBranch_core hrow
  have hcloser := opener?_bracketsBack_congr (k := fun s => s.closerColumn cfg.tab)
    (fun r j hj => Spot.closerColumn_eq cfg.tab r hj) habove
  rcases nearest?_alike hf hg habove with ⟨h₁, h₂⟩ | ⟨p, q, h₁, h₂, hpq⟩
  · simp only [indent_eq, previous?, h₁, h₂]
  · have hanchor : p.row.anchor? cfg.tab = q.row.anchor? cfg.tab := by
      rw [Line.anchor?_core, hpq.core, hpq.indentation, ← Line.anchor?_core]
    simp only [indent_eq, previous?, h₁, h₂, hcont, hbracket, hbranch, hcloser, hanchor,
      hpq.indentation, follow_column_congr hpq]

/-- The state after all of `lines`, where the first one starts in state `s`. -/
def stateAfter (s : ScanState) (lines : List (List Char)) : ScanState :=
  lines.foldl (fun s cs => Line.next ⟨s, cs⟩) s

/-- What is seen of lines with the given layouts, where the first one starts in state `s`. -/
def sightsFrom : ScanState → List Layout → List Sight
  | _, [] => []
  | s, y :: rest => ⟨⟨s, y.text⟩, y.width⟩ :: sightsFrom (Line.next ⟨s, y.text⟩) rest

theorem layouts_cons_blank (tab : Nat) {cs : List Char} (h : allWhite cs = true)
    (lines : List (List Char)) : layouts tab (cs :: lines) = layouts tab lines := by
  simp [layouts, h]

theorem layouts_cons (tab : Nat) {cs : List Char} (h : allWhite cs = false)
    (lines : List (List Char)) :
    layouts tab (cs :: lines) = layout tab cs :: layouts tab lines := by
  simp [layouts, h]

/-- Blank lines and margins leave no trace in the state of the lines below. -/
theorem stateAfter_layouts (tab : Nat) (s : ScanState) (lines : List (List Char)) :
    stateAfter s ((layouts tab lines).map Layout.text) = stateAfter s lines := by
  induction lines generalizing s with
  | nil => rfl
  | cons cs rest ih =>
    cases h : allWhite cs with
    | true =>
      rw [layouts_cons_blank tab h, ih, stateAfter, stateAfter, List.foldl_cons, Line.next_of_allWhite s h]
    | false =>
      have htrim := Line.next_trim s cs
      rw [layouts_cons tab h, List.map_cons, stateAfter, List.foldl_cons, layout, htrim]
      exact ih _

theorem linesFrom_append (s : ScanState) (xs ys : List (List Char)) :
    linesFrom s (xs ++ ys) = linesFrom s xs ++ linesFrom (stateAfter s xs) ys := by
  induction xs generalizing s with
  | nil => rfl
  | cons cs rest ih =>
    rw [List.cons_append, linesFrom, linesFrom, ih, List.cons_append]
    rfl

theorem length_linesFrom (s : ScanState) (lines : List (List Char)) :
    (linesFrom s lines).length = lines.length := by
  induction lines generalizing s with
  | nil => rfl
  | cons cs rest ih => rw [linesFrom, List.length_cons, List.length_cons, ih]

/-- The layouts of the lines determine what is seen of them, states included. -/
theorem sights_linesFrom (tab : Nat) (s : ScanState) (first : Nat) (lines : List (List Char)) :
    sights tab (rowsFrom first (linesFrom s lines)) = sightsFrom s (layouts tab lines) := by
  induction lines generalizing s first with
  | nil => rfl
  | cons cs rest ih =>
    have hblank : (Row.of first ⟨s, cs⟩).isBlank = allWhite cs := rfl
    rw [linesFrom, rowsFrom_cons]
    cases h : allWhite cs with
    | true =>
      rw [sights_cons_blank tab (hblank.trans h), ih, layouts_cons_blank tab h, Line.next_of_allWhite s h]
    | false =>
      rw [sights_cons tab (hblank.trans h), ih, layouts_cons tab h, sightsFrom, layout, Line.next_trim]
      rfl

theorem sights_reverse (tab : Nat) (rows : List Row) :
    sights tab rows.reverse = (sights tab rows).reverse := by
  rw [sights, sights, List.filter_reverse, List.map_reverse]

theorem sights_append (tab : Nat) (xs ys : List Row) :
    sights tab (xs ++ ys) = sights tab xs ++ sights tab ys := by
  rw [sights, List.filter_append, List.map_append, sights, sights]

theorem descending_rowsFrom (first : Nat) (ls : List Line) : Descending (rowsFrom first ls).reverse :=
  List.pairwise_reverse.mpr (pairwise_rowsFrom first ls)

namespace Buffer

/-- A line in focus: the lines above it decide in which state it starts. -/
theorem focus?_ofLines {lines : List (List Char)} {i : Nat} {cs : List Char}
    (h : lines[i]? = some cs) :
    (Buffer.ofLines lines).focus? i =
      some ⟨(rowsFrom 0 (linesFrom .code (lines.take i))).reverse,
        Row.of i ⟨stateAfter .code (lines.take i), cs⟩⟩ := by
  obtain ⟨hi, rfl⟩ := List.getElem?_eq_some_iff.mp h
  have hlength : (linesFrom .code (lines.take i)).length = i := by
    rw [length_linesFrom, List.length_take]
    omega
  have hrows : (Buffer.ofLines lines).rows = rowsFrom 0 (linesFrom .code (lines.take i)) ++
      rowsFrom i (linesFrom (stateAfter .code (lines.take i)) (lines.drop i)) := by
    have happend := linesFrom_append .code (lines.take i) (lines.drop i)
    rw [List.take_append_drop] at happend
    rw [rows_eq, ofLines, happend, rowsFrom_append, hlength, Nat.zero_add]
  have habove : (rowsFrom 0 (linesFrom .code (lines.take i))).length = i := by
    rw [length_rowsFrom, hlength]
  have htake : (Buffer.ofLines lines).rows.take i = rowsFrom 0 (linesFrom .code (lines.take i)) := by
    rw [hrows, List.take_left' habove]
  have hget : (Buffer.ofLines lines).rows[i]? =
      some (Row.of i ⟨stateAfter .code (lines.take i), lines[i]⟩) := by
    rw [hrows, List.getElem?_append_right (Nat.le_of_eq habove), habove, Nat.sub_self,
      List.drop_eq_getElem_cons hi]
    rfl
  rw [focus?, above, htake, hget]
  rfl

theorem indent_ofLines (cfg : Config) {lines : List (List Char)} {i : Nat} {cs : List Char}
    (h : lines[i]? = some cs) :
    (Buffer.ofLines lines).indent cfg i =
      .ok (Focus.indent cfg ⟨(rowsFrom 0 (linesFrom .code (lines.take i))).reverse,
        Row.of i ⟨stateAfter .code (lines.take i), cs⟩⟩) := by
  rw [indent, focus, focus?_ofLines h]
  rfl

/-- The indent of a line depends on the layouts of the lines above that are not blank and on its
own content, and on nothing else. -/
theorem indent_eq_of_layouts (cfg : Config) {lines₁ lines₂ : List (List Char)} {i₁ i₂ : Nat}
    {cs₁ cs₂ : List Char} (h₁ : lines₁[i₁]? = some cs₁) (h₂ : lines₂[i₂]? = some cs₂)
    (habove : layouts cfg.tab (lines₁.take i₁) = layouts cfg.tab (lines₂.take i₂))
    (hown : trim cs₁ = trim cs₂) :
    ∃ n, (Buffer.ofLines lines₁).indent cfg i₁ = .ok n ∧
      (Buffer.ofLines lines₂).indent cfg i₂ = .ok n := by
  have hstate : stateAfter .code (lines₁.take i₁) = stateAfter .code (lines₂.take i₂) := by
    rw [← stateAfter_layouts cfg.tab, habove, stateAfter_layouts]
  have hcore : (Line.mk (stateAfter .code (lines₁.take i₁)) cs₁).core =
      (Line.mk (stateAfter .code (lines₂.take i₂)) cs₂).core := by
    simp only [Line.core, hstate, hown]
  have hsights : sights cfg.tab (rowsFrom 0 (linesFrom .code (lines₁.take i₁))).reverse =
      sights cfg.tab (rowsFrom 0 (linesFrom .code (lines₂.take i₂))).reverse := by
    rw [sights_reverse, sights_reverse, sights_linesFrom, sights_linesFrom, habove]
  have hd : ∀ lines, Descending (rowsFrom 0 lines).reverse := fun lines =>
    List.pairwise_reverse.mpr (pairwise_rowsFrom 0 lines)
  rw [indent_ofLines cfg h₁, indent_ofLines cfg h₂]
  refine ⟨_, congrArg Except.ok ?_, rfl⟩
  exact Focus.indent_congr_sights (hd _) (hd _) hcore hsights

/-- A tab against four spaces, a blank line, and white characters at the ends of lines. -/
theorem indent_eq_of_layouts_tabs :
    layouts 4 (["\t.A = [ 'a',", " ", "\t\t'b'\r"].map String.toList) =
      layouts 4 (["    .A = [ 'a',  ", "        'b'"].map String.toList) ∧
    ∃ n, (ofLines (["\t.A = [ 'a',", " ", "\t\t'b'\r", "]"].map String.toList)).indent .standard 3 =
        .ok n ∧
      (ofLines (["    .A = [ 'a',  ", "        'b'", " ] "].map String.toList)).indent .standard 2 =
        .ok n := by
  have habove : layouts 4 (["\t.A = [ 'a',", " ", "\t\t'b'\r"].map String.toList) =
      layouts 4 (["    .A = [ 'a',  ", "        'b'"].map String.toList) := by decide
  exact ⟨habove, indent_eq_of_layouts .standard rfl rfl habove (by decide)⟩

end Buffer

end BffLayout
