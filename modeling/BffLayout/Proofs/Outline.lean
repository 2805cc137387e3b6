import Mathlib.Data.List.MinMax
import Mathlib.Order.Nat
import BffLayout.Proofs.BlockLine

/-!
Structured files. An outline is a sequence of items: plain lines, blocks between a bracket and its
closer, and conditionals between directives, with blank lines anywhere. Placing puts every line at
its depth in the outline, whatever the margins of the lines were before.
-/
namespace BffLayout

/-- A text that, read as a line in code, has the property `P`. -/
def LineWith (P : Line → Prop) : Type := { cs : List Char // P ⟨.code, cs⟩ }

/-- Items in sequence. Every constructor but the first is one item followed by the rest. -/
inductive Outline where
  | done
  | blank (line : LineWith fun l => l.isBlank = true) (rest : Outline)
  | plain (line : LineWith Line.IsPlain) (rest : Outline)
  | block (b : Bracket) (opener : LineWith (Line.IsOpener b)) (body : Outline)
      (closer : LineWith (Line.IsCloser b)) (rest : Outline)
  | conditional (first : LineWith (Line.IsDirective .ifBranch)) (body : Outline)
      (last : LineWith (Line.IsDirective .endif)) (rest : Outline)
  | alternative (first : LineWith (Line.IsDirective .ifBranch)) (body : Outline)
      (middle : LineWith (Line.IsDirective .elseBranch)) (other : Outline)
      (last : LineWith (Line.IsDirective .endif)) (rest : Outline)

namespace Outline

/-- The lines from top to bottom, each with its depth. A body is one level deeper than the lines
around it. -/
def levels : Outline → (depth : Nat) → List (Nat × List Char)
  | done, _ => []
  | blank line rest, d => (d, line.1) :: rest.levels d
  | plain line rest, d => (d, line.1) :: rest.levels d
  | block _ opener body closer rest, d =>
    ((d, opener.1) :: body.levels (d + 1)) ++ (d, closer.1) :: rest.levels d
  | conditional first body last rest, d =>
    ((d, first.1) :: body.levels (d + 1)) ++ (d, last.1) :: rest.levels d
  | alternative first body middle other last rest, d =>
    ((d, first.1) :: body.levels (d + 1)) ++ ((d, middle.1) :: other.levels (d + 1)) ++
      (d, last.1) :: rest.levels d

/-- The text of the outline. -/
def lines (o : Outline) : List (List Char) := (o.levels 0).map Prod.snd

/-- The depth of a line, or of the branch that it opens. -/
def reach (p : Nat × List Char) : Nat := p.1 + if Line.opensBranch ⟨.code, p.2⟩ then 1 else 0

/-- The greatest depth of a line that is not blank and of a branch, even if that is empty. -/
def maxDepth (o : Outline) : Nat :=
  (((o.levels 0).filter fun p => !allWhite p.2).map reach).foldr max 0

end Outline

/-- The row with number `index` at its depth. -/
def placedRow (unit index : Nat) (p : Nat × List Char) : Row :=
  Row.of index (Line.setIndentation ⟨.code, p.2⟩ (p.1 * unit))

/-- The rows above the next line, when `lines` have been placed below `above`. -/
def placedBelow (unit : Nat) : (above : List Row) → (first : Nat) → List (Nat × List Char) → List Row
  | above, _, [] => above
  | above, first, p :: rest => placedBelow unit (placedRow unit first p :: above) (first + 1) rest

/-- Placing puts each of `lines` at its depth. -/
inductive Placed (cfg : Config) : List Row → Nat → List (Nat × List Char) → Prop where
  | nil {above : List Row} {first : Nat} : Placed cfg above first []
  | cons {above : List Row} {first : Nat} {p : Nat × List Char} {rest : List (Nat × List Char)} :
      Focus.reindented cfg ⟨above, Row.of first ⟨.code, p.2⟩⟩ = placedRow cfg.unit first p →
      Placed cfg (placedRow cfg.unit first p :: above) (first + 1) rest →
      Placed cfg above first (p :: rest)

theorem placedBelow_append (unit : Nat) (above : List Row) (first : Nat)
    (xs ys : List (Nat × List Char)) :
    placedBelow unit above first (xs ++ ys) =
      placedBelow unit (placedBelow unit above first xs) (first + xs.length) ys := by
  induction xs generalizing above first with
  | nil => rfl
  | cons p rest ih =>
    rw [List.cons_append, placedBelow, ih, placedBelow, List.length_cons]
    congr 1
    omega

theorem Placed.append {cfg : Config} {above : List Row} {first : Nat}
    {xs ys : List (Nat × List Char)} (hx : Placed cfg above first xs)
    (hy : Placed cfg (placedBelow cfg.unit above first xs) (first + xs.length) ys) :
    Placed cfg above first (xs ++ ys) := by
  induction hx with
  | nil => exact hy
  | @cons above first p rest hp _ ih =>
    have hindex : first + 1 + rest.length = first + (p :: rest).length := by
      rw [List.length_cons]
      omega
    exact .cons hp (ih (hindex ▸ hy))

/-- The pass over the rows of lines that are placed at their depths. -/
theorem Placed.reindentBelow_eq {cfg : Config} {above : List Row} {first : Nat}
    {lines : List (Nat × List Char)} (h : Placed cfg above first lines) :
    reindentBelow cfg above (rowsFrom first (lines.map fun p => ⟨.code, p.2⟩)) =
      rowsFrom first (lines.map fun p => Line.setIndentation ⟨.code, p.2⟩ (p.1 * cfg.unit)) := by
  induction h with
  | nil => rfl
  | cons hp _ ih =>
    simp only [List.map_cons, rowsFrom_cons, reindentBelow_cons, hp]
    exact congrArg _ ih

theorem isSome_nearest?_cons {r : Row} (h : r.isBlank = false) (above : List Row) :
    (nearest? (r :: above)).isSome = true := by
  rw [nearest?, h]
  rfl

/-- A row with content stays in sight. -/
theorem isSome_nearest?_placedBelow (unit : Nat) {above : List Row}
    (h : (nearest? above).isSome = true) (first : Nat) (lines : List (Nat × List Char)) :
    (nearest? (placedBelow unit above first lines)).isSome = true := by
  induction lines generalizing above first with
  | nil => exact h
  | cons p rest ih =>
    apply ih
    rw [nearest?]
    split
    · exact h
    · rfl

/-- Closers below find the same openers below `xs` as below `ys`. -/
def SameOpeners (xs ys : List Row) : Prop :=
  ∀ b : Bracket, b.nests = true → ∀ pending,
    b.openers pending (bracketsBack xs) = b.openers pending (bracketsBack ys)

theorem SameOpeners.refl (xs : List Row) : SameOpeners xs xs := fun _ _ _ => rfl

theorem SameOpeners.trans {xs ys zs : List Row} (h : SameOpeners xs ys) (h' : SameOpeners ys zs) :
    SameOpeners xs zs :=
  fun b hb pending => (h b hb pending).trans (h' b hb pending)

/-- Lines that are placed at their depths, answer their own brackets and leave ordinary lines below
them at column `after`. -/
structure Settled (cfg : Config) (above : List Row) (first : Nat) (lines : List (Nat × List Char))
    (after : Nat) : Prop where
  placed : Placed cfg above first lines
  openers : SameOpeners (placedBelow cfg.unit above first lines) above
  follow : followColumn cfg (placedBelow cfg.unit above first lines) = after

/-- The lines settle wherever ordinary lines stand at column `before`. -/
def Settles (cfg : Config) (before : Nat) (lines : List (Nat × List Char)) (after : Nat) : Prop :=
  ∀ above first, followColumn cfg above = before → Settled cfg above first lines after

section Rows

variable (cfg : Config) (above : List Row) (index : Nat) {l : Line}

theorem reindented_of_indent (hstart : l.start = .code) (hcontent : l.isBlank = false) {n : Nat}
    (h : Focus.indent cfg ⟨above, Row.of index l⟩ = n) :
    Focus.reindented cfg ⟨above, Row.of index l⟩ = Row.of index (l.setIndentation n) := by
  have hrow : (Row.of index l).start = .code := hstart
  have hblank : (Row.of index l).isBlank = false := hcontent
  simp only [Focus.reindented_eq, hrow, hblank, Bool.false_eq_true, if_false, h]
  rfl

/-- A blank line becomes empty at any depth. -/
theorem reindented_of_isBlank (hstart : l.start = .code) (hblank : l.isBlank = true) (n : Nat) :
    Focus.reindented cfg ⟨above, Row.of index l⟩ = Row.of index (l.setIndentation n) := by
  have hline : ∀ m, l.setIndentation m = ⟨l.start, []⟩ := by
    intro m
    rw [Line.setIndentation, withIndent_of_blank hblank]
  have hrow : (Row.of index l).start = .code := hstart
  simp only [Focus.reindented_eq, hrow]
  rw [hline n]
  exact congrArg (Row.of index) (hline _)

end Rows

section Block

variable (cfg : Config) {b : Bracket} {top : Row} {above inside : List Row}

theorem followColumn_opener (htop : top.IsOpener b) (above : List Row) :
    followColumn cfg (top :: above) = shifted (top.indentation cfg.tab) 1 cfg.unit := by
  rw [followColumn_cons cfg htop.content]
  exact Focus.follow_column_opener cfg htop

variable (htop : top.IsOpener b) (hinside : SameOpeners inside (top :: above))

include htop hinside

/-- Past a body that answers its own brackets stands the opener of the block. -/
theorem opener?_inside (tab : Nat) :
    ∃ s, b.opener? (bracketsBack inside) = some s ∧ s.row = top ∧
      s.closerColumn tab = top.indentation tab := by
  rw [Bracket.opener?, hinside b htop.nests 0]
  exact Row.opener?_opener htop above tab

theorem sameOpeners_closer {r : Row} (hr : r.IsCloser b) : SameOpeners (r :: inside) above := by
  intro k hk pending
  calc k.openers pending (bracketsBack (r :: inside))
      = k.openers (pending + [b].count k) (bracketsBack inside) := Row.openers_closer hr k pending inside
    _ = k.openers (pending + [b].count k) (bracketsBack (top :: above)) := hinside k hk _
    _ = k.openers pending (bracketsBack above) := Row.openers_opener htop hk pending above

theorem followColumn_closer {r : Row} (hr : r.IsCloser b) :
    followColumn cfg (r :: inside) = top.indentation cfg.tab := by
  obtain ⟨s, hs, hrow, -⟩ := opener?_inside htop hinside cfg.tab
  rw [followColumn_cons cfg hr.content, ← hrow]
  exact Focus.follow_column_closer cfg hr hs

theorem indent_closer (hsight : (nearest? inside).isSome = true) {r : Row} (hr : r.IsCloser b) :
    Focus.indent cfg ⟨inside, r⟩ = top.indentation cfg.tab := by
  obtain ⟨s, hs, -, hcolumn⟩ := opener?_inside htop hinside cfg.tab
  rw [← hcolumn]
  exact Focus.indent_closer cfg hr.no_continuation hr.leadingCloser? hsight hs

end Block

namespace Settles

variable {cfg : Config} {depth : Nat} {cs : List Char}

theorem nil (column : Nat) : Settles cfg column [] column :=
  fun above _ hcolumn => ⟨.nil, .refl above, hcolumn⟩

theorem append {before between after : Nat} {xs ys : List (Nat × List Char)}
    (hx : Settles cfg before xs between) (hy : Settles cfg between ys after) :
    Settles cfg before (xs ++ ys) after := by
  intro above first hcolumn
  have hxs := hx above first hcolumn
  have hys := hy _ (first + xs.length) hxs.follow
  constructor
  · exact hxs.placed.append hys.placed
  · rw [placedBelow_append]
    exact hys.openers.trans hxs.openers
  · rw [placedBelow_append]
    exact hys.follow

theorem blank (h : Line.isBlank ⟨.code, cs⟩ = true) (column : Nat) :
    Settles cfg column [(depth, cs)] column := by
  intro above first hcolumn
  have hblank : (placedRow cfg.unit first (depth, cs)).isBlank = true :=
    (Line.isBlank_setIndentation ⟨.code, cs⟩ _).trans h
  have hplaced := reindented_of_isBlank cfg above first rfl h (depth * cfg.unit)
  refine ⟨.cons hplaced .nil, ?_, ?_⟩
  · intro b hb pending
    exact Row.openers_level hb (Line.leftOpen?_of_isBlank hblank) pending above
  · exact (followColumn_cons_blank cfg hblank above).trans hcolumn

/-- A plain line or a directive, which comes one unit back where it ends a branch. -/
theorem level (h : Line.IsLevel ⟨.code, cs⟩) (hfits : depth * cfg.unit < signBound) {column : Nat}
    (hcolumn : (if Line.closesBranch ⟨.code, cs⟩ then column - cfg.unit else column) = depth * cfg.unit) :
    Settles cfg column [(depth, cs)]
      (shifted (depth * cfg.unit) (if Line.opensBranch ⟨.code, cs⟩ then 1 else 0) cfg.unit) := by
  intro above first hfollow
  have hrow : (placedRow cfg.unit first (depth, cs)).IsLevel := h.setIndentation _
  have hindent : Focus.indent cfg ⟨above, Row.of first ⟨.code, cs⟩⟩ = depth * cfg.unit := by
    rw [← hcolumn, ← hfollow]
    split
    · next hbranch => exact Focus.indent_branchEnd cfg h.no_continuation h.no_closer hbranch
    · next hbranch =>
      exact Focus.indent_ordinary cfg h.no_continuation h.no_closer (Bool.eq_false_iff.mpr hbranch)
  refine ⟨.cons (reindented_of_indent cfg above first rfl h.content hindent) .nil, ?_, ?_⟩
  · intro b hb pending
    exact Row.openers_level hb hrow.level pending above
  · have hcloser : (placedRow cfg.unit first (depth, cs)).leadsWithCloser = false := by
      rw [Line.leadsWithCloser_eq, hrow.no_closer]
      rfl
    rw [placedBelow, placedBelow, followColumn_cons cfg hrow.content,
      Focus.follow_column_level cfg hrow.no_continuation hcloser hrow.level]
    simp only [placedRow, Row.of, Line.indentation_setIndentation h.content
      (Nat.lt_trans hfits signBound_lt_size), Line.opensBranch_setIndentation]

theorem plain (h : Line.IsPlain ⟨.code, cs⟩) (hfits : depth * cfg.unit < signBound) :
    Settles cfg (depth * cfg.unit) [(depth, cs)] (depth * cfg.unit) := by
  obtain ⟨hopens, hcloses⟩ := h.no_branch
  have hlevel : Settles cfg (depth * cfg.unit) [(depth, cs)] _ :=
    level h.isLevel hfits (by simp [hcloses])
  rw [hopens] at hlevel
  simpa [shifted_zero hfits] using hlevel

/-- A directive, where `column` is the one for ordinary lines in its place. -/
theorem directive {d : Directive} (h : Line.IsDirective d ⟨.code, cs⟩)
    (hfits : depth * cfg.unit < signBound) {column : Nat}
    (hcolumn : (if d.closesBranch then column - cfg.unit else column) = depth * cfg.unit) :
    Settles cfg column [(depth, cs)]
      (shifted (depth * cfg.unit) (if d.opensBranch then 1 else 0) cfg.unit) := by
  rw [← h.closesBranch] at hcolumn
  rw [← h.opensBranch]
  exact level h.isLevel hfits hcolumn

/-- A branch, from the directive that opens it to the end of its body. -/
theorem branch {d : Directive} (h : Line.IsDirective d ⟨.code, cs⟩) (hopens : d.opensBranch = true)
    (hfits : depth * cfg.unit < signBound) {column : Nat}
    (hcolumn : (if d.closesBranch then column - cfg.unit else column) = depth * cfg.unit)
    {body : List (Nat × List Char)}
    (hbody : Settles cfg (shifted (depth * cfg.unit) 1 cfg.unit) body
      (shifted (depth * cfg.unit) 1 cfg.unit)) :
    Settles cfg column ((depth, cs) :: body) (shifted (depth * cfg.unit) 1 cfg.unit) := by
  have hfirst := directive h hfits hcolumn
  rw [hopens] at hfirst
  exact hfirst.append hbody

theorem branchEnd (h : Line.IsDirective .endif ⟨.code, cs⟩)
    (hfits : depth * cfg.unit + cfg.unit < signBound) :
    Settles cfg (shifted (depth * cfg.unit) 1 cfg.unit) [(depth, cs)] (depth * cfg.unit) := by
  have hown : depth * cfg.unit < signBound := Nat.lt_of_le_of_lt (Nat.le_add_right _ _) hfits
  have hlast := directive h hown (shifted_one_sub hfits)
  rwa [if_neg (by decide), shifted_zero hown] at hlast

/-- A block around lines that stay on their level. -/
theorem block {b : Bracket} {opener closer : List Char} (hopener : Line.IsOpener b ⟨.code, opener⟩)
    (hcloser : Line.IsCloser b ⟨.code, closer⟩) (hfits : depth * cfg.unit < signBound)
    {body : List (Nat × List Char)}
    (hbody : Settles cfg (shifted (depth * cfg.unit) 1 cfg.unit) body
      (shifted (depth * cfg.unit) 1 cfg.unit)) :
    Settles cfg (depth * cfg.unit) ((depth, opener) :: body ++ [(depth, closer)])
      (depth * cfg.unit) := by
  intro above first hfollow
  have htop : (placedRow cfg.unit first (depth, opener)).IsOpener b := hopener.setIndentation _
  have hcolumn : (placedRow cfg.unit first (depth, opener)).indentation cfg.tab = depth * cfg.unit :=
    Line.indentation_setIndentation hopener.content (Nat.lt_trans hfits signBound_lt_size) _
  have hinside := (followColumn_opener cfg htop above).trans (by rw [hcolumn])
  have hsettled := hbody _ (first + 1) hinside
  have hsight := isSome_nearest?_placedBelow cfg.unit (isSome_nearest?_cons htop.content above)
    (first + 1) body
  have hlast : (placedRow cfg.unit (first + 1 + body.length) (depth, closer)).IsCloser b :=
    hcloser.setIndentation _
  have hfirst : Focus.indent cfg ⟨above, Row.of first ⟨.code, opener⟩⟩ = depth * cfg.unit := by
    rw [← hfollow]
    exact Focus.indent_ordinary cfg hopener.no_continuation hopener.leadingCloser? hopener.no_branch.2
  constructor
  · refine .cons (reindented_of_indent cfg above first rfl hopener.content hfirst) ?_
    refine hsettled.placed.append (.cons ?_ .nil)
    apply reindented_of_indent cfg _ _ rfl hcloser.content
    exact (indent_closer cfg htop hsettled.openers hsight hcloser).trans hcolumn
  · rw [List.cons_append, placedBelow, placedBelow_append]
    exact sameOpeners_closer htop hsettled.openers hlast
  · rw [List.cons_append, placedBelow, placedBelow_append]
    exact (followColumn_closer cfg htop hsettled.openers hlast).trans hcolumn

end Settles

namespace Outline

/-- No line is above the depth of the outline, and every line ends in code. -/
theorem of_mem_levels {o : Outline} {depth : Nat} {p : Nat × List Char} (h : p ∈ o.levels depth) :
    depth ≤ p.1 ∧ Line.next ⟨.code, p.2⟩ = .code := by
  induction o generalizing depth with
  | done => cases h
  | blank line rest ih =>
    rcases List.mem_cons.mp h with rfl | h
    · exact ⟨Nat.le_refl depth, Line.next_of_allWhite .code line.2⟩
    · exact ih h
  | plain line rest ih =>
    rcases List.mem_cons.mp h with rfl | h
    · exact ⟨Nat.le_refl depth, line.2.ends⟩
    · exact ih h
  | block b opener body closer rest ihbody ih =>
    simp only [levels, List.mem_append, List.mem_cons] at h
    rcases h with (rfl | h) | rfl | h
    · exact ⟨Nat.le_refl depth, opener.2.ends⟩
    · exact (ihbody h).imp_left Nat.le_of_succ_le
    · exact ⟨Nat.le_refl depth, closer.2.ends⟩
    · exact ih h
  | conditional first body last rest ihbody ih =>
    simp only [levels, List.mem_append, List.mem_cons] at h
    rcases h with (rfl | h) | rfl | h
    · exact ⟨Nat.le_refl depth, first.2.ends⟩
    · exact (ihbody h).imp_left Nat.le_of_succ_le
    · exact ⟨Nat.le_refl depth, last.2.ends⟩
    · exact ih h
  | alternative first body middle other last rest ihbody ihother ih =>
    simp only [levels, List.mem_append, List.mem_cons] at h
    rcases h with ((rfl | h) | rfl | h) | rfl | h
    · exact ⟨Nat.le_refl depth, first.2.ends⟩
    · exact (ihbody h).imp_left Nat.le_of_succ_le
    · exact ⟨Nat.le_refl depth, middle.2.ends⟩
    · exact (ihother h).imp_left Nat.le_of_succ_le
    · exact ⟨Nat.le_refl depth, last.2.ends⟩
    · exact ih h

/-- Every line with content has room, if ordinary lines stand at `column` where the outline starts, and
so has every branch. -/
def Fits (cfg : Config) (o : Outline) (depth column : Nat) : Prop :=
  ∀ p ∈ o.levels depth, allWhite p.2 = false →
    column = depth * cfg.unit ∧ reach p * cfg.unit < signBound

theorem Fits.line {cfg : Config} {o : Outline} {depth column : Nat} (h : o.Fits cfg depth column)
    {p : Nat × List Char} (hp : p ∈ o.levels depth) (hcontent : allWhite p.2 = false) :
    column = depth * cfg.unit ∧ p.1 * cfg.unit < signBound := by
  obtain ⟨hcolumn, hreach⟩ := h p hp hcontent
  exact ⟨hcolumn, Nat.lt_of_le_of_lt (Nat.mul_le_mul_right _ (Nat.le_add_right _ _)) hreach⟩

/-- Below a directive that opens a branch there is room for one unit more. -/
theorem Fits.branch {cfg : Config} {o : Outline} {depth column : Nat} (h : o.Fits cfg depth column)
    (first : LineWith (Line.IsDirective .ifBranch)) (hfirst : (depth, first.1) ∈ o.levels depth) :
    column = depth * cfg.unit ∧ depth * cfg.unit + cfg.unit < signBound := by
  obtain ⟨hcolumn, hreach⟩ := h _ hfirst first.2.content
  have hopens : Line.opensBranch ⟨.code, first.1⟩ = true := first.2.opensBranch
  simp only [reach, hopens, if_true, Nat.succ_mul] at hreach
  exact ⟨hcolumn, hreach⟩

theorem Fits.rest {cfg : Config} {o rest : Outline} {depth column : Nat} (h : o.Fits cfg depth column)
    (hsub : rest.levels depth ⊆ o.levels depth) : rest.Fits cfg depth column :=
  fun p hp => h p (hsub hp)

/-- A body that holds content starts one unit deeper than the lines around it. -/
theorem Fits.body {cfg : Config} {o body : Outline} {depth column : Nat} (h : o.Fits cfg depth column)
    (hsub : body.levels (depth + 1) ⊆ o.levels depth) :
    body.Fits cfg (depth + 1) (shifted (depth * cfg.unit) 1 cfg.unit) := by
  intro p hp hcontent
  have hline := (h.line (hsub hp) hcontent).2
  have hdepth := Nat.mul_le_mul_right cfg.unit (of_mem_levels hp).1
  rw [Nat.succ_mul] at hdepth
  refine ⟨?_, (h p (hsub hp) hcontent).2⟩
  rw [Nat.succ_mul]
  exact shifted_one (by omega)

/-- An outline settles wherever it has room. Every item hands on the column it was given. A body of
blank lines alone may start anywhere, so the column is not tied to the depth. -/
theorem settles {cfg : Config} {o : Outline} {depth column : Nat} (h : o.Fits cfg depth column) :
    Settles cfg column (o.levels depth) column := by
  induction o generalizing depth column with
  | done => exact .nil column
  | blank line rest ih =>
    have hrest := ih (h.rest (List.subset_cons_self _ _))
    exact (Settles.blank line.2 column).append hrest
  | plain line rest ih =>
    have hrest := ih (h.rest (List.subset_cons_self _ _))
    obtain ⟨rfl, hfits⟩ := h.line List.mem_cons_self line.2.content
    exact (Settles.plain line.2 hfits).append hrest
  | block b opener body closer rest ihbody ih =>
    have hbody := ihbody (h.body fun p hp => by simp [levels, hp])
    have hrest := ih (h.rest fun p hp => by simp [levels, hp])
    obtain ⟨rfl, hfits⟩ := h.line (p := (depth, opener.1)) (by simp [levels]) opener.2.content
    have hblock := (Settles.block opener.2 closer.2 hfits hbody).append hrest
    rwa [List.append_assoc] at hblock
  | conditional first body last rest ihbody ih =>
    have hbody := ihbody (h.body fun p hp => by simp [levels, hp])
    have hrest := ih (h.rest fun p hp => by simp [levels, hp])
    obtain ⟨rfl, hfits⟩ := h.branch first (by simp [levels])
    have hif := Settles.branch first.2 rfl (Nat.lt_of_add_right_lt hfits) rfl hbody
    exact hif.append ((Settles.branchEnd last.2 hfits).append hrest)
  | alternative first body middle other last rest ihbody ihother ih =>
    have hbody := ihbody (h.body fun p hp => by simp [levels, hp])
    have hother := ihother (h.body fun p hp => by simp [levels, hp])
    have hrest := ih (h.rest fun p hp => by simp [levels, hp])
    obtain ⟨rfl, hfits⟩ := h.branch first (by simp [levels])
    have hown := Nat.lt_of_add_right_lt hfits
    have hif := Settles.branch first.2 rfl hown rfl hbody
    have helse := Settles.branch middle.2 rfl hown (shifted_one_sub hfits) hother
    exact (hif.append helse).append ((Settles.branchEnd last.2 hfits).append hrest)

theorem le_maxDepth {o : Outline} {p : Nat × List Char} (hp : p ∈ o.levels 0)
    (hcontent : allWhite p.2 = false) : reach p ≤ o.maxDepth := by
  have hmem : reach p ∈ ((o.levels 0).filter fun p => !allWhite p.2).map reach :=
    List.mem_map_of_mem (List.mem_filter.mpr ⟨hp, by rw [hcontent]; rfl⟩)
  exact List.le_max_of_le hmem (Nat.le_refl _)

/-- An outline fits a buffer of its own, if its deepest line does. -/
theorem fits_of_maxDepth {cfg : Config} {o : Outline} (h : o.maxDepth * cfg.unit < signBound) :
    o.Fits cfg 0 0 := by
  intro p hp hcontent
  refine ⟨(Nat.zero_mul cfg.unit).symm, ?_⟩
  calc reach p * cfg.unit
      ≤ o.maxDepth * cfg.unit := Nat.mul_le_mul_right _ (le_maxDepth hp hcontent)
    _ < signBound := h

/-- A text whose lines all end in code. -/
theorem linesFrom_code {lines : List (Nat × List Char)}
    (h : ∀ p ∈ lines, Line.next ⟨.code, p.2⟩ = .code) :
    linesFrom .code (lines.map Prod.snd) = lines.map fun p => ⟨.code, p.2⟩ := by
  induction lines with
  | nil => rfl
  | cons p rest ih =>
    rw [List.forall_mem_cons] at h
    rw [List.map_cons, List.map_cons, linesFrom, h.1, ih h.2]

theorem lines_reindent {cfg : Config} {o : Outline} (h : o.Fits cfg 0 0) :
    ((Buffer.ofLines o.lines).reindent cfg).lines =
      (o.levels 0).map fun p => ⟨.code, withIndent (p.1 * cfg.unit) p.2⟩ := by
  have hlines : (Buffer.ofLines o.lines).lines = (o.levels 0).map fun p => ⟨.code, p.2⟩ :=
    linesFrom_code fun p hp => (of_mem_levels hp).2
  have hplaced := (settles h [] 0 rfl).placed.reindentBelow_eq
  rw [Buffer.reindent_eq, Buffer.rows_eq, hlines, hplaced, map_toLine_rowsFrom]
  rfl

/-- Every line of a structured file is placed at its depth, and a line with content has as many
units of indentation as its depth says. -/
theorem reindent_levels (cfg : Config) (o : Outline) (h : o.maxDepth * cfg.unit < signBound) :
    ((Buffer.ofLines o.lines).reindent cfg).lines =
      (o.levels 0).map (fun p => ⟨.code, withIndent (p.1 * cfg.unit) p.2⟩) ∧
    ∀ i d cs, (o.levels 0)[i]? = some (d, cs) → allWhite cs = false →
      ((Buffer.ofLines o.lines).reindent cfg).indentation i cfg.tab = d * cfg.unit := by
  have hfits := fits_of_maxDepth h
  have hlines := lines_reindent hfits
  refine ⟨hlines, ?_⟩
  intro i d cs hi hcontent
  have hplaced : ((Buffer.ofLines o.lines).reindent cfg).lines[i]? =
      some (Line.setIndentation ⟨.code, cs⟩ (d * cfg.unit)) := by
    rw [hlines, List.getElem?_map, hi]
    rfl
  have hblank : Line.isBlank ⟨.code, cs⟩ = false := hcontent
  have hline := (hfits.line (List.mem_of_getElem? hi) hcontent).2
  simp only [Buffer.indentation, hplaced]
  exact Line.indentation_setIndentation hblank (Nat.lt_trans hline signBound_lt_size) _

/-- A list inside a conditional, with margins that mislead. -/
def guardedList : Outline :=
  .alternative ⟨"\t#if __OSX__".toList, by decide, by decide, by decide⟩
    (.block .brace
      ⟨"      .Names = \x7b // two".toList, ⟨by decide, by decide, by decide, by decide, by decide⟩, rfl,
        (Line.core ⟨.code, "      .Names = \x7b // two".toList⟩).cells.take 9,
        (Line.core ⟨.code, "      .Names = \x7b // two".toList⟩).cells.drop 10,
        by decide, by decide, by decide⟩
      (.plain ⟨"'a', \x7b'b'\x7d".toList,
          ⟨by decide, by decide, by decide, by decide, by decide⟩, by decide⟩
        (.blank ⟨" \t ".toList, by decide⟩ .done))
      ⟨"  \x7d".toList, rfl, by decide, [], by decide, by decide⟩ .done)
    ⟨"#else".toList, by decide, by decide, by decide⟩ .done
    ⟨"    #endif".toList, by decide, by decide, by decide⟩ .done

theorem reindent_levels_guardedList :
    guardedList.maxDepth * Config.standard.unit < signBound ∧
    ((Buffer.ofLines guardedList.lines).reindent Config.standard).lines.map Line.chars =
      ["#if __OSX__", "    .Names = \x7b // two", "        'a', \x7b'b'\x7d", "", "    \x7d", "#else",
        "#endif"].map String.toList ∧
    ((Buffer.ofLines guardedList.lines).reindent Config.standard).indentation 2 Config.standard.tab =
      2 * Config.standard.unit := by
  have hfits : guardedList.maxDepth * Config.standard.unit < signBound := by decide
  obtain ⟨hlines, hcolumns⟩ := reindent_levels Config.standard guardedList hfits
  refine ⟨hfits, ?_, hcolumns 2 2 _ rfl (by decide)⟩
  rw [hlines]
  decide

end Outline

end BffLayout
