import BffLayout.Proofs.Nesting

/-!
Kinds of lines in a structured file: plain lines, the lines that open and close a block, and the
directives of a conditional. Each kind is a property of the content, so that a line keeps its kind
when it is placed.
-/
namespace BffLayout

/-- White characters and comments say nothing. -/
def Cell.isRemark (x : Cell) : Bool :=
  isWhite x.char || x.kind == .lineComment || x.kind == .blockComment

theorem Cell.kind_of_isRemark {x : Cell} (h : x.isRemark = true) (hwhite : isWhite x.char = false) :
    x.kind = .lineComment ∨ x.kind = .blockComment := by
  simpa [isRemark, hwhite] using h

/-- The code among the cells. -/
def codeOf (cells : List Cell) : List Char := (cells.filter fun x => x.kind == .code).map Cell.char

theorem map_snd_code (cells : List Cell) (first : Nat) :
    ((cells.zipIdx first).filterMap fun (cell, column) =>
      if cell.kind = .code then some (column, cell.char) else none).map Prod.snd = codeOf cells := by
  induction cells generalizing first with
  | nil => rfl
  | cons x rest ih =>
    rw [List.zipIdx_cons]
    by_cases hx : x.kind = .code
    · simp [hx, codeOf, ih]
    · simp [hx, codeOf, ih]

/-- Code in a remark is white. -/
theorem isWhite_of_mem_codeOf {cells : List Cell} (h : ∀ x ∈ cells, x.isRemark = true) {c : Char}
    (hc : c ∈ codeOf cells) : isWhite c = true := by
  obtain ⟨x, hx, rfl⟩ := List.mem_map.mp hc
  obtain ⟨hmem, hkind⟩ := List.mem_filter.mp hx
  have hremark := h x hmem
  simp only [beq_iff_eq] at hkind
  simpa [Cell.isRemark, hkind] using hremark

namespace Line

/-- A line that holds something, ends in code and starts neither like a continuation nor like a
closer, and that is no directive of a conditional. -/
structure IsItem (l : Line) : Prop where
  content : l.isBlank = false
  ends : l.next = .code
  no_continuation : l.isContinuation = false
  no_closer : l.leadsWithCloser = false
  no_branch : l.opensBranch = false ∧ l.closesBranch = false

/-- An item whose brackets are properly nested and closed on the line. -/
structure IsPlain (l : Line) : Prop extends IsItem l where
  level : l.leftOpen? = some []

/-- An item that leaves one nesting bracket open, with only white characters and comments behind. -/
structure IsOpener (b : Bracket) (l : Line) : Prop extends IsItem l where
  nests : b.nests = true
  opens : ∃ before after, l.core.cells = before ++ ⟨b.opener, .code⟩ :: after ∧
    nest (codeOf before) = some [] ∧ ∀ x ∈ after, x.isRemark = true

/-- A nesting closer with only white characters and comments behind. -/
structure IsCloser (b : Bracket) (l : Line) : Prop where
  nests : b.nests = true
  ends : l.next = .code
  closes : ∃ after, l.core.cells = ⟨b.closer, .code⟩ :: after ∧ ∀ x ∈ after, x.isRemark = true

/-- A directive whose brackets are properly nested and closed on the line. -/
structure IsDirective (d : Directive) (l : Line) : Prop where
  directive : l.directive? = some d
  ends : l.next = .code
  level : l.leftOpen? = some []

/-- The code of a line around one of its characters. -/
theorem codeChars_split {l : Line} {before after : List Cell} {c : Char}
    (h : l.cells = before ++ ⟨c, .code⟩ :: after) :
    ∃ pre post, l.codeChars = pre ++ (before.length, c) :: post ∧
      pre.map Prod.snd = codeOf before ∧ post.map Prod.snd = codeOf after := by
  refine ⟨_, _, ?_, map_snd_code before 0, map_snd_code after (before.length + 1)⟩
  rw [codeChars, h, List.zipIdx_append, List.zipIdx_cons, List.filterMap_append, Nat.zero_add]
  rfl

/-- Nothing comes after a character that a remark follows. -/
theorem contentAfter?_remark {l : Line} {before after : List Cell} {c : Char}
    (h : l.cells = before ++ ⟨c, .code⟩ :: after) (hafter : ∀ x ∈ after, x.isRemark = true) :
    l.contentAfter? before.length = none := by
  have hdrop : l.cells.zipIdx.drop (before.length + 1) = after.zipIdx (before.length + 1) := by
    rw [h, List.zipIdx_append, List.zipIdx_cons, Nat.zero_add, ← List.drop_drop,
      List.drop_left' List.length_zipIdx]
    rfl
  unfold contentAfter?
  rw [hdrop]
  split
  · next cell content hfind =>
    have hwhite : isWhite cell.char = false := by simpa using List.find?_some hfind
    have hremark := hafter cell (List.fst_mem_of_mem_zipIdx (List.mem_of_find?_eq_some hfind))
    rcases Cell.kind_of_isRemark hremark hwhite with hkind | hkind <;> rw [hkind]
  · rfl

/-- Of the code after the character only white characters are left. -/
theorem filter_codeChars_split {l : Line} {pre post : List (Nat × Char)} {x : Nat × Char}
    (h : l.codeChars = pre ++ x :: post) (hpost : ∀ c ∈ post.map Prod.snd, isWhite c = true)
    {p : Nat × Char → Bool} (hp : ∀ y, isWhite y.2 = true → p y = false) (hx : p x = true) :
    l.codeChars.filter p = pre.filter p ++ [x] := by
  have hwhite : post.filter p = [] := by
    rw [List.filter_eq_nil_iff]
    intro y hy
    simp [hp y (hpost y.2 (List.mem_map_of_mem hy))]
  rw [h, List.filter_append, List.filter_cons_of_pos hx, hwhite]

theorem foldl_pushBracket_white {cs : List (Nat × Char)} (left : List (Bracket × Nat))
    (h : ∀ c ∈ cs.map Prod.snd, isWhite c = true) : cs.foldl pushBracket left = left := by
  induction cs with
  | nil => rfl
  | cons x rest ih =>
    rw [List.map_cons, List.forall_mem_cons] at h
    rw [List.foldl_cons, pushBracket_white left h.1, ih h.2]

namespace IsOpener

variable {b : Bracket} {l : Line}

/-- The open bracket is the last bracket and the last of the code, and nothing comes after it. -/
theorem exists_column (h : l.IsOpener b) :
    ∃ inner j, l.core.brackets = inner ++ [(j, b.opener)] ∧ nest (inner.map Prod.snd) = some [] ∧
      l.core.trailing? = some (j, b.opener) ∧ l.core.openBrackets = [(b, j)] ∧
      l.core.contentAfter? j = none := by
  obtain ⟨before, after, hcells, hnest, hremark⟩ := h.opens
  obtain ⟨pre, post, hsplit, hpre, hpost⟩ := codeChars_split hcells
  have hwhite : ∀ c ∈ post.map Prod.snd, isWhite c = true := by
    rw [hpost]
    exact fun c hc => isWhite_of_mem_codeOf hremark hc
  have hbrackets : l.core.brackets =
      (pre.filter fun p => isBracket p.2) ++ [(before.length, b.opener)] :=
    filter_codeChars_split hsplit hwhite (fun y hy => isBracket_white hy) b.isBracket_opener
  have hink : l.core.ink = (pre.filter fun p => !isWhite p.2) ++ [(before.length, b.opener)] :=
    filter_codeChars_split hsplit hwhite (fun y hy => by simp [hy]) (by simp [b.isWhite_opener])
  have hinner : (pre.filter fun p => isBracket p.2).map Prod.snd =
      (codeOf before).filter isBracket := by
    rw [← hpre, List.filter_map]
    rfl
  have hpairs : pre.foldl pushBracket [] = [] := by
    rw [← hpre] at hnest
    exact List.map_eq_nil_iff.mp (map_foldl_pushBracket hnest)
  refine ⟨_, _, hbrackets, ?_, ?_, ?_, contentAfter?_remark hcells hremark⟩
  · rw [hinner, nest_filter, hnest]
  · rw [trailing?_eq, hink, List.getLast?_concat]
  · rw [openBrackets, hsplit, List.foldl_append, hpairs, List.foldl_cons,
      foldl_pushBracket_white _ hwhite]
    simp only [pushBracket, nestingOpener?_eq_some_iff.mpr ⟨rfl, h.nests⟩]

theorem leftOpen? (h : l.IsOpener b) : l.leftOpen? = some [b] := by
  obtain ⟨inner, j, hbrackets, hnest, -⟩ := h.exists_column
  rw [← leftOpen?_core, leftOpen?_eq, hbrackets, List.map_append, List.map_singleton, nest_concat,
    hnest, Option.bind_some, nestStep_opener h.nests]

theorem openColumn? (h : l.IsOpener b) (tab : Nat) : l.openColumn? tab = none := by
  obtain ⟨inner, j, -, -, -, hopen, hafter⟩ := h.exists_column
  simp only [openColumn?_core, hopen, hafter, Option.map_none]

theorem depthChange (h : l.IsOpener b) : l.depthChange = 1 := by
  rw [depthChange_of_leftOpen? h.leftOpen?, h.no_branch.1]
  rfl

end IsOpener

namespace IsCloser

variable {b : Bracket} {l : Line}

theorem leading? (h : l.IsCloser b) : l.core.leading? = some (0, b.closer) := by
  obtain ⟨after, hcells, -⟩ := h.closes
  have hwhite := b.isWhite_closer
  simp [Line.leading?, first?, hcells, hwhite]

theorem leadingCloser? (h : l.IsCloser b) : l.leadingCloser? = some b := by
  rw [← leadingCloser?_core, Line.leadingCloser?, h.leading?]
  exact nestingCloser?_eq_some_iff.mpr ⟨rfl, h.nests⟩

theorem no_continuation (h : l.IsCloser b) : l.isContinuation = false := by
  rw [← isContinuation_core, isContinuation, leadsWith, h.leading?]
  cases b <;> rfl

theorem content (h : l.IsCloser b) : l.isBlank = false := by
  rw [← isBlank_core]
  exact isBlank_of_leading? h.leading?

/-- The closer is the only bracket of its line. -/
theorem brackets (h : l.IsCloser b) : l.core.brackets = [(0, b.closer)] := by
  obtain ⟨after, hcells, hremark⟩ := h.closes
  obtain ⟨pre, post, hsplit, hpre, hpost⟩ := codeChars_split (hcells.trans (List.nil_append _).symm)
  have hwhite : ∀ c ∈ post.map Prod.snd, isWhite c = true := by
    rw [hpost]
    exact fun c hc => isWhite_of_mem_codeOf hremark hc
  have hnil : pre = [] := List.map_eq_nil_iff.mp hpre
  have hfilter := filter_codeChars_split hsplit hwhite (fun y hy => isBracket_white hy)
    b.isBracket_closer
  rw [hnil] at hfilter
  exact hfilter

end IsCloser

namespace IsDirective

variable {d : Directive} {l : Line}

theorem exists_leading (h : l.IsDirective d) : ∃ column, l.leading? = some (column, '#') := by
  have hdirective := h.directive
  unfold directive? at hdirective
  split at hdirective
  · next column hlead => exact ⟨column, hlead⟩
  · cases hdirective

theorem content (h : l.IsDirective d) : l.isBlank = false := by
  obtain ⟨column, hlead⟩ := h.exists_leading
  exact isBlank_of_leading? hlead

theorem no_continuation (h : l.IsDirective d) : l.isContinuation = false := by
  obtain ⟨column, hlead⟩ := h.exists_leading
  simp [isContinuation, leadsWith, hlead]

theorem leadingCloser? (h : l.IsDirective d) : l.leadingCloser? = none := by
  obtain ⟨column, hlead⟩ := h.exists_leading
  rw [Line.leadingCloser?, hlead]
  rfl

theorem opensBranch (h : l.IsDirective d) : l.opensBranch = d.opensBranch := by
  rw [Line.opensBranch, h.directive, Option.any_some]

theorem closesBranch (h : l.IsDirective d) : l.closesBranch = d.closesBranch := by
  rw [Line.closesBranch, h.directive, Option.any_some]

end IsDirective

/-- What plain lines and directives have in common. -/
structure IsLevel (l : Line) : Prop where
  content : l.isBlank = false
  no_continuation : l.isContinuation = false
  no_closer : l.leadingCloser? = none
  level : l.leftOpen? = some []

theorem IsItem.leadingCloser? {l : Line} (h : l.IsItem) : l.leadingCloser? = none := by
  have hcloser := h.no_closer
  rw [leadsWithCloser_eq] at hcloser
  exact Option.isNone_iff_eq_none.mp (Option.isSome_eq_false_iff.mp hcloser)

theorem IsPlain.isLevel {l : Line} (h : l.IsPlain) : l.IsLevel :=
  ⟨h.content, h.no_continuation, h.leadingCloser?, h.level⟩

theorem IsDirective.isLevel {d : Directive} {l : Line} (h : l.IsDirective d) : l.IsLevel :=
  ⟨h.content, h.no_continuation, h.leadingCloser?, h.level⟩

section SetIndentation

variable {l : Line} (n : Nat)

/-- A line keeps its kind when it is placed. -/
theorem IsItem.setIndentation (h : l.IsItem) : (l.setIndentation n).IsItem := by
  constructor <;> simp only [isBlank_setIndentation, next_setIndentation,
    isContinuation_setIndentation, leadsWithCloser_setIndentation, opensBranch_setIndentation,
    closesBranch_setIndentation]
  · exact h.content
  · exact h.ends
  · exact h.no_continuation
  · exact h.no_closer
  · exact h.no_branch

theorem IsLevel.setIndentation (h : l.IsLevel) : (l.setIndentation n).IsLevel := by
  constructor <;> simp only [isBlank_setIndentation, isContinuation_setIndentation,
    leadingCloser?_setIndentation, leftOpen?_setIndentation]
  · exact h.content
  · exact h.no_continuation
  · exact h.no_closer
  · exact h.level

theorem IsOpener.setIndentation {b : Bracket} (h : l.IsOpener b) : (l.setIndentation n).IsOpener b where
  toIsItem := h.toIsItem.setIndentation n
  nests := h.nests
  opens := by
    rw [core_setIndentation]
    exact h.opens

theorem IsCloser.setIndentation {b : Bracket} (h : l.IsCloser b) : (l.setIndentation n).IsCloser b where
  nests := h.nests
  ends := by rw [next_setIndentation, h.ends]
  closes := by
    rw [core_setIndentation]
    exact h.closes

end SetIndentation

end Line

namespace Row

variable {b : Bracket} {r : Row}

/-- The opener of the row is the first that a closer below meets, and the closer goes to the
indentation of the row. -/
theorem opener?_opener (h : r.IsOpener b) (above : List Row) (tab : Nat) :
    ∃ s, b.opener? (bracketsBack (r :: above)) = some s ∧ s.row = r ∧
      s.closerColumn tab = r.indentation tab := by
  obtain ⟨inner, j, hbrackets, -, -, -, hafter⟩ := h.exists_column
  obtain ⟨before, hback⟩ : ∃ before,
      bracketsBack (r :: above) = ⟨⟨r, r.margin + j⟩, b.opener⟩ :: before := by
    rw [bracketsBack_cons, brackets_core, hbrackets, List.map_append, List.reverse_append,
      List.append_assoc]
    exact ⟨_, rfl⟩
  refine ⟨⟨r, r.margin + j⟩, ?_, rfl, ?_⟩
  · rw [Bracket.opener?, hback, Bracket.openers_opener_zero rfl]
    rfl
  · simp only [Spot.closerColumn_ite, Line.contentAfter?_core, hafter, Option.map_none, Option.isSome_none,
      Bool.false_eq_true, if_false]

/-- The opener answers one closer of its kind and no other. -/
theorem openers_opener (h : r.IsOpener b) {k : Bracket} (hk : k.nests = true) (pending : Nat)
    (above : List Row) :
    k.openers (pending + [b].count k) (bracketsBack (r :: above)) =
      k.openers pending (bracketsBack above) := by
  have hnest : nest (textBack r.brackets.reverse) = some [b] := r.nest_brackets.trans h.leftOpen?
  rw [bracketsBack_cons, Bracket.openers_nest hk hnest (Nat.le_add_left _ _), Nat.add_sub_cancel]

theorem openers_closer (h : r.IsCloser b) (k : Bracket) (pending : Nat) (above : List Row) :
    k.openers pending (bracketsBack (r :: above)) =
      k.openers (pending + [b].count k) (bracketsBack above) := by
  rw [bracketsBack_cons, brackets_core, h.brackets, List.map_singleton, List.reverse_singleton,
    List.singleton_append]
  by_cases hk : b = k
  · rw [Bracket.openers_closer (congrArg Bracket.closer hk), hk, List.count_singleton_self]
  · rw [Bracket.openers_other (fun he => hk (Bracket.closer_inj he)) (b.closer_ne_opener k),
      List.count_singleton, if_neg (by simpa using hk)]
    rfl

end Row

namespace Focus

variable (cfg : Config) {f : Focus} {b : Bracket}

/-- Below an opener lines go one level deeper. -/
theorem follow_column_opener (h : f.row.IsOpener b) :
    (f.follow cfg).column cfg = shifted (f.row.indentation cfg.tab) 1 cfg.unit := by
  obtain ⟨inner, j, -, -, htrail, -⟩ := h.exists_column
  have hnone : f.trailingOpener? = none := by
    rw [trailingOpener?_eq, Line.trailing?_core, htrail, Option.map_some, Option.bind_some]
    show ((nestingCloser? b.opener).bind _) = none
    rw [nestingCloser?_opener]
    rfl
  simp only [follow_eq, h.no_continuation, h.no_closer, hnone, h.openColumn?, Bool.false_eq_true,
    if_false, Follow.column_nested, h.depthChange]

/-- Below a closer lines go back to the row of its opener. -/
theorem follow_column_closer (h : f.row.IsCloser b) {s : Spot}
    (hs : b.opener? (bracketsBack f.above) = some s) :
    (f.follow cfg).column cfg = s.row.indentation cfg.tab := by
  have hcloser : f.row.leadsWithCloser = true := by
    rw [Line.leadsWithCloser_eq, h.leadingCloser?]
    rfl
  simp only [follow_eq, h.no_continuation, hcloser, Bool.false_eq_true, if_false, if_true,
    leadingOpener?_eq, h.leadingCloser?, Option.bind_some, hs, Follow.column_afterLeadingCloser,
    Option.map_some, Option.getD_some]

end Focus

end BffLayout
