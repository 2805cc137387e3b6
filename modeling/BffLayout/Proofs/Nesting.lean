import BffLayout.Proofs.Lookback

/-!
Nesting of brackets. Braces and square brackets are properly nested when, read forwards, every
closer answers the innermost open bracket. Matching reads backwards and counts one kind at a time,
whatever stands between; over a properly nested text it passes from end to start without a stop.
-/
namespace BffLayout

/-- An opener is pushed, and a closer pops the bracket it answers, which must be on top. -/
def nestStep (stack : List Bracket) (c : Char) : Option (List Bracket) :=
  match nestingOpener? c, nestingCloser? c, stack with
  | some b, _, _ => some (b :: stack)
  | none, some b, top :: below => if top = b then some below else none
  | none, some _, [] => none
  | none, none, _ => some stack

/-- The nesting brackets that a text leaves open, innermost first; none if a closer does not answer
the innermost open bracket. -/
def nest (cs : List Char) : Option (List Bracket) := cs.foldlM nestStep []

@[simp] theorem nest_nil : nest [] = some [] := rfl

theorem nest_append (cs ds : List Char) : nest (cs ++ ds) = (nest cs).bind (ds.foldlM nestStep ·) :=
  List.foldlM_append

theorem nest_concat (cs : List Char) (c : Char) : nest (cs ++ [c]) = (nest cs).bind (nestStep · c) := by
  rw [nest_append]
  congr
  funext stack
  simp

theorem nestingOpener?_eq_some_iff {c : Char} {b : Bracket} :
    nestingOpener? c = some b ↔ c = b.opener ∧ b.nests = true := by
  rw [nestingOpener?, Option.filter_eq_some_iff, Bracket.ofOpener?_eq_some_iff]

theorem nestingCloser?_eq_some_iff {c : Char} {b : Bracket} :
    nestingCloser? c = some b ↔ c = b.closer ∧ b.nests = true := by
  rw [nestingCloser?, Option.filter_eq_some_iff, Bracket.ofCloser?_eq_some_iff]

theorem Bracket.closer_ne_opener (a b : Bracket) : a.closer ≠ b.opener := by
  cases a <;> cases b <;> decide

theorem Bracket.opener_inj {a b : Bracket} (h : a.opener = b.opener) : a = b := by
  have ha : ofOpener? a.opener = some a := ofOpener?_eq_some_iff.mpr rfl
  have hb : ofOpener? a.opener = some b := ofOpener?_eq_some_iff.mpr h
  exact Option.some.inj (ha.symm.trans hb)

theorem Bracket.closer_inj {a b : Bracket} (h : a.closer = b.closer) : a = b := by
  have ha : ofCloser? a.closer = some a := ofCloser?_eq_some_iff.mpr rfl
  have hb : ofCloser? a.closer = some b := ofCloser?_eq_some_iff.mpr h
  exact Option.some.inj (ha.symm.trans hb)

theorem nestingCloser?_opener (b : Bracket) : nestingCloser? b.opener = none := by
  cases b <;> rfl

theorem nestingOpener?_closer (b : Bracket) : nestingOpener? b.closer = none := by
  cases b <;> rfl

theorem nestStep_opener {b : Bracket} (hb : b.nests = true) (stack : List Bracket) :
    nestStep stack b.opener = some (b :: stack) := by
  simp only [nestStep, nestingOpener?_eq_some_iff.mpr ⟨rfl, hb⟩]

theorem nestStep_other {c : Char} (ho : nestingOpener? c = none) (hc : nestingCloser? c = none)
    (stack : List Bracket) : nestStep stack c = some stack := by
  simp only [nestStep, ho, hc]

/-- All that one character can do. -/
theorem nestStep_cases {stack after : List Bracket} {c : Char} (h : nestStep stack c = some after) :
    (∃ b, b.nests = true ∧ c = b.opener ∧ after = b :: stack) ∨
    (∃ b, b.nests = true ∧ c = b.closer ∧ stack = b :: after) ∨
    (nestingOpener? c = none ∧ nestingCloser? c = none ∧ after = stack) := by
  unfold nestStep at h
  split at h
  · next b ho =>
    obtain ⟨hc, hb⟩ := nestingOpener?_eq_some_iff.mp ho
    cases h
    exact .inl ⟨b, hb, hc, rfl⟩
  · next b top below _ hcloser =>
    obtain ⟨hc, hb⟩ := nestingCloser?_eq_some_iff.mp hcloser
    split at h
    · next htop =>
      cases h
      cases htop
      exact .inr (.inl ⟨_, hb, hc, rfl⟩)
    · cases h
  · cases h
  · next ho hc =>
    cases h
    exact .inr (.inr ⟨ho, hc, rfl⟩)

/-- The text of code that is given backwards. -/
def textBack (code : List CodeChar) : List Char := (code.map CodeChar.char).reverse

theorem textBack_cons (c : CodeChar) (before : List CodeChar) :
    textBack (c :: before) = textBack before ++ [c.char] := by
  simp [textBack]

namespace Bracket

/-- One character as seen by a bracket that is counted alone. -/
theorem count_nestStep {b : Bracket} (hb : b.nests = true) {c : Char} {stack after : List Bracket}
    (h : nestStep stack c = some after) :
    (c = b.opener ∧ after.count b = stack.count b + 1) ∨
    (c = b.closer ∧ stack.count b = after.count b + 1) ∨
    (c ≠ b.opener ∧ c ≠ b.closer ∧ after.count b = stack.count b) := by
  rcases nestStep_cases h with ⟨a, -, rfl, rfl⟩ | ⟨a, -, rfl, rfl⟩ | ⟨ho, hc, rfl⟩
  · by_cases hab : a = b
    · subst hab
      exact .inl ⟨rfl, List.count_cons_self⟩
    · refine .inr (.inr ⟨fun he => hab (opener_inj he), ?_, List.count_cons_of_ne hab⟩)
      exact fun he => closer_ne_opener b a he.symm
  · by_cases hab : a = b
    · subst hab
      exact .inr (.inl ⟨rfl, List.count_cons_self⟩)
    · refine .inr (.inr ⟨closer_ne_opener a b, fun he => hab (closer_inj he), ?_⟩)
      exact (List.count_cons_of_ne hab).symm
  · refine .inr (.inr ⟨?_, ?_, rfl⟩)
    · rintro rfl
      rw [nestingOpener?_eq_some_iff.mpr ⟨rfl, hb⟩] at ho
      cases ho
    · rintro rfl
      rw [nestingCloser?_eq_some_iff.mpr ⟨rfl, hb⟩] at hc
      cases hc

/-- Reading backwards over a text that leaves brackets open answers as many pending closers as
there are open brackets of their kind. An opener gives back what the pending count gained at the closer
that answers it, so the stack before each character bounds the count from below. -/
theorem openers_nest {b : Bracket} (hb : b.nests = true) {code : List CodeChar}
    {stack : List Bracket} (h : nest (textBack code) = some stack) {pending : Nat}
    (hp : stack.count b ≤ pending) (before : List CodeChar) :
    b.openers pending (code ++ before) = b.openers (pending - stack.count b) before := by
  induction code generalizing stack pending with
  | nil =>
    cases h
    rfl
  | cons c rest ih =>
    rw [textBack_cons, nest_concat] at h
    obtain ⟨s, hs, hstep⟩ := Option.bind_eq_some_iff.mp h
    rw [List.cons_append]
    rcases count_nestStep hb hstep with ⟨hc, hn⟩ | ⟨hc, hn⟩ | ⟨ho, hc, hn⟩
    · obtain ⟨q, rfl⟩ : ∃ q, pending = q + 1 := ⟨pending - 1, by omega⟩
      rw [openers_opener_succ hc, ih hs (by omega), hn, Nat.add_sub_add_right]
    · rw [openers_closer hc, ih hs (by omega), hn, Nat.add_sub_add_right]
    · rw [openers_other hc ho, ih hs (by omega), hn]

/-- A closer after a text that leaves a bracket of its kind open is answered within the text. -/
theorem exists_opener_nest {b : Bracket} (hb : b.nests = true) {code : List CodeChar}
    {stack : List Bracket} (h : nest (textBack code) = some stack) {pending : Nat}
    (hp : pending < stack.count b) (before : List CodeChar) :
    ∃ c ∈ code, (b.openers pending (code ++ before)).head?.map Prod.fst = some c := by
  induction code generalizing stack pending with
  | nil =>
    cases h
    cases hp
  | cons c rest ih =>
    rw [textBack_cons, nest_concat] at h
    obtain ⟨s, hs, hstep⟩ := Option.bind_eq_some_iff.mp h
    rw [List.cons_append]
    rcases count_nestStep hb hstep with ⟨hc, hn⟩ | ⟨hc, hn⟩ | ⟨ho, hc, hn⟩
    · cases pending with
      | zero => exact ⟨c, List.mem_cons_self, by rw [openers_opener_zero hc]; rfl⟩
      | succ q =>
        have hq : q < s.count b := by omega
        obtain ⟨d, hd, he⟩ := ih hs hq
        exact ⟨d, List.mem_cons_of_mem c hd, by rw [openers_opener_succ hc, he]⟩
    · have hq : pending + 1 < s.count b := by omega
      obtain ⟨d, hd, he⟩ := ih hs hq
      exact ⟨d, List.mem_cons_of_mem c hd, by rw [openers_closer hc, he]⟩
    · have hq : pending < s.count b := by omega
      obtain ⟨d, hd, he⟩ := ih hs hq
      exact ⟨d, List.mem_cons_of_mem c hd, by rw [openers_other hc ho, he]⟩

theorem opener?_nest {b : Bracket} (hb : b.nests = true) {code : List CodeChar}
    {stack : List Bracket} (h : nest (textBack code) = some stack) (hp : 0 < stack.count b)
    (before : List CodeChar) : ∃ c ∈ code, b.opener? (code ++ before) = some c.toSpot := by
  obtain ⟨c, hc, hfound⟩ := exists_opener_nest hb h hp before
  refine ⟨c, hc, ?_⟩
  obtain ⟨p, hp, rfl⟩ := Option.map_eq_some_iff.mp hfound
  rw [opener?, hp]
  rfl

end Bracket

theorem nestStep_of_not_isBracket {c : Char} (h : isBracket c = false) (stack : List Bracket) :
    nestStep stack c = some stack := by
  simp only [isBracket, Bool.or_eq_false_iff, Option.isSome_eq_false_iff, Option.isNone_iff_eq_none] at h
  apply nestStep_other
  · rw [nestingOpener?, h.1]
    rfl
  · rw [nestingCloser?, h.2]
    rfl

/-- Whatever is no bracket can be left out. -/
theorem nest_filter (cs : List Char) : nest (cs.filter isBracket) = nest cs := by
  unfold nest
  generalize ([] : List Bracket) = stack
  induction cs generalizing stack with
  | nil => rfl
  | cons c rest ih =>
    cases hc : isBracket c with
    | true =>
      rw [List.filter_cons_of_pos hc, List.foldlM_cons, List.foldlM_cons]
      congr
      funext after
      exact ih after
    | false =>
      rw [List.filter_cons_of_neg (by simp [hc]), List.foldlM_cons, nestStep_of_not_isBracket hc]
      exact ih stack

namespace Line

/-- The code of the line as a text. -/
def codeText (l : Line) : List Char := l.codeChars.map Prod.snd

/-- The brackets that the line leaves open, unless they are not properly nested. -/
def leftOpen? (l : Line) : Option (List Bracket) := nest l.codeText

theorem leftOpen?_eq (l : Line) : l.leftOpen? = nest (l.brackets.map Prod.snd) := by
  rw [leftOpen?, ← nest_filter, codeText, List.filter_map]
  rfl

@[simp] theorem leftOpen?_core (l : Line) : l.core.leftOpen? = l.leftOpen? := by
  rw [leftOpen?_eq, leftOpen?_eq, brackets_core l, List.map_map]
  rfl

@[simp] theorem leftOpen?_setIndentation (l : Line) (n : Nat) :
    (l.setIndentation n).leftOpen? = l.leftOpen? :=
  eq_of_core leftOpen?_core (core_setIndentation l n)

theorem leftOpen?_of_isBlank {l : Line} (h : l.isBlank = true) : l.leftOpen? = some [] := by
  rw [← leftOpen?_core, core_of_isBlank h]
  rfl

/-- The change of depth of a properly nested text is the number of brackets it leaves open. -/
theorem depthSum_nest {cs : List Char} {stack after : List Bracket}
    (h : cs.foldlM nestStep stack = some after) :
    depthSum cs = (after.length : Int) - stack.length := by
  induction cs generalizing stack with
  | nil =>
    cases h
    simp
  | cons c rest ih =>
    rw [List.foldlM_cons] at h
    obtain ⟨s, hs, hrest⟩ := Option.bind_eq_some_iff.mp h
    rw [depthSum_cons, ih hrest]
    rcases nestStep_cases hs with ⟨b, hb, rfl, rfl⟩ | ⟨b, hb, rfl, rfl⟩ | ⟨ho, hc, rfl⟩
    · rw [depthStep, nestingOpener?_eq_some_iff.mpr ⟨rfl, hb⟩]
      simp
      omega
    · rw [depthStep, nestingOpener?_closer, isNestingCloser, nestingCloser?_eq_some_iff.mpr ⟨rfl, hb⟩]
      simp
      omega
    · rw [depthStep, isNestingCloser, ho, hc]
      simp

theorem depthChange_of_leftOpen? {l : Line} {stack : List Bracket} (h : l.leftOpen? = some stack) :
    l.depthChange = signed 32 (stack.length + if l.opensBranch then 1 else 0) := by
  have hsum : depthSum l.codeText = (stack.length : Int) := by
    simpa using depthSum_nest h
  rw [depthChange_eq, ← codeText, hsum]

theorem map_pushBracket {left : List (Bracket × Nat)} {p : Nat × Char} {after : List Bracket}
    (h : nestStep (left.map Prod.fst) p.2 = some after) :
    (pushBracket left p).map Prod.fst = after := by
  rcases nestStep_cases h with ⟨b, hb, hp, rfl⟩ | ⟨b, hb, hp, hstack⟩ | ⟨ho, hc, rfl⟩
  · simp only [pushBracket, nestingOpener?_eq_some_iff.mpr ⟨hp, hb⟩, List.map_cons]
  · cases left with
    | nil => cases hstack
    | cons top rest =>
      obtain ⟨rfl, rfl⟩ := List.cons.inj hstack
      have ho : nestingOpener? p.2 = none := by rw [hp, nestingOpener?_closer]
      simp only [pushBracket, ho, nestingCloser?_eq_some_iff.mpr ⟨hp, hb⟩, if_true]
  · simp only [pushBracket, ho, hc]

theorem map_foldl_pushBracket {cs : List (Nat × Char)} {left : List (Bracket × Nat)}
    {after : List Bracket}
    (h : (cs.map Prod.snd).foldlM nestStep (left.map Prod.fst) = some after) :
    (cs.foldl pushBracket left).map Prod.fst = after := by
  induction cs generalizing left with
  | nil => exact Option.some.inj h
  | cons p rest ih =>
    rw [List.map_cons, List.foldlM_cons] at h
    obtain ⟨s, hs, hrest⟩ := Option.bind_eq_some_iff.mp h
    apply ih
    rw [map_pushBracket hs]
    exact hrest

/-- Pairing on the line itself finds the same brackets left open. -/
theorem openBrackets_of_leftOpen? {l : Line} {stack : List Bracket} (h : l.leftOpen? = some stack) :
    l.openBrackets.map Prod.fst = stack :=
  map_foldl_pushBracket h

/-- Code stands from left to right. -/
theorem pairwise_codeChars (l : Line) : l.codeChars.Pairwise fun p q => p.1 < q.1 := by
  have hcells : l.cells.zipIdx.Pairwise fun x y => x.2 < y.2 := by
    rw [← List.pairwise_map, List.zipIdx_map_snd]
    exact List.pairwise_lt_range'
  have hcolumn : ∀ (x : Cell × Nat) (p : Nat × Char),
      (if x.1.kind = .code then some (x.2, x.1.char) else none) = some p → p.1 = x.2 := by
    intro x p hp
    split at hp
    · cases hp
      rfl
    · cases hp
  refine hcells.filterMap _ ?_
  intro x y hxy p hp q hq
  rw [hcolumn x p hp, hcolumn y q hq]
  exact hxy

/-- A bracket at the end of the code is the last of the brackets. -/
theorem brackets_of_trailing? {l : Line} {column : Nat} {c : Char}
    (h : l.trailing? = some (column, c)) (hc : isBracket c = true) :
    ∃ inner, l.brackets = inner ++ [(column, c)] ∧ ∀ p ∈ inner, p.1 < column := by
  rw [trailing?_eq] at h
  obtain ⟨ink, hink⟩ := List.getLast?_eq_some_iff.mp h
  have hbrackets : l.brackets = (ink.filter fun p => isBracket p.2) ++ [(column, c)] := by
    rw [brackets_eq_ink, hink, List.filter_append]
    simp [hc]
  have hpairwise : l.brackets.Pairwise fun p q => p.1 < q.1 := l.pairwise_codeChars.filter _
  rw [hbrackets, List.pairwise_append] at hpairwise
  exact ⟨_, hbrackets, fun p hp => hpairwise.2.2 p hp _ List.mem_cons_self⟩

end Line

namespace Row

theorem textBack_brackets (r : Row) : textBack r.brackets.reverse = r.toLine.brackets.map Prod.snd := by
  rw [textBack, Row.brackets, r.marks_eq, List.map_reverse, List.reverse_reverse, List.map_map]
  rfl

theorem nest_brackets (r : Row) : nest (textBack r.brackets.reverse) = r.leftOpen? := by
  rw [textBack_brackets, ← Line.leftOpen?_eq]

/-- Matching passes over a row whose brackets are closed on the row itself. -/
theorem openers_level {b : Bracket} (hb : b.nests = true) {r : Row} (hr : r.leftOpen? = some [])
    (pending : Nat) (above : List Row) :
    b.openers pending (bracketsBack (r :: above)) = b.openers pending (bracketsBack above) := by
  have hnest : nest (textBack r.brackets.reverse) = some [] := r.nest_brackets.trans hr
  rw [bracketsBack_cons, Bracket.openers_nest hb hnest (Nat.zero_le pending)]
  rfl

end Row

namespace Focus

/-- The brackets of the row before its last one. -/
theorem bracketsBefore_last {f : Focus} {inner : List (Nat × Char)} {column : Nat} {c : Char}
    (h : f.row.toLine.brackets = inner ++ [(column, c)]) (hlt : ∀ p ∈ inner, p.1 < column) :
    f.bracketsBefore column =
      (inner.map fun p => (⟨⟨f.row, p.1⟩, p.2⟩ : CodeChar)).reverse ++ bracketsBack f.above := by
  have hown : (f.row.brackets.filter fun c => c.column < column) =
      inner.map fun p => (⟨⟨f.row, p.1⟩, p.2⟩ : CodeChar) := by
    rw [Row.brackets, f.row.marks_eq, h, List.map_append, List.filter_append, List.filter_eq_self.mpr]
    · simp
    · intro c hc
      obtain ⟨p, hp, rfl⟩ := List.mem_map.mp hc
      simpa using hlt p hp
  rw [bracketsBefore, hown]
  rfl

/-- A closer at the end of a row whose brackets are closed on the row is answered there. -/
theorem trailingOpener?_level {f : Focus} (h : f.row.leftOpen? = some []) : f.trailingOpener? = none := by
  rw [trailingOpener?_eq]
  cases htrail : f.row.trailing? with
  | none => rfl
  | some p =>
    obtain ⟨column, c⟩ := p
    simp only [Option.bind_some]
    cases hcloser : nestingCloser? c with
    | none => rfl
    | some b =>
      obtain ⟨rfl, hb⟩ := nestingCloser?_eq_some_iff.mp hcloser
      obtain ⟨inner, hinner, hlt⟩ := Line.brackets_of_trailing? htrail b.isBracket_closer
      rw [Line.leftOpen?_eq, hinner, List.map_append, List.map_singleton, nest_concat] at h
      obtain ⟨s, hs, hstep⟩ := Option.bind_eq_some_iff.mp h
      have hcount : 0 < s.count b := by
        rcases Bracket.count_nestStep hb hstep with ⟨he, -⟩ | ⟨-, hn⟩ | ⟨-, he, -⟩
        · exact absurd he (b.closer_ne_opener b)
        · omega
        · exact absurd rfl he
      have htext : textBack (inner.map fun p => (⟨⟨f.row, p.1⟩, p.2⟩ : CodeChar)).reverse =
          inner.map Prod.snd := by
        simp [textBack, Function.comp_def]
      rw [← htext] at hs
      obtain ⟨d, hd, hfound⟩ := Bracket.opener?_nest hb hs hcount (bracketsBack f.above)
      obtain ⟨q, -, rfl⟩ := List.mem_map.mp (List.mem_reverse.mp hd)
      simp [bracketsBefore_last hinner hlt, hfound, Option.filter]

/-- Below a row whose brackets are closed on the row itself only a branch goes deeper. -/
theorem follow_column_level (cfg : Config) {f : Focus} (hcont : f.row.isContinuation = false)
    (hcloser : f.row.leadsWithCloser = false) (h : f.row.leftOpen? = some []) :
    (f.follow cfg).column cfg =
      shifted (f.row.indentation cfg.tab) (if f.row.opensBranch then 1 else 0) cfg.unit := by
  have hopen : f.row.openColumn? cfg.tab = none := by
    have hnone := Line.openBrackets_of_leftOpen? h
    rw [List.map_eq_nil_iff] at hnone
    rw [Line.openColumn?_eq, Line.openContent?, hnone]
    rfl
  have hdepth : f.row.depthChange = if f.row.opensBranch then 1 else 0 := by
    rw [Line.depthChange_of_leftOpen? h]
    split <;> rfl
  simp only [follow_eq, hcont, hcloser, trailingOpener?_level h, hopen, Bool.false_eq_true, if_false,
    Follow.column_nested, hdepth]

end Focus

end BffLayout
