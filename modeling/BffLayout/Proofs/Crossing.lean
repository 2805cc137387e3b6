import BffLayout.Proofs.Cursor
import BffLayout.Proofs.Tracking

/-!
Pairs that do not cross. The brackets of a line are paired in two ways. A search backwards from a
closer counts its own kind only. The reading of a single line keeps one stack for braces and square
brackets together and passes over a closer that does not answer its top, so the stack can hold an
opener that the search has long paired. As long as no brace pair and square pair on the line cross,
such an opener stays buried below one that is still open. Both then agree on the innermost opener that the
line leaves open, whatever stray closers and open brackets the line has.
-/
namespace BffLayout

/-- The greatest member of an ascending list is its last one. -/
theorem getLast?_eq_of_le {ns : List Nat} (h : ns.Pairwise (· < ·)) {m : Nat} (hm : m ∈ ns)
    (hle : ∀ n ∈ ns, n ≤ m) : ns.getLast? = some m := by
  obtain ⟨last, hlast⟩ := Option.isSome_iff_exists.mp (List.getLast?_isSome.mpr (List.ne_nil_of_mem hm))
  obtain ⟨front, rfl⟩ := List.getLast?_eq_some_iff.mp hlast
  have hlastm := hle last (List.mem_append_right front List.mem_cons_self)
  rcases List.mem_append.mp hm with hfront | hlast'
  · have hlt := (List.pairwise_append.mp h).2.2 m hfront last List.mem_cons_self
    omega
  · rw [hlast, List.mem_singleton.mp hlast']

namespace Line

theorem pushBracket_opener {k : Bracket} (hk : k.nests = true) (stack : List (Bracket × Nat)) (n : Nat) :
    pushBracket stack (n, k.opener) = (k, n) :: stack := by
  simp only [pushBracket, nestingOpener?_eq_some_iff.mpr ⟨rfl, hk⟩]

/-- A closer is passed over by an empty stack. -/
theorem pushBracket_closer_nil (k : Bracket) (n : Nat) : pushBracket [] (n, k.closer) = [] := by
  cases k <;> rfl

theorem pushBracket_closer {k : Bracket} (hk : k.nests = true) (top : Bracket × Nat)
    (rest : List (Bracket × Nat)) (n : Nat) :
    pushBracket (top :: rest) (n, k.closer) = if top.1 = k then rest else top :: rest := by
  simp only [pushBracket, nestingOpener?_closer, nestingCloser?_eq_some_iff.mpr ⟨rfl, hk⟩]

theorem pushBracket_other {c : Char} (ho : nestingOpener? c = none) (hc : nestingCloser? c = none)
    (stack : List (Bracket × Nat)) (n : Nat) : pushBracket stack (n, c) = stack := by
  simp only [pushBracket, ho, hc]

/-- The brackets that the code before a column leaves open, innermost first. -/
def openBefore (l : Line) (n : Nat) : List (Bracket × Nat) :=
  (l.codeChars.filter fun p => p.1 < n).foldl pushBracket []

theorem openBefore_zero (l : Line) : l.openBefore 0 = [] := by
  simp [openBefore]

theorem openBefore_length (l : Line) : l.openBefore l.length = l.openBrackets := by
  rw [openBefore, openBrackets, List.filter_eq_self.mpr]
  intro p hp
  exact decide_eq_true (lt_length_of_getElem? (getElem?_of_mem_codeChars hp))

theorem openBefore_succ_code {l : Line} {n : Nat} {c : Char} (h : l.cells[n]? = some ⟨c, .code⟩) :
    l.openBefore (n + 1) = pushBracket (l.openBefore n) (n, c) := by
  have hlength : (l.cells.take n).length = n :=
    List.length_take_of_le (Nat.le_of_lt (List.getElem?_eq_some_iff.mp h).1)
  rw [openBefore, openBefore, filter_codeChars_lt, filter_codeChars_lt, List.take_add_one, h,
    List.zipIdx_append, hlength, List.filterMap_append, List.foldl_append]
  simp

theorem openBefore_succ_other {l : Line} {n : Nat} (h : ∀ c, l.cells[n]? ≠ some ⟨c, .code⟩) :
    l.openBefore (n + 1) = l.openBefore n := by
  rw [openBefore, openBefore]
  congr 1
  refine List.filter_congr ?_
  intro p hp
  have hne : p.1 ≠ n := by
    rintro rfl
    exact h p.2 (getElem?_of_mem_codeChars hp)
  exact decide_eq_decide.mpr (by omega)

end Line

namespace Buffer

/-- The code of a line with its columns; nothing if the line is missing. -/
def codeChars (b : Buffer) (index : Nat) : List (Nat × Char) :=
  match b.lines[index]? with
  | some l => l.codeChars
  | none => []

theorem mem_codeChars {b : Buffer} {index column : Nat} {c : Char} :
    (column, c) ∈ b.codeChars index ↔ b.cell? ⟨index, column⟩ = some ⟨c, .code⟩ := by
  rw [codeChars, cell?]
  cases b.lines[index]? with
  | none => simp
  | some l => exact ⟨Line.getElem?_of_mem_codeChars, Line.mem_codeChars⟩

/-- The column of the opener that the closer in a column answers, if it stands on the same line. -/
def partner? (b : Buffer) (index column : Nat) : Option Nat :=
  (b.matchingOpener? ⟨index, column⟩).bind fun q => if q.line = index then some q.column else none

theorem partner?_eq_some_iff {b : Buffer} {index column o : Nat} :
    b.partner? index column = some o ↔ b.matchingOpener? ⟨index, column⟩ = some ⟨index, o⟩ := by
  rw [partner?, Option.bind_eq_some_iff]
  constructor
  · rintro ⟨q, hq, ho⟩
    split at ho
    · next hline =>
      cases ho
      cases hline
      exact hq
    · cases ho
  · intro h
    exact ⟨_, h, if_pos rfl⟩

/-- The pairs of one kind on a line: the column of an opener and that of the closer that answers it. -/
def pairs (b : Buffer) (index : Nat) (k : Bracket) : List (Nat × Nat) :=
  (b.codeChars index).filterMap fun x =>
    if x.2 = k.closer then (b.partner? index x.1).map fun o => (o, x.1) else none

theorem mem_pairs {b : Buffer} {index : Nat} {k : Bracket} {o c : Nat}
    (hc : b.cell? ⟨index, c⟩ = some ⟨k.closer, .code⟩)
    (ho : b.matchingOpener? ⟨index, c⟩ = some ⟨index, o⟩) : (o, c) ∈ b.pairs index k := by
  refine List.mem_filterMap.mpr ⟨_, mem_codeChars.mpr hc, ?_⟩
  rw [if_pos rfl, partner?_eq_some_iff.mpr ho, Option.map_some]

end Buffer

/-- The second pair starts inside the first and ends outside. -/
def Crosses (x y : Nat × Nat) : Prop := x.1 < y.1 ∧ y.1 < x.2 ∧ x.2 < y.2
  deriving Decidable

namespace Buffer

/-- No pair of braces and pair of square brackets on the line cross. -/
def NoCrossing (b : Buffer) (index : Nat) : Prop :=
  ∀ x ∈ b.pairs index .brace, ∀ y ∈ b.pairs index .square, ¬Crosses x y ∧ ¬Crosses y x
  deriving Decidable

theorem NoCrossing.not_crosses {b : Buffer} {index : Nat} (h : b.NoCrossing index) {k k' : Bracket}
    (hk : k.nests = true) (hk' : k'.nests = true) (hne : k ≠ k') {x y : Nat × Nat}
    (hx : x ∈ b.pairs index k) (hy : y ∈ b.pairs index k') : ¬Crosses x y := by
  cases k <;> cases k' <;>
    simp only [Bracket.nests, Bool.false_eq_true, ne_eq, not_true_eq_false] at hk hk' hne
  · exact (h x hx y hy).1
  · exact (h y hy x hx).2

/-- The columns of the nesting openers that no closer on the same line answers, from left to right. -/
def unanswered (b : Buffer) (index : Nat) : List Nat :=
  ((b.codeChars index).filter fun x => (nestingOpener? x.2).isSome &&
    (b.codeChars index).all fun y => b.partner? index y.1 != some x.1).map Prod.fst

/-- How the stack of the line up to column `n` compares with those of the two kinds: it holds all
that they hold, and what it holds beyond that lies below an opener of the other kind which the closer
that answered it did not reach. -/
structure Holds (b : Buffer) (index n : Nat) (stack : List (Bracket × Nat)) : Prop where
  nests : ∀ x ∈ stack, x.1.nests = true
  bound : ∀ x ∈ stack, x.2 < n
  order : stack.Pairwise fun x y => y.2 < x.2
  live : ∀ k : Bracket, k.nests = true → ∀ t, ⟨index, t⟩ ∈ b.unclosed ⟨index, n⟩ k → (k, t) ∈ stack
  buried : ∀ x ∈ stack, ⟨index, x.2⟩ ∈ b.unclosed ⟨index, n⟩ x.1 ∨
    ∃ d < n, (x.2, d) ∈ b.pairs index x.1 ∧ ∃ y ∈ stack, y.1 ≠ x.1 ∧ x.2 < y.2 ∧ y.2 < d

namespace Holds

variable {b : Buffer} {index n : Nat} {stack : List (Bracket × Nat)}

theorem zero (b : Buffer) (index : Nat) : b.Holds index 0 [] where
  nests := by simp
  bound := by simp
  order := .nil
  live := by
    intro k _ t ht
    have hbefore := before_of_mem_unclosed ht
    simp only [Position.Before] at hbefore
    omega
  buried := by simp

/-- What is on top is open for its kind too. -/
theorem top_mem {top : Bracket × Nat} {rest : List (Bracket × Nat)} (h : b.Holds index n (top :: rest)) :
    ⟨index, top.2⟩ ∈ b.unclosed ⟨index, n⟩ top.1 := by
  rcases h.buried top List.mem_cons_self with hmem | ⟨d, -, -, y, hy, hne, hlt, -⟩
  · exact hmem
  · rcases List.mem_cons.mp hy with rfl | hy
    · exact absurd rfl hne
    · have hbelow := (List.pairwise_cons.mp h.order).1 y hy
      omega

/-- The top is the opener that a closer of its kind would answer. -/
theorem unclosed_eq_cons {top : Bracket × Nat} {rest : List (Bracket × Nat)}
    (h : b.Holds index n (top :: rest)) :
    ∃ below, b.unclosed ⟨index, n⟩ top.1 = ⟨index, top.2⟩ :: below := by
  have hmem := h.top_mem
  obtain ⟨q, below, hstack⟩ := List.exists_cons_of_ne_nil (List.ne_nil_of_mem hmem)
  refine ⟨below, ?_⟩
  have hq : q ∈ b.unclosed ⟨index, n⟩ top.1 := hstack ▸ List.mem_cons_self
  have hqn := before_of_mem_unclosed hq
  have hpairwise := b.pairwise_unclosed ⟨index, n⟩ top.1
  rw [hstack] at hmem hpairwise
  rcases List.mem_cons.mp hmem with rfl | hbelow
  · exact hstack
  · have hlater := (List.pairwise_cons.mp hpairwise).1 _ hbelow
    obtain ⟨line, column⟩ := q
    simp only [Position.Before] at hlater hqn
    obtain rfl : line = index := by omega
    have hcolumn := h.live top.1 (h.nests top List.mem_cons_self) column hq
    have hle : column ≤ top.2 := by
      rcases List.mem_cons.mp hcolumn with heq | hrest
      · exact Nat.le_of_eq (congrArg Prod.snd heq)
      · exact Nat.le_of_lt ((List.pairwise_cons.mp h.order).1 _ hrest)
    omega

/-- Nothing happens where no kind of bracket is changed. -/
theorem skip (h : b.Holds index n stack)
    (hsame : ∀ k : Bracket, k.nests = true → b.unclosed ⟨index, n + 1⟩ k = b.unclosed ⟨index, n⟩ k) :
    b.Holds index (n + 1) stack where
  nests := h.nests
  bound := fun x hx => Nat.lt_succ_of_lt (h.bound x hx)
  order := h.order
  live := by
    intro k hk t ht
    rw [hsame k hk] at ht
    exact h.live k hk t ht
  buried := by
    intro x hx
    rw [hsame x.1 (h.nests x hx)]
    rcases h.buried x hx with hmem | ⟨d, hd, hrest⟩
    · exact .inl hmem
    · exact .inr ⟨d, Nat.lt_succ_of_lt hd, hrest⟩

theorem push (h : b.Holds index n stack) {k : Bracket} (hk : k.nests = true)
    (hcell : b.cell? ⟨index, n⟩ = some ⟨k.opener, .code⟩) : b.Holds index (n + 1) ((k, n) :: stack) := by
  obtain ⟨hown, hother⟩ := unclosed_opener hcell
  have hmono : ∀ (k' : Bracket) (q : Position), q ∈ b.unclosed ⟨index, n⟩ k' →
      q ∈ b.unclosed ⟨index, n + 1⟩ k' := by
    intro k' q hq
    by_cases hkk : k' = k
    · subst hkk
      rw [hown]
      exact List.mem_cons_of_mem _ hq
    · rwa [hother k' hkk]
  refine ⟨?_, ?_, List.pairwise_cons.mpr ⟨h.bound, h.order⟩, ?_, ?_⟩
  · exact List.forall_mem_cons.mpr ⟨hk, h.nests⟩
  · exact List.forall_mem_cons.mpr ⟨Nat.lt_succ_self n, fun x hx => Nat.lt_succ_of_lt (h.bound x hx)⟩
  · intro k' hk' t ht
    by_cases hkk : k' = k
    · subst hkk
      rw [hown] at ht
      rcases List.mem_cons.mp ht with heq | ht
      · cases heq
        exact List.mem_cons_self
      · exact List.mem_cons_of_mem _ (h.live k' hk' t ht)
    · rw [hother k' hkk] at ht
      exact List.mem_cons_of_mem _ (h.live k' hk' t ht)
  · intro x hx
    rcases List.mem_cons.mp hx with rfl | hx
    · rw [hown]
      exact .inl List.mem_cons_self
    · rcases h.buried x hx with hmem | ⟨d, hd, hpair, y, hy, hover⟩
      · exact .inl (hmono _ _ hmem)
      · exact .inr ⟨d, Nat.lt_succ_of_lt hd, hpair, y, List.mem_cons_of_mem _ hy, hover⟩

/-- A closer that answers the top takes it off both stacks. An opener that lay buried below the top
alone would now belong to a crossing pair. -/
theorem pop {top : Bracket × Nat} {rest : List (Bracket × Nat)} (h : b.Holds index n (top :: rest))
    (hcross : b.NoCrossing index) (hcell : b.cell? ⟨index, n⟩ = some ⟨top.1.closer, .code⟩) :
    b.Holds index (n + 1) rest := by
  obtain ⟨hown, hother⟩ := unclosed_closer hcell
  obtain ⟨below, hstack⟩ := h.unclosed_eq_cons
  rw [hstack, List.tail_cons] at hown
  obtain ⟨htop, horder⟩ := List.pairwise_cons.mp h.order
  obtain ⟨htopNests, hnests⟩ := List.forall_mem_cons.mp h.nests
  have hpair : (top.2, n) ∈ b.pairs index top.1 := by
    apply mem_pairs hcell
    rw [matchingOpener?_eq_head? hcell, hstack, List.head?_cons]
  have hnodup : ⟨index, top.2⟩ ∉ below := by
    intro hmem
    have hpairwise := b.pairwise_unclosed ⟨index, n⟩ top.1
    rw [hstack] at hpairwise
    exact Position.Before.irrefl _ ((List.pairwise_cons.mp hpairwise).1 _ hmem)
  refine ⟨hnests, ?_, horder, ?_, ?_⟩
  · exact fun x hx => Nat.lt_succ_of_lt (h.bound x (List.mem_cons_of_mem top hx))
  · intro k hk t ht
    rcases List.mem_cons.mp (h.live k hk t (mem_of_mem_unclosed_closer hcell ht)) with rfl | hmem
    · rw [hown] at ht
      exact absurd ht hnodup
    · exact hmem
  · intro x hx
    rcases h.buried x (List.mem_cons_of_mem top hx) with hmem | ⟨d, hd, hburied, y, hy, hne, hlt, hyd⟩
    · by_cases hkk : x.1 = top.1
      · rw [hkk, hstack] at hmem
        rcases List.mem_cons.mp hmem with heq | hmem
        · have hcolumn : x.2 = top.2 := congrArg Position.column heq
          have hless := htop x hx
          omega
        · rw [hkk, hown]
          exact .inl hmem
      · rw [hother x.1 hkk]
        exact .inl hmem
    · rcases List.mem_cons.mp hy with rfl | hy
      · exact absurd ⟨hlt, hyd, hd⟩
          (hcross.not_crosses (hnests x hx) htopNests (Ne.symm hne) hburied hpair)
      · exact .inr ⟨d, Nat.lt_succ_of_lt hd, hburied, y, hy, hne, hlt, hyd⟩

/-- A closer that does not answer the top buries the opener that it answers below the top. -/
theorem bury {top : Bracket × Nat} {rest : List (Bracket × Nat)} (h : b.Holds index n (top :: rest))
    {k : Bracket} (hne : top.1 ≠ k) (hcell : b.cell? ⟨index, n⟩ = some ⟨k.closer, .code⟩) :
    b.Holds index (n + 1) (top :: rest) := by
  obtain ⟨hown, hother⟩ := unclosed_closer hcell
  refine ⟨h.nests, fun x hx => Nat.lt_succ_of_lt (h.bound x hx), h.order, ?_, ?_⟩
  · exact fun k' hk' t ht => h.live k' hk' t (mem_of_mem_unclosed_closer hcell ht)
  · intro x hx
    rcases h.buried x hx with hmem | ⟨d, hd, hrest⟩
    · by_cases hkk : x.1 = k
      · obtain ⟨q, below, hstack⟩ := List.exists_cons_of_ne_nil (List.ne_nil_of_mem hmem)
        rw [hkk] at hstack hmem ⊢
        rw [hown, hstack, List.tail_cons]
        rw [hstack] at hmem
        rcases List.mem_cons.mp hmem with rfl | hmem
        · have hlt : x.2 < top.2 := by
            rcases List.mem_cons.mp hx with rfl | hx
            · exact absurd hkk hne
            · exact (List.pairwise_cons.mp h.order).1 x hx
          refine .inr ⟨n, Nat.lt_succ_self n, ?_, top, List.mem_cons_self, hne, hlt, ?_⟩
          · apply mem_pairs hcell
            rw [matchingOpener?_eq_head? hcell, hstack, List.head?_cons]
          · exact h.bound top List.mem_cons_self
        · exact .inl hmem
      · rw [hother x.1 hkk]
        exact .inl hmem
    · exact .inr ⟨d, Nat.lt_succ_of_lt hd, hrest⟩

theorem stray (h : b.Holds index n []) {k : Bracket}
    (hcell : b.cell? ⟨index, n⟩ = some ⟨k.closer, .code⟩) : b.Holds index (n + 1) [] := by
  refine ⟨by simp, by simp, .nil, ?_, by simp⟩
  exact fun k' hk' t ht => h.live k' hk' t (mem_of_mem_unclosed_closer hcell ht)

/-- One column of the line. -/
theorem step {l : Line} (hl : b.lines[index]? = some l) (hcross : b.NoCrossing index)
    (h : b.Holds index n (l.openBefore n)) : b.Holds index (n + 1) (l.openBefore (n + 1)) := by
  have hcell : b.cell? ⟨index, n⟩ = l.cells[n]? := by
    rw [cell?, hl, Option.bind_some]
  by_cases hcode : ∃ c, l.cells[n]? = some ⟨c, .code⟩
  · obtain ⟨c, hc⟩ := hcode
    rw [Line.openBefore_succ_code hc]
    rw [hc] at hcell
    cases ho : nestingOpener? c with
    | some k =>
      obtain ⟨rfl, hk⟩ := nestingOpener?_eq_some_iff.mp ho
      rw [Line.pushBracket_opener hk]
      exact h.push hk hcell
    | none =>
      cases hcloser : nestingCloser? c with
      | some k =>
        obtain ⟨rfl, hk⟩ := nestingCloser?_eq_some_iff.mp hcloser
        generalize l.openBefore n = stack at h ⊢
        cases stack with
        | nil =>
          rw [Line.pushBracket_closer_nil]
          exact h.stray hcell
        | cons top rest =>
          rw [Line.pushBracket_closer hk]
          split
          · next htop =>
            rw [← htop] at hcell
            exact h.pop hcross hcell
          · next htop => exact h.bury htop hcell
      | none =>
        rw [Line.pushBracket_other ho hcloser]
        apply h.skip
        intro k hk
        obtain ⟨x, rfl, -, hstep⟩ := unclosed_succ_code hcell
        rw [hstep, Bracket.track_other]
        · intro he
          rw [nestingCloser?_eq_some_iff.mpr ⟨he, hk⟩] at hcloser
          cases hcloser
        · intro he
          rw [nestingOpener?_eq_some_iff.mpr ⟨he, hk⟩] at ho
          cases ho
  · have hnone := not_exists.mp hcode
    rw [Line.openBefore_succ_other hnone]
    apply h.skip
    intro k _
    refine unclosed_succ_other ?_ k
    rwa [hcell]

theorem run {l : Line} (hl : b.lines[index]? = some l) (hcross : b.NoCrossing index) (n : Nat) :
    b.Holds index n (l.openBefore n) := by
  induction n with
  | zero =>
    rw [Line.openBefore_zero]
    exact zero b index
  | succ n ih => exact step hl hcross ih

end Holds

theorem closer_of_matchingOpener? {b : Buffer} {p q : Position} (h : b.matchingOpener? p = some q) :
    ∃ k : Bracket, b.cell? p = some ⟨k.closer, .code⟩ := by
  cases hl : b.lines[p.line]? with
  | none =>
    rw [matchingOpener?, focus?_eq_none hl] at h
    cases h
  | some l =>
    rw [matchingOpener?, focus?_eq_some hl] at h
    obtain ⟨s, hs, -⟩ := Option.map_eq_some_iff.mp h
    rw [Focus.matchingOpener?_bind] at hs
    obtain ⟨⟨c, kind⟩, hcell, hs⟩ := Option.bind_eq_some_iff.mp hs
    split at hs
    · next hkind =>
      obtain ⟨k, hk, -⟩ := Option.bind_eq_some_iff.mp hs
      cases hkind
      obtain rfl := Bracket.ofCloser?_eq_some_iff.mp hk
      exact ⟨k, Option.bind_eq_some_iff.mpr ⟨l, hl, hcell⟩⟩
    · cases hs

theorem mem_unanswered {b : Buffer} {index o : Nat} :
    o ∈ b.unanswered index ↔
      (∃ k : Bracket, k.nests = true ∧ b.cell? ⟨index, o⟩ = some ⟨k.opener, .code⟩) ∧
        ∀ c, b.matchingOpener? ⟨index, c⟩ ≠ some ⟨index, o⟩ := by
  rw [unanswered, List.mem_map]
  constructor
  · rintro ⟨⟨o, c⟩, hmem, rfl⟩
    obtain ⟨hcode, hopen⟩ := List.mem_filter.mp hmem
    obtain ⟨hnests, hall⟩ := Bool.and_eq_true_iff.mp hopen
    obtain ⟨k, hk⟩ := Option.isSome_iff_exists.mp hnests
    obtain ⟨hc, hk⟩ := nestingOpener?_eq_some_iff.mp hk
    refine ⟨⟨k, hk, ?_⟩, ?_⟩
    · rw [← hc]
      exact mem_codeChars.mp hcode
    · intro c' hopener
      obtain ⟨k', hcloser⟩ := closer_of_matchingOpener? hopener
      have hpartner := List.all_eq_true.mp hall _ (mem_codeChars.mpr hcloser)
      simp only [partner?_eq_some_iff.mpr hopener, bne_self_eq_false, Bool.false_eq_true] at hpartner
  · rintro ⟨⟨k, hk, hcell⟩, hfree⟩
    refine ⟨(o, k.opener), List.mem_filter.mpr ⟨mem_codeChars.mpr hcell, ?_⟩, rfl⟩
    rw [nestingOpener?_eq_some_iff.mpr ⟨rfl, hk⟩, Option.isSome_some, Bool.true_and, List.all_eq_true]
    intro y _
    exact bne_iff_ne.mpr fun hy => hfree y.1 (partner?_eq_some_iff.mp hy)

theorem pairwise_unanswered (b : Buffer) (index : Nat) : (b.unanswered index).Pairwise (· < ·) := by
  rw [unanswered, List.pairwise_map]
  refine List.Pairwise.filter _ ?_
  rw [codeChars]
  cases b.lines[index]? with
  | none => exact .nil
  | some l => exact l.pairwise_codeChars

/-- What no closer on the line answers is on the stack of its kind at the end of the line. -/
theorem mem_unclosed_length {b : Buffer} {index o : Nat} {l : Line} (hl : b.lines[index]? = some l)
    {k : Bracket} :
    ⟨index, o⟩ ∈ b.unclosed ⟨index, l.length⟩ k ↔ b.cell? ⟨index, o⟩ = some ⟨k.opener, .code⟩ ∧
      ∀ c, b.matchingOpener? ⟨index, c⟩ ≠ some ⟨index, o⟩ := by
  have hlength : ∀ {n : Nat} {x : Cell}, b.cell? ⟨index, n⟩ = some x → n < l.length := by
    intro n x hx
    rw [cell?, hl, Option.bind_some] at hx
    exact Line.lt_length_of_getElem? hx
  constructor
  · intro hmem
    have hcell := cell?_of_mem_unclosed hmem
    refine ⟨hcell, ?_⟩
    intro c hopener
    obtain ⟨k', hcloser⟩ := closer_of_matchingOpener? hopener
    have hhead := hopener
    rw [matchingOpener?_eq_head? hcloser] at hhead
    have hcell' := cell?_of_mem_unclosed (List.mem_of_mem_head? hhead)
    have hkk : k'.opener = k.opener := congrArg Cell.char (Option.some.inj (hcell'.symm.trans hcell))
    obtain rfl := Bracket.opener_inj hkk
    have hbefore : Position.Before ⟨index, c⟩ ⟨index, l.length⟩ := .inr ⟨rfl, hlength hcloser⟩
    exact not_mem_unclosed hcloser hhead hbefore hmem
  · rintro ⟨hcell, hfree⟩
    have hpushed : ⟨index, o⟩ ∈ b.unclosed ⟨index, o + 1⟩ k := by
      rw [(unclosed_opener hcell).1]
      exact List.mem_cons_self
    rcases mem_unclosed_or_answered hpushed (hlength hcell) with hmem | ⟨d, -, -, -, hopener⟩
    · exact hmem
    · exact absurd hopener (hfree d)

/-- The two ways of pairing agree on the innermost bracket that the line leaves open. -/
theorem getLast?_unanswered {b : Buffer} {index : Nat} {l : Line} (hl : b.lines[index]? = some l)
    (hcross : b.NoCrossing index) :
    (b.unanswered index).getLast? = l.openBrackets.head?.map Prod.snd := by
  have hholds := Holds.run hl hcross l.length
  rw [Line.openBefore_length] at hholds
  have hlive : ∀ o ∈ b.unanswered index, ∃ k, (k, o) ∈ l.openBrackets := by
    intro o ho
    obtain ⟨⟨k, hk, hcell⟩, hfree⟩ := mem_unanswered.mp ho
    exact ⟨k, hholds.live k hk o ((mem_unclosed_length hl).mpr ⟨hcell, hfree⟩)⟩
  cases hstack : l.openBrackets with
  | nil =>
    have hnil : b.unanswered index = [] := by
      rw [List.eq_nil_iff_forall_not_mem]
      intro o ho
      obtain ⟨k, hmem⟩ := hlive o ho
      rw [hstack] at hmem
      cases hmem
    rw [hnil]
    rfl
  | cons top rest =>
    rw [hstack] at hholds hlive
    apply getLast?_eq_of_le (b.pairwise_unanswered index)
    · obtain ⟨hcell, hfree⟩ := (mem_unclosed_length hl).mp hholds.top_mem
      exact mem_unanswered.mpr ⟨⟨top.1, hholds.nests top List.mem_cons_self, hcell⟩, hfree⟩
    · intro o ho
      obtain ⟨k, hmem⟩ := hlive o ho
      rcases List.mem_cons.mp hmem with heq | hmem
      · exact Nat.le_of_eq (congrArg Prod.snd heq)
      · exact Nat.le_of_lt ((List.pairwise_cons.mp hholds.order).1 _ hmem)

/-- The character in column `content` is the first one after `column` that is not white. -/
structure FirstInk (b : Buffer) (index column content : Nat) (x : Cell) : Prop where
  cell : b.cell? ⟨index, content⟩ = some x
  after : column < content
  ink : isWhite x.char = false
  between : ∀ j y, column < j → j < content → b.cell? ⟨index, j⟩ = some y → isWhite y.char = true

theorem FirstInk.unique {b : Buffer} {index column content content' : Nat} {x x' : Cell}
    (h : b.FirstInk index column content x) (h' : b.FirstInk index column content' x') :
    content = content' ∧ x = x' := by
  have hcolumn : content = content' := by
    rcases Nat.lt_trichotomy content content' with hlt | heq | hlt
    · exact absurd (h'.between content x h.after hlt h.cell) (by simp [h.ink])
    · exact heq
    · exact absurd (h.between content' x' h'.after hlt h'.cell) (by simp [h'.ink])
  subst hcolumn
  exact ⟨rfl, Option.some.inj (h.cell.symm.trans h'.cell)⟩

/-- The search for content goes to the first character that is not white, and judges it by its kind. -/
theorem contentAfter?_eq {b : Buffer} {index column : Nat} {l : Line} (hl : b.lines[index]? = some l) :
    ((∀ content x, ¬b.FirstInk index column content x) ∧ l.contentAfter? column = none) ∨
      ∃ content x, b.FirstInk index column content x ∧
        l.contentAfter? column =
          if x.kind = .lineComment ∨ x.kind = .blockComment then none else some content := by
  have hcell : ∀ n, b.cell? ⟨index, n⟩ = l.cells[n]? := by
    intro n
    rw [cell?, hl, Option.bind_some]
  have hget : ∀ n, (l.cells.zipIdx.drop (column + 1))[n]? =
      l.cells[column + 1 + n]?.map fun x => (x, column + 1 + n) := by
    intro n
    rw [List.getElem?_drop, List.getElem?_zipIdx, Nat.zero_add]
  cases hfind : (l.cells.zipIdx.drop (column + 1)).find? fun y => !isWhite y.1.char with
  | none =>
    refine .inl ⟨?_, ?_⟩
    · intro content x hfirst
      obtain ⟨n, rfl⟩ := Nat.exists_eq_add_of_le hfirst.after
      have hmem := List.mem_of_getElem? ((hget n).trans (by rw [← hcell, hfirst.cell, Option.map_some]))
      have hwhite := List.find?_eq_none.mp hfind _ hmem
      simp [hfirst.ink] at hwhite
    · simp only [Line.contentAfter?, hfind]
  | some y =>
    obtain ⟨x, content⟩ := y
    obtain ⟨hink, front, rest, hdrop, hfront⟩ := List.find?_eq_some_iff_append.mp hfind
    have hcontent := hget front.length
    rw [hdrop, List.getElem?_append_right (Nat.le_refl _), Nat.sub_self, List.getElem?_cons_zero,
      eq_comm, Option.map_eq_some_iff] at hcontent
    obtain ⟨x', hx, he⟩ := hcontent
    cases he
    refine .inr ⟨_, x, ⟨(hcell _).trans hx, by omega, by simpa using hink, ?_⟩, ?_⟩
    · intro j y hj hlt hy
      obtain ⟨n, rfl⟩ := Nat.exists_eq_add_of_le hj
      have hn : n < front.length := by omega
      have hmem := hget n
      rw [hdrop, List.getElem?_append_left hn, ← hcell, hy, Option.map_some] at hmem
      simpa using hfront _ (List.mem_of_getElem? hmem)
    · simp only [Line.contentAfter?, hfind]
      cases x.kind <;> simp

/-- The visual column of what follows the innermost bracket that a line leaves open; none if the
line is missing. -/
def openColumn? (b : Buffer) (index tab : Nat) : Option Nat :=
  b.lines[index]?.bind fun l => l.openColumn? tab

/-- The innermost open bracket is found by either way of pairing. -/
theorem openColumn?_eq {b : Buffer} {index : Nat} (h : b.NoCrossing index) (tab : Nat) :
    b.openColumn? index tab = (b.unanswered index).getLast?.bind fun o =>
      b.lines[index]?.bind fun l => (l.contentAfter? o).map (visualColumn tab l.chars) := by
  cases hl : b.lines[index]? with
  | none => simp [openColumn?, hl]
  | some l =>
    rw [openColumn?, hl, Option.bind_some, getLast?_unanswered hl h, Line.openColumn?_eq,
      Line.openContent?]
    cases l.openBrackets with
    | nil => rfl
    | cons top rest => rfl

/-- Where no brace pair and square pair on a line cross, the content to align with is that after the
last opener which no closer on the line answers. There is none to align with if there is no such
opener, or if nothing or a comment follows it. -/
theorem openColumn_agrees {b : Buffer} {index : Nat} (h : b.NoCrossing index) (tab : Nat) :
    (b.unanswered index = [] → b.openColumn? index tab = none) ∧
    ∀ o, (b.unanswered index).getLast? = some o →
      ((∀ content x, ¬b.FirstInk index o content x) → b.openColumn? index tab = none) ∧
      ∀ content x, b.FirstInk index o content x →
        (x.kind = .lineComment ∨ x.kind = .blockComment → b.openColumn? index tab = none) ∧
        (¬(x.kind = .lineComment ∨ x.kind = .blockComment) →
          ∃ cs, b.text? index = some cs ∧
            b.openColumn? index tab = some (visualColumn tab cs content)) := by
  rw [openColumn?_eq h]
  refine ⟨fun hnil => by rw [hnil]; rfl, ?_⟩
  intro o ho
  obtain ⟨⟨k, -, hcell⟩, -⟩ := mem_unanswered.mp (List.mem_of_getLast? ho)
  obtain ⟨l, hl, -⟩ := Option.bind_eq_some_iff.mp hcell
  rw [ho, Option.bind_some, hl, Option.bind_some]
  rcases @contentAfter?_eq b index o l hl with ⟨hnone, hafter⟩ | ⟨content, x, hfirst, hafter⟩
  · refine ⟨fun _ => by rw [hafter, Option.map_none], ?_⟩
    intro content x hfirst
    exact absurd hfirst (hnone content x)
  · refine ⟨fun hnone => absurd hfirst (hnone content x), ?_⟩
    intro content' x' hfirst'
    obtain ⟨rfl, rfl⟩ := hfirst.unique hfirst'
    rw [hafter]
    constructor
    · intro hcomment
      rw [if_pos hcomment, Option.map_none]
    · intro hcomment
      refine ⟨l.chars, ?_, ?_⟩
      · rw [text?, hl, Option.map_some]
      · rw [if_neg hcomment, Option.map_some]

/-- A line that answers an opener above it and leaves a square bracket open inside a closed brace. -/
def openInside : Buffer :=
  ofLines ([".A = [", "\t] \x7b [ \x7d [ \x7b \x7d ] .C"].map String.toList)

/-- The bracket in column 5 stays open, though the brace around it is closed. -/
theorem openColumn_agrees_openInside :
    openInside.NoCrossing 1 ∧ openInside.unanswered 1 = [5] ∧ openInside.openColumn? 1 4 = some 10 := by
  have hcross : openInside.NoCrossing 1 := by decide
  have hopen : openInside.unanswered 1 = [5] := by decide
  have hfirst : openInside.FirstInk 1 5 7 ⟨Bracket.brace.closer, .code⟩ := by
    refine ⟨by decide, by decide, by decide, ?_⟩
    intro j y hj hlt hy
    obtain rfl : j = 6 := by omega
    have hspace : openInside.cell? ⟨1, 6⟩ = some ⟨' ', .code⟩ := by decide
    cases hspace.symm.trans hy
    decide
  obtain ⟨-, hlast⟩ := openColumn_agrees hcross 4
  obtain ⟨cs, hcs, hcolumn⟩ := ((hlast 5 (by rw [hopen]; rfl)).2 7 _ hfirst).2 (by decide)
  refine ⟨hcross, hopen, hcolumn.trans ?_⟩
  cases hcs
  decide

end Buffer

end BffLayout
