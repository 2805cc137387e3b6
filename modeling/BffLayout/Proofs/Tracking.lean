import BffLayout.Proofs.Unclosed

/-!
Stacks column by column. From one column of a line to the next, the stack of openers left open
changes by at most one opener: an opener of the kind goes on top, a closer takes the top off, and
nothing else changes the stack. An opener leaves it only through a closer that answers it.
-/
namespace BffLayout

namespace Bracket

/-- Only openers of its kind are on a stack. -/
theorem exists_opener_of_mem_track {k : Bracket} {code : List CodeChar} {stack : List Position}
    {q : Position} (h : q ∈ code.foldl k.track stack) :
    q ∈ stack ∨ ∃ x ∈ code, x.position = q ∧ x.char = k.opener := by
  induction code generalizing stack with
  | nil => exact .inl h
  | cons c rest ih =>
    rcases ih h with hstack | ⟨x, hx, hq⟩
    · unfold track at hstack
      split at hstack
      · next ho =>
        rcases List.mem_cons.mp hstack with rfl | hstack
        · exact .inr ⟨c, List.mem_cons_self, rfl, ho⟩
        · exact .inl hstack
      · split at hstack
        · exact .inl (List.mem_of_mem_tail hstack)
        · exact .inl hstack
    · exact .inr ⟨x, List.mem_cons_of_mem c hx, hq⟩

end Bracket

namespace Buffer

theorem cell?_of_mem_code {b : Buffer} {x : CodeChar} (h : x ∈ b.code) :
    b.cell? x.position = some ⟨x.char, .code⟩ := by
  obtain ⟨r, hr, hx⟩ := List.mem_flatMap.mp h
  obtain ⟨⟨l, i⟩, hl, rfl⟩ := List.mem_map.mp hr
  obtain ⟨⟨column, c⟩, hc, rfl⟩ := List.mem_map.mp hx
  rw [List.mem_zipIdx_iff_getElem?] at hl
  exact Option.bind_eq_some_iff.mpr ⟨l, hl, Line.getElem?_of_mem_codeChars hc⟩

section Stack

variable {b : Buffer} {p q : Position} {k : Bracket}

theorem cell?_of_mem_unclosed (h : q ∈ b.unclosed p k) : b.cell? q = some ⟨k.opener, .code⟩ := by
  rcases Bracket.exists_opener_of_mem_track h with hnil | ⟨x, hx, rfl, ho⟩
  · cases hnil
  · rw [cell?_of_mem_code (List.mem_of_mem_filter hx), ho]

theorem before_of_mem_unclosed (h : q ∈ b.unclosed p k) : q.Before p := by
  rcases Bracket.exists_opener_of_mem_track h with hnil | ⟨x, hx, rfl, -⟩
  · cases hnil
  · simpa using (List.mem_filter.mp hx).2

/-- The openers on a stack are read later the higher they lie. -/
theorem pairwise_unclosed (b : Buffer) (p : Position) (k : Bracket) :
    (b.unclosed p k).Pairwise fun q r => r.Before q := by
  have hsublist := k.foldl_track_sublist (b.code.filter fun c => c.position.Before p) []
  rw [List.append_nil] at hsublist
  refine List.Pairwise.sublist hsublist ?_
  rw [List.pairwise_reverse, List.pairwise_map]
  exact b.inOrder_code.filter _

/-- One code character changes the stack by one step. -/
theorem unclosed_succ_code {i n : Nat} {c : Char} (h : b.cell? ⟨i, n⟩ = some ⟨c, .code⟩) :
    ∃ x : CodeChar, x.char = c ∧ x.position = ⟨i, n⟩ ∧
      ∀ k, b.unclosed ⟨i, n + 1⟩ k = k.track (b.unclosed ⟨i, n⟩ k) x := by
  obtain ⟨x, hx, hposition, hchar⟩ := exists_code h
  refine ⟨x, hchar, hposition, ?_⟩
  intro k
  obtain ⟨xs, ys, hcode⟩ := List.append_of_mem hx
  have horder := b.inOrder_code
  rw [hcode] at horder
  have hnext : x.position.Before ⟨i, n + 1⟩ := by
    rw [hposition]
    exact .inr ⟨rfl, Nat.lt_succ_self n⟩
  have hlater : (ys.filter fun d => d.position.Before ⟨i, n + 1⟩) = [] := by
    rw [List.filter_eq_nil_iff]
    intro d hd
    have hxd := (List.pairwise_cons.mp (List.pairwise_append.mp horder).2.1).1 d hd
    rw [hposition] at hxd
    rw [decide_eq_true_eq]
    simp only [Position.Before] at hxd ⊢
    omega
  rw [unclosed, hcode, horder.filter_before hnext, hlater, List.foldl_append, List.foldl_cons,
    List.foldl_nil, unclosed, ← hposition, hcode, horder.filter_before_self]

theorem unclosed_succ_other {i n : Nat} (h : ∀ c, b.cell? ⟨i, n⟩ ≠ some ⟨c, .code⟩) (k : Bracket) :
    b.unclosed ⟨i, n + 1⟩ k = b.unclosed ⟨i, n⟩ k := by
  rw [unclosed, unclosed]
  congr 1
  refine List.filter_congr ?_
  intro x hx
  have hcell := cell?_of_mem_code hx
  have hne : x.position ≠ ⟨i, n⟩ := by
    intro he
    rw [he] at hcell
    exact h x.char hcell
  generalize x.position = q at hne
  obtain ⟨line, column⟩ := q
  rw [ne_eq, Position.mk.injEq] at hne
  rw [decide_eq_decide]
  simp only [Position.Before]
  omega

theorem unclosed_opener {i n : Nat} (h : b.cell? ⟨i, n⟩ = some ⟨k.opener, .code⟩) :
    b.unclosed ⟨i, n + 1⟩ k = ⟨i, n⟩ :: b.unclosed ⟨i, n⟩ k ∧
      ∀ k' ≠ k, b.unclosed ⟨i, n + 1⟩ k' = b.unclosed ⟨i, n⟩ k' := by
  obtain ⟨x, hchar, hposition, hstep⟩ := unclosed_succ_code h
  constructor
  · rw [hstep, Bracket.track_opener hchar, hposition]
  · intro k' hne
    rw [hstep, Bracket.track_other]
    · exact fun hc => k'.closer_ne_opener k (hc.symm.trans hchar)
    · exact fun ho => hne (Bracket.opener_inj (ho.symm.trans hchar))

theorem unclosed_closer {i n : Nat} (h : b.cell? ⟨i, n⟩ = some ⟨k.closer, .code⟩) :
    b.unclosed ⟨i, n + 1⟩ k = (b.unclosed ⟨i, n⟩ k).tail ∧
      ∀ k' ≠ k, b.unclosed ⟨i, n + 1⟩ k' = b.unclosed ⟨i, n⟩ k' := by
  obtain ⟨x, hchar, -, hstep⟩ := unclosed_succ_code h
  constructor
  · rw [hstep, Bracket.track_closer hchar]
  · intro k' hne
    rw [hstep, Bracket.track_other]
    · exact fun hc => hne (Bracket.closer_inj (hc.symm.trans hchar))
    · exact fun ho => k.closer_ne_opener k' (hchar.symm.trans ho)

/-- No closer adds to a stack. -/
theorem mem_of_mem_unclosed_closer {i n : Nat} (h : b.cell? ⟨i, n⟩ = some ⟨k.closer, .code⟩)
    {k' : Bracket} (hq : q ∈ b.unclosed ⟨i, n + 1⟩ k') : q ∈ b.unclosed ⟨i, n⟩ k' := by
  obtain ⟨hown, hother⟩ := unclosed_closer h
  by_cases hkk : k' = k
  · subst hkk
    rw [hown] at hq
    exact List.mem_of_mem_tail hq
  · rwa [hother k' hkk] at hq

/-- An opener leaves the stack only when a closer answers it. -/
theorem mem_unclosed_or_answered {i n m : Nat} (hq : q ∈ b.unclosed ⟨i, n⟩ k) (hnm : n ≤ m) :
    q ∈ b.unclosed ⟨i, m⟩ k ∨ ∃ d, n ≤ d ∧ d < m ∧ b.cell? ⟨i, d⟩ = some ⟨k.closer, .code⟩ ∧
      b.matchingOpener? ⟨i, d⟩ = some q := by
  induction hnm with
  | refl => exact .inl hq
  | @step m hnm ih =>
    rcases ih with hmem | ⟨d, hnd, hdm, hcloser, hopener⟩
    · by_cases hcell : ∃ c, b.cell? ⟨i, m⟩ = some ⟨c, .code⟩
      · obtain ⟨c, hc⟩ := hcell
        obtain ⟨x, rfl, -, hstep⟩ := unclosed_succ_code hc
        rw [hstep]
        by_cases hclose : x.char = k.closer
        · rw [hclose] at hc
          obtain ⟨top, rest, hstack⟩ := List.exists_cons_of_ne_nil (List.ne_nil_of_mem hmem)
          rw [Bracket.track_closer hclose, hstack, List.tail_cons]
          rw [hstack] at hmem
          rcases List.mem_cons.mp hmem with rfl | hrest
          · refine .inr ⟨m, hnm, Nat.lt_succ_self m, hc, ?_⟩
            rw [matchingOpener?_eq_head? hc, hstack, List.head?_cons]
          · exact .inl hrest
        · by_cases hopen : x.char = k.opener
          · rw [Bracket.track_opener hopen]
            exact .inl (List.mem_cons_of_mem _ hmem)
          · rw [Bracket.track_other hclose hopen]
            exact .inl hmem
      · rw [unclosed_succ_other (not_exists.mp hcell)]
        exact .inl hmem
    · exact .inr ⟨d, hnd, Nat.lt_succ_of_lt hdm, hcloser, hopener⟩

end Stack

end Buffer

end BffLayout
