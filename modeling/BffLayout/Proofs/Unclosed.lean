import BffLayout.Completion
import BffLayout.Proofs.InPlace
import BffLayout.Proofs.Nesting

/-!
Openers left open. Read forwards, the code before a position leaves a stack of openers of one kind:
an opener is pushed, a closer pops the top, and a closer that finds the stack empty is passed over.
The search backwards keeps no stack but only a count, and still comes to the openers of this stack,
from the top down. So a closer answers the top of the stack before it, and no two closers answer the
same opener.
-/
namespace BffLayout

/-- The order in which a text is read. -/
def Position.Before (p q : Position) : Prop :=
  p.line < q.line ∨ p.line = q.line ∧ p.column < q.column
  deriving Decidable

namespace Position.Before

theorem trans {p q r : Position} (hpq : p.Before q) (hqr : q.Before r) : p.Before r := by
  unfold Before at *
  omega

theorem asymm {p q : Position} (h : p.Before q) : ¬q.Before p := by
  unfold Before at *
  omega

theorem irrefl (p : Position) : ¬p.Before p := by
  unfold Before
  omega

end Position.Before

/-- Of two places one is read first. -/
theorem Position.before_or_eq (p q : Position) : p.Before q ∨ p = q ∨ q.Before p := by
  obtain ⟨i, j⟩ := p
  obtain ⟨k, l⟩ := q
  simp only [Before, mk.injEq]
  omega

/-- Code in reading order. -/
abbrev InOrder (code : List CodeChar) : Prop :=
  code.Pairwise fun c d => c.position.Before d.position

/-- No place is read twice. -/
theorem InOrder.nodup_reverse {code : List CodeChar} (h : InOrder code) :
    (code.map fun c => c.position).reverse.Nodup := by
  rw [List.Nodup, List.pairwise_reverse, List.pairwise_map]
  refine h.imp ?_
  intro c d hcd he
  rw [he] at hcd
  exact Position.Before.irrefl _ hcd

namespace InOrder

variable {xs ys : List CodeChar} {c : CodeChar} (h : InOrder (xs ++ c :: ys))

include h

/-- What is read before a character of the code, and the rest of what is read before a later place. -/
theorem filter_before {q : Position} (hq : c.position.Before q) :
    ((xs ++ c :: ys).filter fun d => d.position.Before q) =
      xs ++ c :: ys.filter fun d => d.position.Before q := by
  obtain ⟨-, -, hxs⟩ := List.pairwise_append.mp h
  rw [List.filter_append, List.filter_cons_of_pos (by simpa using hq), List.filter_eq_self.mpr]
  intro d hd
  have hdc : d.position.Before c.position := hxs d hd c List.mem_cons_self
  simpa using hdc.trans hq

theorem filter_before_self : ((xs ++ c :: ys).filter fun d => d.position.Before c.position) = xs := by
  obtain ⟨-, hcons, hxs⟩ := List.pairwise_append.mp h
  obtain ⟨hys, -⟩ := List.pairwise_cons.mp hcons
  have hleft : (xs.filter fun d => d.position.Before c.position) = xs := by
    rw [List.filter_eq_self]
    intro d hd
    simpa using hxs d hd c List.mem_cons_self
  have hright : (ys.filter fun d => d.position.Before c.position) = [] := by
    rw [List.filter_eq_nil_iff]
    intro d hd
    simpa using (hys d hd).asymm
  rw [List.filter_append, hleft, List.filter_cons_of_neg (by simpa using Position.Before.irrefl _),
    hright, List.append_nil]

end InOrder

theorem index_lt_of_mem_rowsFrom {first : Nat} {lines : List Line} {r : Row}
    (hr : r ∈ rowsFrom first lines) : r.index < first + lines.length := by
  obtain ⟨⟨l, i⟩, hmem, rfl⟩ := List.mem_map.mp hr
  exact List.snd_lt_add_of_mem_zipIdx hmem

theorem Line.mem_codeChars {l : Line} {column : Nat} {c : Char}
    (h : l.cells[column]? = some ⟨c, .code⟩) : (column, c) ∈ l.codeChars := by
  refine List.mem_filterMap.mpr ⟨(⟨c, .code⟩, column), ?_, rfl⟩
  exact List.mem_zipIdx_iff_getElem?.mpr h

namespace Row

theorem line_of_mem_code {r : Row} {c : CodeChar} (h : c ∈ r.code) : c.position.line = r.index := by
  obtain ⟨x, -, rfl⟩ := List.mem_map.mp h
  rfl

theorem inOrder_code (r : Row) : InOrder r.code := by
  have hcolumn : r.code.Pairwise fun c d => c.column < d.column := by
    rw [code, List.pairwise_map]
    exact r.pairwise_codeChars
  refine hcolumn.imp_of_mem ?_
  intro c d hc hd hlt
  exact .inr ⟨(line_of_mem_code hc).trans (line_of_mem_code hd).symm, hlt⟩

end Row

namespace Buffer

/-- All code, in reading order. -/
def code (b : Buffer) : List CodeChar := b.rows.flatMap Row.code

theorem inOrder_code (b : Buffer) : InOrder b.code := by
  refine List.pairwise_flatMap.mpr ⟨fun r _ => r.inOrder_code, ?_⟩
  refine (pairwise_rowsFrom 0 b.lines).imp ?_
  intro r s hindex c hc d hd
  left
  rw [Row.line_of_mem_code hc, Row.line_of_mem_code hd]
  exact hindex

/-- The character at a position, with its kind. -/
def cell? (b : Buffer) (p : Position) : Option Cell := b.lines[p.line]?.bind fun l => l.cells[p.column]?

theorem exists_code {b : Buffer} {p : Position} {c : Char} (h : b.cell? p = some ⟨c, .code⟩) :
    ∃ x ∈ b.code, x.position = p ∧ x.char = c := by
  obtain ⟨l, hl, hcell⟩ := Option.bind_eq_some_iff.mp h
  have hrow : Row.of p.line l ∈ b.rows := by
    apply List.mem_of_getElem?
    rw [getElem?_rows, hl]
    rfl
  refine ⟨⟨⟨Row.of p.line l, p.column⟩, c⟩, ?_, rfl, rfl⟩
  exact List.mem_flatMap.mpr ⟨_, hrow, List.mem_map.mpr ⟨_, Line.mem_codeChars hcell, rfl⟩⟩

/-- Reading backwards from a position gives the code before it, last character first. -/
theorem codeBefore_eq {b : Buffer} {p : Position} (h : p.line < b.count) :
    b.codeBefore p = (b.code.filter fun c => c.position.Before p).reverse := by
  obtain ⟨lines⟩ := b
  obtain ⟨done, l, rest, rfl, hdone⟩ :
      ∃ done l rest, lines = done ++ l :: rest ∧ done.length = p.line :=
    ⟨lines.take p.line, lines.get ⟨p.line, h⟩, lines.drop (p.line + 1), by simp,
      List.length_take_of_le (Nat.le_of_lt h)⟩
  have habove : (((rowsFrom 0 done).flatMap Row.code).filter fun c => c.position.Before p) =
      (rowsFrom 0 done).flatMap Row.code := by
    rw [List.filter_eq_self]
    intro c hc
    obtain ⟨r, hr, hcr⟩ := List.mem_flatMap.mp hc
    have hindex := index_lt_of_mem_rowsFrom hr
    have hline := Row.line_of_mem_code hcr
    rw [decide_eq_true_eq, Position.Before]
    omega
  have hrow : ((Row.of done.length l).code.filter fun c => c.position.Before p) =
      (Row.of done.length l).code.filter fun c => c.column < p.column := by
    refine List.filter_congr ?_
    intro c hc
    have hline : c.position.line = p.line := (Row.line_of_mem_code hc).trans hdone
    have hcolumn : c.position.column = c.column := rfl
    simp only [Position.Before, hline, hcolumn, Nat.lt_irrefl, false_or, true_and]
  have hbelow : (((rowsFrom (done.length + 1) rest).flatMap Row.code).filter
      fun c => c.position.Before p) = [] := by
    rw [List.filter_eq_nil_iff]
    intro c hc
    obtain ⟨r, hr, hcr⟩ := List.mem_flatMap.mp hc
    have hindex := index_of_mem_rowsFrom hr
    have hline := Row.line_of_mem_code hcr
    rw [decide_eq_true_eq, Position.Before]
    omega
  rw [codeBefore, ← hdone, focus?_middle, code, rows_eq, rowsFrom_append, rowsFrom_cons,
    List.flatMap_append, List.flatMap_cons, List.filter_append, List.filter_append, habove,
    Nat.zero_add, hrow, hbelow, List.append_nil, List.reverse_append, List.reverse_flatMap]
  rfl

end Buffer

namespace Bracket

/-- One character read forwards, where `stack` holds the places of the openers left open before it. -/
def track (k : Bracket) (stack : List Position) (c : CodeChar) : List Position :=
  if c.char = k.opener then c.position :: stack
  else if c.char = k.closer then stack.tail
  else stack

theorem track_opener {k : Bracket} {c : CodeChar} (h : c.char = k.opener) (stack : List Position) :
    k.track stack c = c.position :: stack := by
  rw [track, if_pos h]

theorem track_closer {k : Bracket} {c : CodeChar} (h : c.char = k.closer) (stack : List Position) :
    k.track stack c = stack.tail := by
  have hopener : c.char ≠ k.opener := fun ho => closer_ne_opener k k (h.symm.trans ho)
  rw [track, if_neg hopener, if_pos h]

theorem track_other {k : Bracket} {c : CodeChar} (hc : c.char ≠ k.closer) (ho : c.char ≠ k.opener)
    (stack : List Position) : k.track stack c = stack := by
  rw [track, if_neg ho, if_neg hc]

/-- The search backwards with closers pending finds the stack of the code read forwards, less one
opener for each of them. -/
theorem openers_eq_drop (k : Bracket) (pending : Nat) (code : List CodeChar) :
    ((k.openers pending code).map fun x => x.1.position) =
      (code.reverse.foldl k.track []).drop pending := by
  induction code generalizing pending with
  | nil => rw [openers, List.reverse_nil, List.foldl_nil, List.map_nil, List.drop_nil]
  | cons c before ih =>
    rw [List.reverse_cons, List.foldl_append, List.foldl_cons, List.foldl_nil]
    by_cases hc : c.char = k.closer
    · rw [openers_closer hc, track_closer hc, ih, List.drop_tail]
    · by_cases ho : c.char = k.opener
      · cases pending with
        | zero =>
          rw [openers_opener_zero ho, track_opener ho, List.map_cons, ih, List.drop_zero, List.drop_zero]
        | succ n => rw [openers_opener_succ ho, track_opener ho, ih, List.drop_succ_cons]
      · rw [openers_other hc ho, track_other hc ho, ih]

/-- With every opener comes all the code before it. -/
theorem suffix_of_mem_openers {k : Bracket} {pending : Nat} {code : List CodeChar}
    {x : CodeChar × List CodeChar} (h : x ∈ k.openers pending code) : (x.1 :: x.2) <:+ code := by
  induction code generalizing pending with
  | nil => cases h
  | cons c before ih =>
    have hlater : ∀ n, x ∈ k.openers n before → (x.1 :: x.2) <:+ c :: before := fun n hx =>
      (ih hx).trans (List.suffix_cons c before)
    by_cases hc : c.char = k.closer
    · rw [openers_closer hc] at h
      exact hlater _ h
    · by_cases ho : c.char = k.opener
      · cases pending with
        | zero =>
          rw [openers_opener_zero ho] at h
          rcases List.mem_cons.mp h with rfl | h
          · exact List.suffix_rfl
          · exact hlater _ h
        | succ n =>
          rw [openers_opener_succ ho] at h
          exact hlater _ h
      · rw [openers_other hc ho] at h
        exact hlater _ h

/-- What is left open is among what has been read and what was open before, last place first. -/
theorem foldl_track_sublist (k : Bracket) (code : List CodeChar) (stack : List Position) :
    (code.foldl k.track stack).Sublist ((code.map fun c => c.position).reverse ++ stack) := by
  induction code generalizing stack with
  | nil => exact List.Sublist.refl stack
  | cons c rest ih =>
    have hstep : (k.track stack c).Sublist (c.position :: stack) := by
      unfold track
      split
      · exact List.Sublist.refl _
      · split
        · exact (List.tail_sublist stack).trans (List.sublist_cons_self _ _)
        · exact List.sublist_cons_self _ _
    rw [List.foldl_cons, List.map_cons, List.reverse_cons, List.append_assoc, List.singleton_append]
    exact (ih _).trans (List.Sublist.append (List.Sublist.refl _) hstep)

section Scan

variable {m : Type → Type} [Monad m] {α : Type} {lower : Nat → (Nat → m (Option α)) → m (Option α)}

/-- If one can be taken from every depth above zero, the search asks about the unanswered openers one
after another, until it gets an answer. -/
theorem scanM_eq (hlower : ∀ n next, lower (n + 1) next = next n) (k : Bracket)
    (ask : CodeChar → m (Option α)) (pending : Nat) (code : List CodeChar) :
    k.scanM lower ask (pending + 1) code = ((k.openers pending code).map Prod.fst).findSomeM? ask := by
  induction code generalizing pending with
  | nil => rfl
  | cons c before ih =>
    rw [scanM]
    by_cases hc : c.char = k.closer
    · rw [if_pos hc, openers_closer hc, ih]
    · by_cases ho : c.char = k.opener
      · rw [if_neg hc, if_pos ho, hlower]
        cases pending with
        | zero =>
          have hnext := ih 0
          rw [Nat.zero_add] at hnext
          rw [if_pos rfl, openers_opener_zero ho, List.map_cons, List.findSomeM?_cons, hnext]
          rfl
        | succ n => rw [if_neg (Nat.add_one_ne_zero n), openers_opener_succ ho, ih]
      · rw [if_neg hc, if_neg ho, openers_other hc ho, ih]

end Scan

end Bracket

theorem findSomeM?_map {m : Type → Type} [Monad m] {α β γ : Type} (f : α → β) (ask : β → m (Option γ))
    (xs : List α) : (xs.map f).findSomeM? ask = xs.findSomeM? fun x => ask (f x) := by
  induction xs with
  | nil => rfl
  | cons x rest ih => rw [List.map_cons, List.findSomeM?_cons, List.findSomeM?_cons, ih]

theorem findSome?_congr {α β : Type} {f g : α → Option β} {xs : List α} (h : ∀ x ∈ xs, f x = g x) :
    xs.findSome? f = xs.findSome? g := by
  have hmap := congrArg (List.findSome? id) (List.map_congr_left h)
  rwa [List.findSome?_map, List.findSome?_map] at hmap

/-- Asks a question and notes down what it was about. -/
def noting {α : Type} (f : Position → Option α) (p : Position) : StateM (List Position) (Option α) := do
  modify (· ++ [p])
  return f p

/-- The notes are about everything up to the first answer. -/
theorem findSomeM?_noting {α : Type} (f : Position → Option α) (ps notes : List Position) :
    (ps.findSomeM? (noting f)).run notes =
      (ps.findSome? f, notes ++ ps.take (ps.findIdx (fun p => (f p).isSome) + 1)) := by
  induction ps generalizing notes with
  | nil => rw [List.take_nil, List.append_nil]; rfl
  | cons p rest ih =>
    cases hp : f p with
    | some found =>
      have hstep : ((p :: rest).findSomeM? (noting f)).run notes = (some found, notes ++ [p]) := by
        rw [List.findSomeM?_cons]
        simp only [noting, hp]
        rfl
      rw [hstep]
      simp [List.findIdx_cons, hp]
    | none =>
      have hstep : ((p :: rest).findSomeM? (noting f)).run notes =
          (rest.findSomeM? (noting f)).run (notes ++ [p]) := by
        rw [List.findSomeM?_cons]
        simp only [noting, hp]
        rfl
      rw [hstep]
      simp [List.findIdx_cons, hp, ih]

/-- The opener nearest to a column, found among the brackets, is the first one found in the code. -/
theorem Focus.map_opener? (f : Focus) (k : Bracket) (column : Nat) :
    (k.opener? (f.bracketsBefore column)).map Spot.position =
      ((k.openers 0 (f.codeBefore column)).map fun x => x.1.position).head? := by
  have hfilter := congrArg (List.map fun c : CodeChar => c.position)
    (k.openers_filter 0 (f.codeBefore column))
  rw [List.map_map, List.map_map, ← bracketsBefore_eq] at hfilter
  rw [Bracket.opener?, Option.map_map, ← List.head?_map]
  exact congrArg List.head? hfilter

namespace Buffer

/-- The openers left open by the code before a position, the last one on top. -/
def unclosed (b : Buffer) (p : Position) (k : Bracket) : List Position :=
  (b.code.filter fun c => c.position.Before p).foldl k.track []

theorem openers_eq {b : Buffer} {p : Position} (h : p.line < b.count) (k : Bracket) :
    b.openers p k = b.unclosed p k := by
  have hopeners := k.openers_eq_drop 0 (b.codeBefore p)
  rw [codeBefore_eq h, List.reverse_reverse, List.drop_zero] at hopeners
  rw [openers, codeBefore_eq h, unclosed]
  exact hopeners

theorem scan_eq {m : Type → Type} [Monad m] {α : Type} {b : Buffer} {p : Position}
    (h : p.line < b.count) (k : Bracket) (ask : Position → m (Option α)) :
    b.scan p k ask = (b.unclosed p k).findSomeM? ask := by
  rw [← openers_eq h, scan, Bracket.scanM_eq (fun _ _ => rfl), openers, findSomeM?_map, findSomeM?_map]

theorem line_lt_of_mem_code {b : Buffer} {c : CodeChar} (h : c ∈ b.code) : c.position.line < b.count := by
  obtain ⟨r, hr, hc⟩ := List.mem_flatMap.mp h
  have hindex := index_lt_of_mem_rowsFrom hr
  rw [Row.line_of_mem_code hc, count]
  omega

theorem codeBefore_missing {b : Buffer} {p : Position} (h : ¬p.line < b.count) : b.codeBefore p = [] := by
  rw [codeBefore, focus?_eq_none (List.getElem?_eq_none (Nat.le_of_not_lt h))]

/-- Reading on from a place is reading from that place. -/
theorem codeBefore_of_suffix {b : Buffer} {p : Position} {c : CodeChar} {before : List CodeChar}
    (h : (c :: before) <:+ b.codeBefore p) : b.codeBefore c.position = before := by
  by_cases hp : p.line < b.count
  · obtain ⟨after, hafter⟩ := h
    rw [codeBefore_eq hp, eq_comm, List.reverse_eq_iff, List.reverse_append, List.reverse_cons,
      List.append_assoc, List.singleton_append] at hafter
    have hmem : c ∈ b.code.filter fun d => d.position.Before p := by
      rw [hafter]
      exact List.mem_append_right _ List.mem_cons_self
    obtain ⟨hc, hcp⟩ := List.mem_filter.mp hmem
    have horder : InOrder (before.reverse ++ c :: after.reverse) := by
      rw [← hafter]
      exact b.inOrder_code.filter _
    have hfilter : (b.code.filter fun d => d.position.Before c.position) =
        (b.code.filter fun d => d.position.Before p).filter fun d => d.position.Before c.position := by
      rw [List.filter_filter]
      refine List.filter_congr ?_
      intro d _
      have hdp : d.position.Before c.position → d.position.Before p := fun h =>
        h.trans (of_decide_eq_true hcp)
      simpa using hdp
    rw [codeBefore_eq (line_lt_of_mem_code hc), hfilter, hafter, horder.filter_before_self,
      List.reverse_reverse]
  · rw [codeBefore_missing hp, List.suffix_nil] at h
    cases h

/-- A header can be read anew from the place of its brace. -/
theorem findSome?_header (b : Buffer) (p : Position) :
    ((Bracket.brace.openers 0 (b.codeBefore p)).findSome? fun x =>
      header? (b.codeBefore x.1.position)) = b.enclosingFunction? p := by
  apply findSome?_congr
  intro x hx
  rw [codeBefore_of_suffix (Bracket.suffix_of_mem_openers hx)]

/-- The function around a position is the first header that the search finds in front of a brace. -/
theorem scan_header {m : Type → Type} [Monad m] [LawfulMonad m] (b : Buffer) (p : Position) :
    (b.scan p .brace fun q => pure (header? (b.codeBefore q)) : m (Option String)) =
      pure (b.enclosingFunction? p) := by
  rw [scan, Bracket.scanM_eq (fun _ _ => rfl), List.findSomeM?_pure, List.findSome?_map]
  exact congrArg pure (b.findSome?_header p)

theorem lt_count_of_cell? {b : Buffer} {p : Position} {x : Cell} (h : b.cell? p = some x) :
    p.line < b.count := by
  obtain ⟨l, hl, -⟩ := Option.bind_eq_some_iff.mp h
  exact (List.getElem?_eq_some_iff.mp hl).1

/-- A closer answers the top of the stack before it. -/
theorem matchingOpener?_eq_head? {b : Buffer} {p : Position} {k : Bracket}
    (h : b.cell? p = some ⟨k.closer, .code⟩) : b.matchingOpener? p = (b.unclosed p k).head? := by
  obtain ⟨l, hl, hcell⟩ := Option.bind_eq_some_iff.mp h
  have hk : Bracket.ofCloser? k.closer = some k := Bracket.ofCloser?_eq_some_iff.mpr rfl
  have hfocus := focus?_eq_some hl
  rw [← openers_eq (lt_count_of_cell? h), matchingOpener?, openers, codeBefore, hfocus]
  simp only [Focus.matchingOpener?_eq (f := ⟨b.above p.line, Row.of p.line l⟩) hcell, hk,
    Option.bind_some]
  exact Focus.map_opener? _ k p.column

/-- Once a closer has answered an opener, that opener is on no later stack. -/
theorem not_mem_unclosed {b : Buffer} {p q r : Position} {k : Bracket}
    (hp : b.cell? p = some ⟨k.closer, .code⟩) (hr : (b.unclosed p k).head? = some r)
    (hpq : p.Before q) : r ∉ b.unclosed q k := by
  obtain ⟨c, hc, rfl, hcloser⟩ := exists_code hp
  obtain ⟨xs, ys, hcode⟩ := List.append_of_mem hc
  have horder := b.inOrder_code
  rw [hcode] at horder
  rw [unclosed, hcode, horder.filter_before_self] at hr
  rw [unclosed, hcode, horder.filter_before hpq, List.foldl_append, List.foldl_cons,
    Bracket.track_closer hcloser]
  obtain ⟨below, hstack⟩ := List.head?_eq_some_iff.mp hr
  have hread : (r :: below).Sublist (xs.map fun d => d.position).reverse := by
    have hsublist := k.foldl_track_sublist xs []
    rwa [hstack, List.append_nil] at hsublist
  obtain ⟨hxs, -, hbefore⟩ := List.pairwise_append.mp horder
  rw [hstack, List.tail_cons]
  intro hmem
  rcases List.mem_append.mp ((k.foldl_track_sublist _ below).subset hmem) with hlater | hbelow
  · obtain ⟨d, hd, hdr⟩ := List.mem_map.mp (List.mem_reverse.mp hlater)
    obtain ⟨e, he, her⟩ := List.mem_map.mp (List.mem_reverse.mp (hread.subset List.mem_cons_self))
    have hed := hbefore e he d (List.mem_cons_of_mem c (List.mem_of_mem_filter hd))
    rw [hdr, her] at hed
    exact Position.Before.irrefl r hed
  · have hnodup : (r :: below).Nodup := hread.nodup (InOrder.nodup_reverse hxs)
    exact (List.nodup_cons.mp hnodup).1 hbelow

/-- The search backwards goes through the stack from the top down: it asks about each opener on it,
up to the first answer, and about nothing else. A closer answers the top of the stack before it, and
no other closer of its kind answers the same opener. -/
theorem scan_agrees (b : Buffer) (k : Bracket) :
    (∀ p : Position, p.line < b.count →
      (∀ (m : Type → Type) [Monad m] (α : Type) (ask : Position → m (Option α)),
        b.scan p k ask = (b.unclosed p k).findSomeM? ask) ∧
      ∀ (α : Type) (f : Position → Option α), (b.scan p k (noting f)).run [] =
        ((b.unclosed p k).findSome? f,
          (b.unclosed p k).take ((b.unclosed p k).findIdx (fun q => (f q).isSome) + 1))) ∧
    (∀ p : Position, b.cell? p = some ⟨k.closer, .code⟩ →
      b.matchingOpener? p = (b.unclosed p k).head?) ∧
    ∀ p q r : Position, b.cell? p = some ⟨k.closer, .code⟩ → b.cell? q = some ⟨k.closer, .code⟩ →
      b.matchingOpener? p = some r → b.matchingOpener? q = some r → p = q := by
  refine ⟨?_, fun p hp => matchingOpener?_eq_head? hp, ?_⟩
  · intro p hp
    constructor
    · intro m _ α ask
      exact scan_eq hp k ask
    · intro α f
      rw [scan_eq hp, findSomeM?_noting, List.nil_append]
  · intro p q r hp hq hpr hqr
    rw [matchingOpener?_eq_head? hp] at hpr
    rw [matchingOpener?_eq_head? hq] at hqr
    rcases p.before_or_eq q with hpq | heq | hqp
    · exact absurd (List.mem_of_mem_head? hqr) (not_mem_unclosed hp hpr hpq)
    · exact heq
    · exact absurd (List.mem_of_mem_head? hpr) (not_mem_unclosed hq hqr hqp)

/-- Stray closers at both ends, brackets of other kinds, and braces in a string and a comment. -/
def strayClosers : Buffer :=
  ofLines (["\x7d .A = \x7b [ '\x7b' // \x7b", "\x7b ) \x7d \x7b ]", "\x7d \x7d \x7d"].map String.toList)

theorem scan_agrees_strayClosers :
    (strayClosers.scan ⟨2, 0⟩ .brace
        (noting fun q => if q.line = 0 then some q.column else none)).run [] =
      (some 7, [⟨1, 6⟩, ⟨0, 7⟩]) ∧
    strayClosers.matchingOpener? ⟨2, 0⟩ = some ⟨1, 6⟩ ∧
    strayClosers.matchingOpener? ⟨2, 2⟩ ≠ some ⟨1, 6⟩ := by
  obtain ⟨hscan, hmatching, hdistinct⟩ := scan_agrees strayClosers .brace
  have hstack : strayClosers.unclosed ⟨2, 0⟩ .brace = [⟨1, 6⟩, ⟨0, 7⟩] := by decide
  have hcloser : strayClosers.cell? ⟨2, 0⟩ = some ⟨Bracket.brace.closer, .code⟩ := by decide
  have hother : strayClosers.cell? ⟨2, 2⟩ = some ⟨Bracket.brace.closer, .code⟩ := by decide
  have hopener : strayClosers.matchingOpener? ⟨2, 0⟩ = some ⟨1, 6⟩ := by
    rw [hmatching _ hcloser, hstack]
    rfl
  refine ⟨?_, hopener, ?_⟩
  · rw [(hscan ⟨2, 0⟩ (by decide)).2, hstack]
    rfl
  · intro h
    cases hdistinct _ _ _ hcloser hother hopener h

end Buffer

end BffLayout
