import Mathlib.Data.List.Chain
import BffLayout.Proofs.Scanning

/-!
Spans. A pass over the kinds of a line, from its first column on, keeps the spans found so far: a
character of the kind of the last span makes that span longer, in place, and any other character starts a
span of its own. After every column the spans are the maximal runs of the kinds passed. A list of kinds has
only one decomposition into maximal runs, so the spans of a line are determined by its kinds, in whatever
order they are put together.
-/
namespace BffLayout

/-- The spans follow each other from column 0 to the end of `kinds` without a gap, the columns inside a span
are of its kind, and neighbours are of different kinds. -/
structure MaximalRuns (kinds : List Kind) (spans : List Span) : Prop where
  nonempty : ∀ s ∈ spans, s.start < s.stop
  first : ∀ s ∈ spans.head?, s.start = 0
  adjacent : spans.IsChain fun s t => t.start = s.stop
  last : ∀ s ∈ spans.getLast?, s.stop = kinds.length
  none_iff : spans = [] ↔ kinds = []
  inside : ∀ s ∈ spans, ∀ column, s.start ≤ column → column < s.stop → kinds[column]? = some s.kind
  /-- Else the two would be one run. -/
  distinct : spans.IsChain fun s t => t.kind ≠ s.kind

/-- The spans behind one more column, whose character is of kind `k`. -/
def extendSpans (spans : List Span) (column : Nat) (k : Kind) : List Span :=
  match spans.getLast? with
  | some s =>
    if s.kind = k then spans.dropLast ++ [{ s with stop := column + 1 }]
    else spans ++ [⟨k, column, column + 1⟩]
  | none => [⟨k, column, column + 1⟩]

/-- The spans of `kinds`, put together in one pass. -/
def coalesce (kinds : List Kind) : List Span :=
  kinds.zipIdx.foldl (fun spans x => extendSpans spans x.2 x.1) []

theorem extendSpans_nil (column : Nat) (k : Kind) :
    extendSpans [] column k = [⟨k, column, column + 1⟩] := rfl

theorem extendSpans_same (spans : List Span) (s : Span) (column : Nat) :
    extendSpans (spans ++ [s]) column s.kind = spans ++ [{ s with stop := column + 1 }] := by
  rw [extendSpans, List.getLast?_concat, List.dropLast_concat]
  exact if_pos rfl

theorem extendSpans_other (spans : List Span) {s : Span} (column : Nat) {k : Kind} (h : s.kind ≠ k) :
    extendSpans (spans ++ [s]) column k = spans ++ [s] ++ [⟨k, column, column + 1⟩] := by
  rw [extendSpans, List.getLast?_concat]
  exact if_neg h

theorem coalesce_concat (kinds : List Kind) (k : Kind) :
    coalesce (kinds ++ [k]) = extendSpans (coalesce kinds) kinds.length k := by
  rw [coalesce, List.zipIdx_append, List.foldl_append, Nat.zero_add]
  rfl

namespace MaximalRuns

variable {kinds : List Kind} {spans : List Span} {s : Span} {k : Kind}

theorem nil : MaximalRuns [] [] where
  nonempty := by simp
  first := by simp
  adjacent := .nil
  last := by simp
  none_iff := by simp
  inside := by simp
  distinct := .nil

/-- No span reaches beyond the end. -/
theorem stop_le (h : MaximalRuns kinds spans) (hs : s ∈ spans) : s.stop ≤ kinds.length := by
  have hlt := h.nonempty s hs
  have hkind := h.inside s hs (s.stop - 1) (by omega) (by omega)
  have hbound := (List.getElem?_eq_some_iff.mp hkind).1
  omega

/-- One more column of kind `k`. The spans `before` stay as they are, and what followed them gives way to one
span, from column `start` up to and with the new one. -/
theorem concat {before rest : List Span} {start : Nat} (h : MaximalRuns kinds (before ++ rest))
    (hle : start ≤ kinds.length) (hfirst : before = [] → start = 0)
    (hlast : ∀ t ∈ before.getLast?, start = t.stop ∧ k ≠ t.kind)
    (hinside : ∀ column, start ≤ column → column < kinds.length → kinds[column]? = some k) :
    MaximalRuns (kinds ++ [k]) (before ++ [⟨k, start, kinds.length + 1⟩]) where
  nonempty := by
    intro t ht
    obtain ht | ht := List.mem_append.mp ht
    · exact h.nonempty t (List.mem_append_left _ ht)
    · obtain rfl := List.mem_singleton.mp ht
      exact Nat.lt_succ_of_le hle
  first := by
    intro t ht
    cases before with
    | nil =>
      cases ht
      exact hfirst rfl
    | cons u more => exact h.first t ht
  adjacent := by
    refine h.adjacent.left_of_append.append (.singleton _) ?_
    intro t ht u hu
    cases hu
    exact (hlast t ht).1
  last := by
    intro t ht
    rw [List.getLast?_concat] at ht
    cases ht
    rw [List.length_append, List.length_singleton]
  none_iff := by simp
  inside := by
    intro t ht column hstart hstop
    obtain ht | ht := List.mem_append.mp ht
    · have hmem := List.mem_append_left rest ht
      rw [List.getElem?_append_left (Nat.lt_of_lt_of_le hstop (h.stop_le hmem))]
      exact h.inside t hmem column hstart hstop
    · obtain rfl := List.mem_singleton.mp ht
      obtain hlt | rfl := Nat.lt_or_eq_of_le (Nat.le_of_lt_succ hstop)
      · rw [List.getElem?_append_left hlt]
        exact hinside column hstart hlt
      · exact List.getElem?_concat_length
  distinct := by
    refine h.distinct.left_of_append.append (.singleton _) ?_
    intro t ht u hu
    cases hu
    exact (hlast t ht).2

/-- A character of another kind than the last one starts a span of its own. -/
theorem push (h : MaximalRuns kinds spans) (hk : ∀ s ∈ spans.getLast?, k ≠ s.kind) :
    MaximalRuns (kinds ++ [k]) (spans ++ [⟨k, kinds.length, kinds.length + 1⟩]) := by
  rw [← List.append_nil spans] at h
  refine h.concat (Nat.le_refl _) ?_ ?_ ?_
  · intro hnil
    rw [h.none_iff.mp (by rw [hnil]; rfl), List.length_nil]
  · intro t ht
    exact ⟨(h.last t (by rwa [List.append_nil])).symm, hk t ht⟩
  · intro column hge hlt
    omega

/-- A character of the kind of the last span makes that span longer. -/
theorem grow (h : MaximalRuns kinds (spans ++ [s])) :
    MaximalRuns (kinds ++ [s.kind]) (spans ++ [{ s with stop := kinds.length + 1 }]) := by
  have hmem : s ∈ spans ++ [s] := List.mem_concat_self
  have hstop : s.stop = kinds.length := h.last s List.getLast?_concat
  refine h.concat ?_ ?_ ?_ ?_
  · have hlt := h.nonempty s hmem
    omega
  · rintro rfl
    exact h.first s rfl
  · intro t ht
    exact ⟨(List.isChain_append.mp h.adjacent).2.2 t ht s rfl,
      (List.isChain_append.mp h.distinct).2.2 t ht s rfl⟩
  · intro column hge hlt
    exact h.inside s hmem column hge (hstop ▸ hlt)

/-- One more column keeps the decomposition. -/
theorem extend (h : MaximalRuns kinds spans) (k : Kind) :
    MaximalRuns (kinds ++ [k]) (extendSpans spans kinds.length k) := by
  obtain rfl | ⟨before, s, rfl⟩ := List.eq_nil_or_concat' spans
  · exact h.push (by simp)
  · by_cases hk : s.kind = k
    · subst hk
      rw [extendSpans_same]
      exact h.grow
    · rw [extendSpans_other before _ hk]
      refine h.push ?_
      intro t ht
      rw [List.getLast?_concat] at ht
      cases ht
      exact Ne.symm hk

/-- The pass gives maximal runs, whatever the kinds. -/
theorem coalesce (kinds : List Kind) : MaximalRuns kinds (coalesce kinds) := by
  induction kinds using List.reverseRecOn with
  | nil => exact nil
  | append_singleton kinds k ih =>
    rw [coalesce_concat]
    exact ih.extend k

/-- Behind a span that does not reach the end comes another, from where the span stops and of another kind. -/
theorem exists_next (h : MaximalRuns kinds spans) {i : Nat} (hs : spans[i]? = some s)
    (hstop : s.stop < kinds.length) :
    ∃ t, spans[i + 1]? = some t ∧ t.start = s.stop ∧ t.kind ≠ s.kind := by
  obtain ⟨hi, rfl⟩ := List.getElem?_eq_some_iff.mp hs
  have hnext : i + 1 < spans.length := by
    by_contra hge
    have hlast : spans.getLast? = some spans[i] := by
      rw [List.getLast?_eq_getElem?, ← hs]
      congr 1
      omega
    have hend := h.last _ hlast
    omega
  exact ⟨spans[i + 1], List.getElem?_eq_getElem hnext, h.adjacent.getElem i hnext,
    h.distinct.getElem i hnext⟩

/-- Behind a span that reaches the end comes none. -/
theorem next_eq_none (h : MaximalRuns kinds spans) {i : Nat} (hs : spans[i]? = some s)
    (hstop : s.stop = kinds.length) : spans[i + 1]? = none := by
  rw [List.getElem?_eq_none_iff]
  by_contra hlt
  have hnext : i + 1 < spans.length := by omega
  obtain ⟨hi, rfl⟩ := List.getElem?_eq_some_iff.mp hs
  have hjoin := h.adjacent.getElem i hnext
  have hpositive := h.nonempty _ (List.getElem_mem hnext)
  have hbound := h.stop_le (List.getElem_mem hnext)
  omega

variable {other : List Span} {t : Span}

theorem kind_eq (h : MaximalRuns kinds spans) (h' : MaximalRuns kinds other) (hs : s ∈ spans)
    (ht : t ∈ other) (hstart : s.start = t.start) : s.kind = t.kind := by
  have hskind := h.inside s hs s.start (Nat.le_refl _) (h.nonempty s hs)
  have htkind := h'.inside t ht t.start (Nat.le_refl _) (h'.nonempty t ht)
  rw [hstart, htkind] at hskind
  exact (Option.some.inj hskind).symm

/-- Of two runs that start in the same column, neither goes on beyond the other. -/
theorem stop_le_stop (h : MaximalRuns kinds spans) (h' : MaximalRuns kinds other) {j : Nat}
    (hs : s ∈ spans) (ht : other[j]? = some t) (hstart : s.start = t.start) : s.stop ≤ t.stop := by
  by_contra hlt
  have hmem := List.mem_of_getElem? ht
  have hbound := h.stop_le hs
  have hpositive := h'.nonempty t hmem
  obtain ⟨u, hu, hjoin, hkind⟩ := h'.exists_next ht (by omega)
  have humem := List.mem_of_getElem? hu
  have hinu := h'.inside u humem u.start (Nat.le_refl _) (h'.nonempty u humem)
  have hins := h.inside s hs u.start (by omega) (by omega)
  rw [hinu, h.kind_eq h' hs hmem hstart] at hins
  exact hkind (Option.some.inj hins)

theorem span_eq (h : MaximalRuns kinds spans) (h' : MaximalRuns kinds other) {i j : Nat}
    (hs : spans[i]? = some s) (ht : other[j]? = some t) (hstart : s.start = t.start) : s = t := by
  have hkind := h.kind_eq h' (List.mem_of_getElem? hs) (List.mem_of_getElem? ht) hstart
  have hstop : s.stop = t.stop := Nat.le_antisymm (h.stop_le_stop h' (List.mem_of_getElem? hs) ht hstart)
    (h'.stop_le_stop h (List.mem_of_getElem? ht) hs hstart.symm)
  cases s
  cases t
  cases hkind
  cases hstart
  cases hstop
  rfl

theorem getElem?_zero_eq (h : MaximalRuns kinds spans) (h' : MaximalRuns kinds other) :
    spans[0]? = other[0]? := by
  cases spans with
  | nil => rw [h'.none_iff.mpr (h.none_iff.mp rfl)]
  | cons s more =>
    cases other with
    | nil => cases h.none_iff.mpr (h'.none_iff.mp rfl)
    | cons t rest =>
      have hstart : s.start = t.start := (h.first s rfl).trans (h'.first t rfl).symm
      exact congrArg some (h.span_eq h' (i := 0) (j := 0) rfl rfl hstart)

/-- Two decompositions of the same kinds agree span by span: each span starts where the one before it, which
they share, stops. -/
theorem getElem?_eq (h : MaximalRuns kinds spans) (h' : MaximalRuns kinds other) (i : Nat) :
    spans[i]? = other[i]? := by
  induction i with
  | zero => exact h.getElem?_zero_eq h'
  | succ i ih =>
    cases hs : spans[i]? with
    | none =>
      rw [hs] at ih
      rw [List.getElem?_eq_none_iff] at hs
      have ht := List.getElem?_eq_none_iff.mp ih.symm
      rw [List.getElem?_eq_none (Nat.le_succ_of_le hs), List.getElem?_eq_none (Nat.le_succ_of_le ht)]
    | some s =>
      have ht : other[i]? = some s := ih.symm.trans hs
      obtain hstop | hstop := Nat.lt_or_eq_of_le (h.stop_le (List.mem_of_getElem? hs))
      · obtain ⟨u, hu, hustart, -⟩ := h.exists_next hs hstop
        obtain ⟨v, hv, hvstart, -⟩ := h'.exists_next ht hstop
        rw [hu, hv, h.span_eq h' hu hv (hustart.trans hvstart.symm)]
      · rw [h.next_eq_none hs hstop, h'.next_eq_none ht hstop]

/-- Kinds have one decomposition into maximal runs. -/
theorem iff_eq_coalesce : MaximalRuns kinds spans ↔ spans = BffLayout.coalesce kinds := by
  constructor
  · intro h
    exact List.ext_getElem? (h.getElem?_eq (coalesce kinds))
  · rintro rfl
    exact coalesce kinds

end MaximalRuns

theorem extendSpans_cons (s : Span) {spans : List Span} (h : spans ≠ []) (column : Nat) (k : Kind) :
    extendSpans (s :: spans) column k = s :: extendSpans spans column k := by
  obtain rfl | ⟨before, t, rfl⟩ := List.eq_nil_or_concat' spans
  · exact absurd rfl h
  · by_cases hk : t.kind = k
    · subst hk
      rw [extendSpans_same]
      exact extendSpans_same (s :: before) t column
    · rw [extendSpans_other before column hk]
      exact extendSpans_other (s :: before) column hk

/-- One more column leaves the kind of the first span, and does not ask where it starts. -/
theorem exists_extendSpans_cons (s : Span) (more : List Span) (column : Nat) (k : Kind) :
    ∃ t after, extendSpans (s :: more) column k = t :: after ∧ t.kind = s.kind ∧
      ∀ start, extendSpans (⟨s.kind, start, s.stop⟩ :: more) column k = ⟨s.kind, start, t.stop⟩ :: after := by
  cases more with
  | nil =>
    by_cases hk : s.kind = k
    · subst hk
      exact ⟨_, _, extendSpans_same [] s column, rfl, fun start =>
        extendSpans_same [] ⟨s.kind, start, s.stop⟩ column⟩
    · exact ⟨_, _, extendSpans_other [] column hk, rfl, fun start =>
        @extendSpans_other [] ⟨s.kind, start, s.stop⟩ column k hk⟩
  | cons m ms =>
    have hne := List.cons_ne_nil m ms
    exact ⟨_, _, extendSpans_cons s hne column k, rfl, fun start =>
      extendSpans_cons ⟨s.kind, start, s.stop⟩ hne column k⟩

section FromTheRight

variable {column : Nat} {c : Cell} {rest : List Cell} {s : Span} {more : List Span}

theorem spansFrom_cons_nil (h : spansFrom (column + 1) rest = []) :
    spansFrom column (c :: rest) = [⟨c.kind, column, column + 1⟩] := by
  rw [spansFrom, h]

theorem spansFrom_cons_same (h : spansFrom (column + 1) rest = s :: more) (hk : s.kind = c.kind) :
    spansFrom column (c :: rest) = ⟨c.kind, column, s.stop⟩ :: more := by
  rw [spansFrom, h]
  exact if_pos hk

theorem spansFrom_cons_other (h : spansFrom (column + 1) rest = s :: more) (hk : s.kind ≠ c.kind) :
    spansFrom column (c :: rest) = ⟨c.kind, column, column + 1⟩ :: s :: more := by
  rw [spansFrom, h]
  exact if_neg hk

end FromTheRight

/-- A cell in front of `rest` changes the first span only, a cell behind it the last. -/
theorem spansFrom_cons_concat {column n : Nat} (c : Cell) {rest : List Cell} {cell : Cell}
    (h : spansFrom (column + 1) (rest ++ [cell]) =
      extendSpans (spansFrom (column + 1) rest) n cell.kind) :
    spansFrom column (c :: (rest ++ [cell])) = extendSpans (spansFrom column (c :: rest)) n cell.kind := by
  cases hspans : spansFrom (column + 1) rest with
  | nil =>
    rw [hspans, extendSpans_nil] at h
    rw [spansFrom_cons_nil hspans]
    by_cases hk : cell.kind = c.kind
    · rw [spansFrom_cons_same h hk, hk]
      exact (extendSpans_same [] ⟨c.kind, column, column + 1⟩ n).symm
    · rw [spansFrom_cons_other h hk]
      exact (extendSpans_other [] n (Ne.symm hk)).symm
  | cons s more =>
    obtain ⟨t, after, hextend, hkind, hstart⟩ := exists_extendSpans_cons s more n cell.kind
    rw [hspans, hextend] at h
    by_cases hk : s.kind = c.kind
    · rw [spansFrom_cons_same h (hkind.trans hk), spansFrom_cons_same hspans hk, ← hk, hstart]
    · rw [spansFrom_cons_other h (hkind ▸ hk), spansFrom_cons_other hspans hk,
        extendSpans_cons _ (List.cons_ne_nil s more), hextend]

/-- Put together from the right, the spans of one more cell are those that the pass gives. -/
theorem spansFrom_concat (column : Nat) (cells : List Cell) (cell : Cell) :
    spansFrom column (cells ++ [cell]) =
      extendSpans (spansFrom column cells) (column + cells.length) cell.kind := by
  induction cells generalizing column with
  | nil => rfl
  | cons c rest ih =>
    have hlength : column + (c :: rest).length = column + 1 + rest.length := by
      rw [List.length_cons]
      omega
    rw [hlength]
    exact spansFrom_cons_concat c (ih (column + 1))

theorem spansFrom_eq_coalesce (cells : List Cell) : spansFrom 0 cells = coalesce (cells.map Cell.kind) := by
  induction cells using List.reverseRecOn with
  | nil => rfl
  | append_singleton cells cell ih =>
    rw [spansFrom_concat, ih, List.map_append, List.map_singleton, coalesce_concat, List.length_map,
      Nat.zero_add]

namespace Line

/-- Each character of a line has one kind, which the scanner gives it in one passage over the line. The
spans of the line are the one decomposition of these kinds into maximal runs, and the one that the pass
over them puts together. -/
theorem spans_maximalRuns (l : Line) :
    l.cells.map Cell.char = l.chars ∧ l.kinds.length = l.length ∧
    l.scan = (⟨l.chars, l.length, l.kinds⟩, l.openAtEnd, l.next) ∧
    coalesce l.kinds = l.spans ∧ ∀ spans, MaximalRuns l.kinds spans ↔ spans = l.spans := by
  have hspans : l.spans = coalesce l.kinds := spansFrom_eq_coalesce l.cells
  refine ⟨Mode.map_char_tag _ _, l.length_kinds, l.scan_eq, hspans.symm, ?_⟩
  intro spans
  rw [hspans]
  exact MaximalRuns.iff_eq_coalesce

-- Two strings without code between them are one span.
example : (⟨.block, "*/'a''b^''".toList⟩ : Line).spans = [⟨.blockComment, 0, 2⟩, ⟨.string, 2, 10⟩] := by
  decide

end Line

end BffLayout
