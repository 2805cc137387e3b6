import BffLayout.Proofs.Headers
import BffLayout.Proofs.Preservation

/-!
Bodies and margins. The function around a place is read off the code before it, backwards and across
lines, and margins are code too. Left margins can be changed without a change of the function, as long
as no line that begins with a name gets a point or a dollar sign right before it, or loses one. The sign
is looked for wherever the code before the name ends, so that one at the end of a line makes a variable's
name of the first name on the next, unless a margin stands between the two.
-/
namespace BffLayout

/-- Whether code read backwards begins with a sign that makes the name after it a variable's. -/
def afterSign (code : List CodeChar) : Bool := code.head?.any fun c => c.char == '.' || c.char == '$'

/-- Whether a name can start with a character. -/
def isNameStart (c : Char) : Bool := c.isAlpha || c == '_'

/-- The same character of row `k`, where the margins of rows are `m` on the left and `m'` on the right. -/
structure Slides (m m' : Nat → Nat) (k : Nat) (c d : CodeChar) : Prop where
  char : c.char = d.char
  left : c.row.index = k
  right : d.row.index = k
  column : c.column + m' k = d.column + m k

/-- The code of the first rows, read backwards, before and after a change of margins. Nothing that can
start a name is behind a sign on one side only. -/
inductive Realigned (m m' : Nat → Nat) : (rows : Nat) → List CodeChar → List CodeChar → Prop
  | nil : Realigned m m' 0 [] []
  | margin {k : Nat} {code code' gap gap' : List CodeChar} (h : Realigned m m' k code code')
      (hgap : ∀ c ∈ gap, isWhite c.char = true ∧ c.row.index = k)
      (hgap' : ∀ c ∈ gap', isWhite c.char = true ∧ c.row.index = k) :
      Realigned m m' (k + 1) (gap ++ code) (gap' ++ code')
  | ink {k : Nat} {code code' : List CodeChar} {c d : CodeChar}
      (h : Realigned m m' (k + 1) code code') (hcd : Slides m m' k c d)
      (hsign : isNameStart c.char = true → afterSign code = afterSign code') :
      Realigned m m' (k + 1) (c :: code) (d :: code')

theorem dropWhiteCode_append {gap : List CodeChar} (h : ∀ c ∈ gap, isWhite c.char = true)
    (code : List CodeChar) : dropWhiteCode (gap ++ code) = dropWhiteCode code :=
  List.dropWhile_append_of_pos h

theorem Bracket.openers_white {gap : List CodeChar} (h : ∀ c ∈ gap, isWhite c.char = true) (b : Bracket)
    (pending : Nat) (code : List CodeChar) : b.openers pending (gap ++ code) = b.openers pending code := by
  induction gap with
  | nil => rfl
  | cons c rest ih =>
    obtain ⟨hc, hrest⟩ := List.forall_mem_cons.mp h
    have hbracket := Line.isBracket_white hc
    rw [List.cons_append, openers_other, ih hrest]
    · rintro he
      rw [he, isBracket_closer] at hbracket
      cases hbracket
    · rintro he
      rw [he, isBracket_opener] at hbracket
      cases hbracket

/-- A name does not go on into another row, nor into white space. -/
theorem nameBack_stop {index : Nat} {code : List CodeChar}
    (h : ∀ c ∈ code.head?, c.row.index = index → isNameChar c.char = false) (stop : Nat) :
    nameBack index stop code = ([], code) := by
  cases code with
  | nil => rfl
  | cons c before =>
    rw [nameBack, if_neg]
    rintro ⟨hindex, -, hname⟩
    rw [h c rfl hindex] at hname
    cases hname

theorem nameBack_rest {index stop : Nat} {code : List CodeChar} (h : (nameBack index stop code).1 = []) :
    (nameBack index stop code).2 = code := by
  cases code with
  | nil => rfl
  | cons c before =>
    rw [nameBack] at h ⊢
    split at h
    · cases h
    · rw [if_neg ‹_›]

namespace Realigned

variable {m m' : Nat → Nat} {n : Nat} {code code' : List CodeChar} (h : Realigned m m' n code code')

include h

theorem index_lt : (∀ c ∈ code, c.row.index < n) ∧ ∀ c ∈ code', c.row.index < n := by
  induction h with
  | nil => simp
  | margin h hgap hgap' ih =>
    simp only [List.mem_append]
    constructor
    · rintro c (hc | hc)
      · exact (hgap c hc).2 ▸ Nat.lt_succ_self _
      · exact Nat.lt_succ_of_lt (ih.1 c hc)
    · rintro c (hc | hc)
      · exact (hgap' c hc).2 ▸ Nat.lt_succ_self _
      · exact Nat.lt_succ_of_lt (ih.2 c hc)
  | ink h hcd hsign ih =>
    simp only [List.forall_mem_cons]
    exact ⟨⟨hcd.left ▸ Nat.lt_succ_self _, ih.1⟩, hcd.right ▸ Nat.lt_succ_self _, ih.2⟩

/-- The same name is read on both sides, and if it starts like one, behind the same sign. -/
theorem nameBack {k : Nat} (hn : n = k + 1) {stop stop' : Nat} (hstop : stop + m' k = stop' + m k) :
    (nameBack k stop code).1 = (nameBack k stop' code').1 ∧
      ∀ x ∈ (BffLayout.nameBack k stop code).1.getLast?, isNameStart x = true →
        afterSign (BffLayout.nameBack k stop code).2 = afterSign (BffLayout.nameBack k stop' code').2 := by
  induction h generalizing stop stop' with
  | nil => cases hn
  | @margin k code code' gap gap' h hgap hgap' ih =>
    cases hn
    have hseam : ∀ {gap code : List CodeChar}, (∀ c ∈ gap, isWhite c.char = true ∧ c.row.index = k) →
        (∀ c ∈ code, c.row.index < k) →
        ∀ c ∈ (gap ++ code).head?, c.row.index = k → isNameChar c.char = false := by
      intro gap code hgap hcode c hc hindex
      obtain hc | hc := List.mem_append.mp (List.mem_of_mem_head? hc)
      · exact isNameChar_white (hgap c hc).1
      · exact absurd hindex (Nat.ne_of_lt (hcode c hc))
    rw [nameBack_stop (hseam hgap h.index_lt.1), nameBack_stop (hseam hgap' h.index_lt.2)]
    exact ⟨rfl, by simp⟩
  | @ink k code code' c d h hcd hsign ih =>
    cases hn
    have hbeside : (c.row.index = k ∧ c.column + 1 = stop ∧ isNameChar c.char = true) ↔
        (d.row.index = k ∧ d.column + 1 = stop' ∧ isNameChar d.char = true) := by
      have hcolumn : c.column + 1 = stop ↔ d.column + 1 = stop' := by
        have := hcd.column
        omega
      rw [hcd.left, hcd.right, hcd.char, hcolumn]
    obtain ⟨hname, hrest⟩ := ih rfl hcd.column
    rw [BffLayout.nameBack, BffLayout.nameBack]
    by_cases hd : d.row.index = k ∧ d.column + 1 = stop' ∧ isNameChar d.char = true
    · rw [if_pos hd, if_pos (hbeside.mpr hd)]
      refine ⟨congrArg₂ List.cons hcd.char hname, ?_⟩
      intro x hx hstart
      cases hmore : (BffLayout.nameBack k c.column code).1 with
      | nil =>
        simp only [hmore, List.getLast?_singleton, Option.mem_some_iff] at hx
        subst hx
        simp only [nameBack_rest hmore, nameBack_rest (hname ▸ hmore)]
        exact hsign hstart
      | cons y name =>
        simp only [hmore, List.getLast?_cons_cons] at hx
        exact hrest x (hmore ▸ hx) hstart
    · rw [if_neg hd, if_neg (mt hbeside.mp hd)]
      exact ⟨rfl, by simp⟩

/-- White space at the end dropped, both sides end with the same character. -/
theorem dropWhiteCode : (dropWhiteCode code = [] ∧ dropWhiteCode code' = []) ∨
    ∃ k c d rest rest', BffLayout.dropWhiteCode code = c :: rest ∧
      BffLayout.dropWhiteCode code' = d :: rest' ∧ Slides m m' k c d ∧
      Realigned m m' (k + 1) rest rest' ∧ Realigned m m' (k + 1) (c :: rest) (d :: rest') := by
  induction h with
  | nil => exact .inl ⟨rfl, rfl⟩
  | margin h hgap hgap' ih =>
    rw [dropWhiteCode_append fun c hc => (hgap c hc).1, dropWhiteCode_append fun c hc => (hgap' c hc).1]
    exact ih
  | @ink k code code' c d h hcd hsign ih =>
    cases hwhite : isWhite c.char with
    | true =>
      have hc : ∀ x ∈ [c], isWhite x.char = true := by simpa using hwhite
      have hd : ∀ x ∈ [d], isWhite x.char = true := by simpa [← hcd.char] using hwhite
      rw [← List.singleton_append, dropWhiteCode_append hc, ← List.singleton_append,
        dropWhiteCode_append hd]
      exact ih
    | false =>
      rw [dropWhiteCode_cons hwhite, dropWhiteCode_cons (hcd.char ▸ hwhite)]
      exact .inr ⟨k, c, d, code, code', rfl, rfl, hcd, h, h.ink hcd hsign⟩

theorem nameAtEnd?_eq : nameAtEnd? code = nameAtEnd? code' := by
  obtain ⟨hnil, hnil'⟩ | ⟨k, c, d, rest, rest', hcode, hcode', hcd, -, hlast⟩ := h.dropWhiteCode
  · rw [nameAtEnd?, nameAtEnd?, hnil, hnil']
  · have hstop : c.column + 1 + m' k = d.column + 1 + m k := by
      have := hcd.column
      omega
    obtain ⟨hname, hsign⟩ := hlast.nameBack rfl hstop
    simp only [nameAtEnd?, hcode, hcode', hcd.left, hcd.right, ← hname]
    rw [← List.head?_reverse] at hsign
    cases hback : (BffLayout.nameBack k (c.column + 1) (c :: rest)).1.reverse with
    | nil => simp
    | cons x name =>
      rw [hback] at hsign
      cases hstart : isNameStart x with
      | true =>
        have hsame := hsign x rfl hstart
        simp only [afterSign] at hsame
        rw [hsame]
      | false =>
        simp only [isNameStart] at hstart
        simp [hstart]

/-- The same brackets are open on both sides, behind code that is realigned. -/
theorem openers (b : Bracket) (pending : Nat) :
    List.Forall₂ (fun x y => ∃ n, Realigned m m' n x.2 y.2) (b.openers pending code)
      (b.openers pending code') := by
  induction h generalizing pending with
  | nil => exact .nil
  | margin h hgap hgap' ih =>
    rw [Bracket.openers_white fun c hc => (hgap c hc).1, Bracket.openers_white fun c hc => (hgap' c hc).1]
    exact ih pending
  | @ink k code code' c d h hcd hsign ih =>
    by_cases hc : c.char = b.closer
    · rw [Bracket.openers_closer hc, Bracket.openers_closer (hcd.char ▸ hc)]
      exact ih (pending + 1)
    · by_cases ho : c.char = b.opener
      · cases pending with
        | zero =>
          rw [Bracket.openers_opener_zero ho, Bracket.openers_opener_zero (hcd.char ▸ ho)]
          exact .cons ⟨_, h⟩ (ih 0)
        | succ n =>
          rw [Bracket.openers_opener_succ ho, Bracket.openers_opener_succ (hcd.char ▸ ho)]
          exact ih n
      · rw [Bracket.openers_other hc ho, Bracket.openers_other (hcd.char ▸ hc) (hcd.char ▸ ho)]
        exact ih pending

theorem header?_eq : header? code = header? code' := by
  obtain ⟨hnil, hnil'⟩ | ⟨k, c, d, rest, rest', hcode, hcode', hcd, hrest, hlast⟩ := h.dropWhiteCode
  · rw [header?, header?, hnil, hnil']
  · have hname := hlast.nameAtEnd?_eq
    have hopeners := hrest.openers .paren 0
    simp only [header?, hcode, hcode', hcd.char, hname]
    split
    · generalize Bracket.paren.openers 0 rest = xs at hopeners
      generalize Bracket.paren.openers 0 rest' = ys at hopeners
      cases hopeners with
      | nil => rfl
      | cons hearlier _ =>
        obtain ⟨n, hearlier⟩ := hearlier
        exact hearlier.nameAtEnd?_eq
    · rfl

theorem enclosingFunction?_eq : enclosingFunction? code = enclosingFunction? code' := by
  have hheaders : ((Bracket.brace.openers 0 code).map fun x => header? x.2) =
      (Bracket.brace.openers 0 code').map fun x => header? x.2 := by
    rw [map_eq_map_iff_forall₂]
    refine (h.openers .brace 0).imp ?_
    rintro x y ⟨n, hbefore⟩
    exact hbefore.header?_eq
  have hfirst := congrArg (List.findSome? id) hheaders
  rw [List.findSome?_map, List.findSome?_map] at hfirst
  exact hfirst

end Realigned

namespace Line

/-- The left margin, as a line of its own. -/
def lead (l : Line) : Line := ⟨l.start, takeWhite l.chars⟩

theorem length_lead (l : Line) : l.lead.length = l.margin := rfl

theorem mem_lead {l : Line} {x : Nat × Char} (h : x ∈ l.lead.codeChars) :
    isWhite x.2 = true ∧ x.1 < l.margin := by
  have hcell := getElem?_of_mem_codeChars h
  constructor
  · have hmem : x.2 ∈ l.lead.cells.map Cell.char := List.mem_map_of_mem (List.mem_of_getElem? hcell)
    rw [cells, Mode.map_char_tag] at hmem
    exact allWhite_iff.mp (allWhite_takeWhite l.chars) _ hmem
  · have hlt := (List.getElem?_eq_some_iff.mp hcell).1
    rwa [length_cells, length_lead] at hlt

/-- The code of a line is that of its margin and that of its content. -/
theorem codeChars_eq_lead (l : Line) :
    l.codeChars = l.lead.codeChars ++ l.flush.codeChars.map (Prod.map (l.margin + ·) id) := by
  have hcells : l.cells = l.lead.cells ++ l.flush.cells := l.cells_eq_append
  have hshift : ((l.flush.cells.zipIdx l.margin).filterMap fun x =>
      if x.1.kind = .code then some (x.2, x.1.char) else none) =
        l.flush.codeChars.map (Prod.map (l.margin + ·) id) := by
    rw [List.zipIdx_eq_map_add, List.filterMap_map, codeChars, List.map_filterMap]
    congr
    funext x
    simp only [Function.comp]
    split <;> rfl
  rw [codeChars, hcells, List.zipIdx_append, List.filterMap_append, length_cells, length_lead,
    Nat.zero_add, hshift]
  rfl

/-- Whether the code of the content begins with a name. -/
def startsName (l : Line) : Bool := l.flush.codeChars.head?.any fun x => isNameStart x.2

theorem mem_head?_codeChars {l : Line} {j : Nat} {x : Nat × Char}
    (h : x ∈ (l.codeChars.filter fun y => y.1 < j).head?) : x ∈ l.codeChars.head? := by
  have horder := l.pairwise_codeChars
  cases hcode : l.codeChars with
  | nil => simp [hcode] at h
  | cons y rest =>
    rw [hcode] at h horder
    by_cases hy : y.1 < j
    · rwa [List.filter_cons_of_pos (by simpa using hy), List.head?_cons] at h
    · have hx := List.mem_filter.mp (List.mem_of_mem_head? h)
      have hlt : x.1 < j := of_decide_eq_true hx.2
      obtain rfl | hmem := List.mem_cons.mp hx.1
      · exact absurd hlt hy
      · exact absurd (Nat.lt_trans ((List.pairwise_cons.mp horder).1 x hmem) hlt) hy

end Line

namespace Row

variable (r : Row)

/-- The code in the margin of a row. -/
def marginCode : List CodeChar := r.lead.codeChars.map fun x => ⟨⟨r, x.1⟩, x.2⟩

def place (x : Nat × Char) : CodeChar := ⟨⟨r, r.margin + x.1⟩, x.2⟩

theorem code_eq : r.code = r.marginCode ++ r.flush.codeChars.map r.place := by
  rw [code, Line.codeChars_eq_lead, List.map_append, List.map_map]
  rfl

theorem filter_code (j : Nat) : (r.code.filter fun c => c.column < r.margin + j) =
    r.marginCode ++ (r.flush.codeChars.filter fun x => x.1 < j).map r.place := by
  have hlead : (r.marginCode.filter fun c => c.column < r.margin + j) = r.marginCode := by
    rw [List.filter_eq_self]
    intro c hc
    obtain ⟨x, hx, rfl⟩ := List.mem_map.mp hc
    exact decide_eq_true (Nat.lt_add_right j (Line.mem_lead hx).2)
  rw [code_eq, List.filter_append, hlead, List.filter_map]
  simp [Function.comp_def, place]

end Row

/-- One more row, up to any character of its content. -/
theorem Realigned.row {m m' : Nat → Nat} {k : Nat} {code code' : List CodeChar}
    (h : Realigned m m' k code code') {r s : Row} (hr : r.index = k) (hs : s.index = k)
    (hm : m k = r.margin) (hm' : m' k = s.margin) {content : List (Nat × Char)}
    (hsign : ∀ x ∈ content.head?, isNameStart x.2 = true →
      afterSign (r.marginCode.reverse ++ code) = afterSign (s.marginCode.reverse ++ code')) :
    Realigned m m' (k + 1) ((r.marginCode ++ content.map r.place).reverse ++ code)
      ((s.marginCode ++ content.map s.place).reverse ++ code') := by
  have hgap : ∀ {t : Row}, t.index = k →
      ∀ c ∈ t.marginCode.reverse, isWhite c.char = true ∧ c.row.index = k := by
    intro t ht c hc
    obtain ⟨x, hx, rfl⟩ := List.mem_map.mp (List.mem_reverse.mp hc)
    exact ⟨(Line.mem_lead hx).1, ht⟩
  rw [← List.getLast?_reverse] at hsign
  rw [List.reverse_append, List.reverse_append, List.append_assoc, List.append_assoc, ← List.map_reverse,
    ← List.map_reverse]
  generalize content.reverse = back at hsign
  induction back with
  | nil => exact h.margin (hgap hr) (hgap hs)
  | cons x rest ih =>
    have hcolumn : (r.place x).column + m' k = (s.place x).column + m k := by
      rw [hm, hm']
      simp only [Row.place]
      omega
    cases rest with
    | nil => exact (ih (by simp)).ink ⟨rfl, hr, hs, hcolumn⟩ (hsign x rfl)
    | cons y more =>
      rw [List.getLast?_cons_cons] at hsign
      exact (ih hsign).ink ⟨rfl, hr, hs, hcolumn⟩ fun _ => rfl

namespace Buffer

/-- Whether the code before the content of a line ends with a sign that would make a name there a
variable's. -/
def isAfterSign (b : Buffer) (index : Nat) : Bool := afterSign (b.codeBefore ⟨index, b.margin index⟩)

theorem codeBefore_margin {b : Buffer} {i : Nat} {l : Line} (h : b.lines[i]? = some l) (j : Nat) :
    b.codeBefore ⟨i, l.margin + j⟩ =
      ((Row.of i l).marginCode ++
        (l.flush.codeChars.filter fun x => x.1 < j).map (Row.of i l).place).reverse ++
      codeBack (b.above i) := by
  rw [codeBefore, focus?_eq_some h]
  exact congrArg (fun code => code.reverse ++ codeBack (b.above i)) ((Row.of i l).filter_code j)

/-- At the end of a line all of its code comes before. -/
theorem codeBefore_end {b : Buffer} {i : Nat} {l : Line} (h : b.lines[i]? = some l) :
    b.codeBefore ⟨i, l.margin + l.flush.length⟩ = codeBack (Row.of i l :: b.above i) := by
  have hall : (l.flush.codeChars.filter fun x => x.1 < l.flush.length) = l.flush.codeChars := by
    rw [List.filter_eq_self]
    intro x hx
    have hlt := (List.getElem?_eq_some_iff.mp (Line.getElem?_of_mem_codeChars hx)).1
    rw [Line.length_cells] at hlt
    exact decide_eq_true hlt
  have hcode : (Row.of i l).code = (Row.of i l).marginCode ++ l.flush.codeChars.map (Row.of i l).place :=
    Row.code_eq _
  rw [codeBefore_margin h, hall, ← hcode]
  rfl

theorem isAfterSign_eq {b : Buffer} {i : Nat} {l : Line} (h : b.lines[i]? = some l) :
    b.isAfterSign i = afterSign ((Row.of i l).marginCode.reverse ++ codeBack (b.above i)) := by
  have hcode := codeBefore_margin h 0
  simp only [Nat.not_lt_zero, decide_false, List.filter_false, List.map_nil, List.append_nil] at hcode
  rw [isAfterSign, margin_eq h, ← Nat.add_zero l.margin, hcode]

/-- Whether the content of a line begins with a name; a missing line has none. -/
def startsName (b : Buffer) (index : Nat) : Bool := b.lines[index]?.any Line.startsName

section SameContent

variable {b c : Buffer} (h : b.lines.map Line.flush = c.lines.map Line.flush)
  (hsign : ∀ i, b.startsName i = true → b.isAfterSign i = c.isAfterSign i)

include h hsign

/-- Up to any column of the content, a row goes on as the rows above it do. -/
theorem realigned_row {i : Nat} {l m : Line} (hl : b.lines[i]? = some l) (hm : c.lines[i]? = some m)
    (habove : Realigned b.margin c.margin i (codeBack (b.above i)) (codeBack (c.above i))) (j : Nat) :
    Realigned b.margin c.margin (i + 1) (b.codeBefore ⟨i, l.margin + j⟩)
      (c.codeBefore ⟨i, m.margin + j⟩) := by
  have hflush := flush_getElem? h i
  rw [hl, hm, Option.map_some, Option.map_some, Option.some.injEq] at hflush
  rw [codeBefore_margin hl, codeBefore_margin hm, ← hflush]
  refine habove.row rfl rfl (margin_eq hl) (margin_eq hm) ?_
  intro x hx hstart
  rw [← isAfterSign_eq hl, ← isAfterSign_eq hm]
  apply hsign
  rw [startsName, hl, Option.any_some, Line.startsName, Line.mem_head?_codeChars hx]
  exact hstart

theorem realigned_above {i : Nat} (hi : i ≤ b.count) :
    Realigned b.margin c.margin i (codeBack (b.above i)) (codeBack (c.above i)) := by
  induction i with
  | zero => exact .nil
  | succ n ih =>
    obtain ⟨l, hl⟩ : ∃ l, b.lines[n]? = some l := ⟨_, List.getElem?_eq_getElem hi⟩
    have hflush := flush_getElem? h n
    rw [hl, Option.map_some, eq_comm, Option.map_eq_some_iff] at hflush
    obtain ⟨m, hm, hlm⟩ := hflush
    have hrow := realigned_row h hsign hl hm (ih (Nat.le_of_succ_le hi)) l.flush.length
    rwa [codeBefore_end hl, ← hlm, codeBefore_end hm, ← above_succ hl, ← above_succ hm] at hrow

/-- A change of margins moves places, and the function around a place goes with it. -/
theorem enclosingFunction?_carry {p : Position} (hp : b.margin p.line ≤ p.column) :
    c.enclosingFunction? (b.carry c p) = b.enclosingFunction? p := by
  obtain ⟨line, column⟩ := p
  have hflush := flush_getElem? h line
  cases hl : b.lines[line]? with
  | none =>
    rw [hl, Option.map_none, eq_comm, Option.map_eq_none_iff] at hflush
    simp [Buffer.enclosingFunction?, codeBefore, focus?, getElem?_rows, carry, hl, hflush]
  | some l =>
    rw [hl, Option.map_some, eq_comm, Option.map_eq_some_iff] at hflush
    obtain ⟨m, hm, -⟩ := hflush
    rw [margin_eq hl] at hp
    obtain ⟨j, rfl⟩ := Nat.exists_eq_add_of_le hp
    have hcarry : b.carry c ⟨line, l.margin + j⟩ = ⟨line, m.margin + j⟩ :=
      (carried_of_getElem? h hl hm).place j
    have hcount : line ≤ b.count := Nat.le_of_lt (List.getElem?_eq_some_iff.mp hl).1
    have hcode := realigned_row h hsign hl hm (realigned_above h hsign hcount) j
    rw [hcarry]
    exact hcode.enclosingFunction?_eq.symm

end SameContent

/-- Setting the indentation of a line changes the function around no place behind a margin, unless it
puts a point or a dollar sign right before a name that a line begins with, or takes one away from there. -/
theorem enclosingFunction?_setIndentation (b : Buffer) (index n : Nat)
    (hsign : ∀ i, b.startsName i = true → (b.setIndentation index n).isAfterSign i = b.isAfterSign i)
    {p : Position} (hp : b.margin p.line ≤ p.column) :
    (b.setIndentation index n).enclosingFunction? (b.carry (b.setIndentation index n) p) =
      b.enclosingFunction? p :=
  enclosingFunction?_carry (map_flush_setIndentation b index n).symm (fun i hi => (hsign i hi).symm) hp

/-- A header at the start of a line below one that ends with a point, and the header of a body in it. -/
def pointedHeader : Buffer := ofLines (["'a' .", "Foo \x7b", "Do('x') \x7b", " .x"].map String.toList)

/-- The inner header stands behind a brace, wherever it stands. -/
theorem enclosingFunction?_setIndentation_innerHeader :
    pointedHeader.isAfterSign 1 = true ∧ (pointedHeader.setIndentation 2 4).isAfterSign 1 = true ∧
      pointedHeader.carry (pointedHeader.setIndentation 2 4) ⟨2, 9⟩ = ⟨2, 13⟩ ∧
      (pointedHeader.setIndentation 2 4).enclosingFunction? ⟨2, 13⟩ = some "Do" := by
  have hlines : ∀ i < 4,
      (pointedHeader.setIndentation 2 4).isAfterSign i = pointedHeader.isAfterSign i := by
    decide
  have hsign : ∀ i, pointedHeader.startsName i = true →
      (pointedHeader.setIndentation 2 4).isAfterSign i = pointedHeader.isAfterSign i := by
    intro i _
    obtain hi | hi := Nat.lt_or_ge i 4
    · exact hlines i hi
    · obtain ⟨n, rfl⟩ := Nat.exists_eq_add_of_le' hi
      rfl
  refine ⟨by decide, by decide, by decide, ?_⟩
  have hsame := enclosingFunction?_setIndentation pointedHeader 2 4 hsign (p := ⟨2, 9⟩) (by decide)
  exact hsame.trans (by decide)

/-- Between a point and a name a margin decides. -/
theorem enclosingFunction?_pointedHeader :
    pointedHeader.margin 2 ≤ 0 ∧ pointedHeader.enclosingFunction? ⟨2, 0⟩ = none ∧
      pointedHeader.carry (pointedHeader.setIndentation 1 4) ⟨2, 0⟩ = ⟨2, 0⟩ ∧
      (pointedHeader.setIndentation 1 4).enclosingFunction? ⟨2, 0⟩ = some "Foo" := by
  decide

end Buffer

end BffLayout
