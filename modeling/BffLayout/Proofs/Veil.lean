import Mathlib.Data.List.Forall2
import BffLayout.Proofs.Content

/-!
The veil. Inside strings and comments the scanner looks out for quotes, carets, and the characters
that comment signs are made of, and every reader looks out for white characters. All others are
one to them there, and are written alike under the veil. Whatever is asked of a line for the sake
of indentation has the same answer when the line is veiled.
-/
namespace BffLayout

/-- Characters that have a meaning inside a string or a comment, or that open one. -/
def isSign (c : Char) : Bool := isQuote c || c == '^' || c == '*' || c == '/' || c == ';'

/-- Characters that are neither white nor signs. -/
def isPlain (c : Char) : Bool := !isWhite c && !isSign c

theorem isPlain_iff {c : Char} : isPlain c = true ↔ isWhite c = false ∧ isQuote c = false ∧
    c ≠ '^' ∧ c ≠ '*' ∧ c ≠ '/' ∧ c ≠ ';' := by
  simp [isPlain, isSign, and_assoc]

namespace Cell

/-- Whether `d` may stand in the place of a cell's character: it is the same, or the cell is outside
code and both are plain. -/
def Admits (x : Cell) (d : Char) : Prop :=
  x.char = d ∨ (x.kind ≠ .code ∧ isPlain x.char = true ∧ isPlain d = true)
  deriving Decidable

/-- Whether the character is not seen under the veil. -/
def isVeiled (x : Cell) : Bool := x.kind != .code && isPlain x.char

/-- All plain characters outside code look alike. -/
def veil (x : Cell) : Cell := if x.isVeiled then ⟨'x', x.kind⟩ else x

@[simp] theorem kind_veil (x : Cell) : x.veil.kind = x.kind := by
  unfold veil
  split <;> rfl

theorem veil_of_code {x : Cell} (h : x.kind = .code) : x.veil = x := by
  simp [veil, isVeiled, h]

theorem veil_of_not_plain {x : Cell} (h : isPlain x.char = false) : x.veil = x := by
  simp [veil, isVeiled, h]

theorem veil_eq {x : Cell} (hkind : x.kind ≠ .code) (hplain : isPlain x.char = true) :
    x.veil = ⟨'x', x.kind⟩ := by
  simp [veil, isVeiled, hkind, hplain]

theorem admits_veil (x : Cell) : x.Admits x.veil.char := by
  by_cases hkind : x.kind = .code
  · exact .inl (by rw [veil_of_code hkind])
  · cases hplain : isPlain x.char with
    | false => exact .inl (by rw [veil_of_not_plain hplain])
    | true =>
      have hx : isPlain 'x' = true := by decide
      exact .inr ⟨hkind, hplain, by rw [veil_eq hkind hplain]; exact hx⟩

theorem veil_of_admits {x : Cell} {d : Char} (h : x.Admits d) : veil ⟨d, x.kind⟩ = x.veil := by
  rcases h with rfl | ⟨hkind, hplain, hd⟩
  · rfl
  · rw [veil_eq hkind hplain, veil_eq (x := ⟨d, x.kind⟩) hkind hd]

/-- The veil neither makes nor hides a white character. -/
@[simp] theorem isWhite_veil (x : Cell) : isWhite x.veil.char = isWhite x.char := by
  rcases admits_veil x with h | ⟨-, hx, hv⟩
  · rw [← h]
  · rw [(isPlain_iff.mp hx).1, (isPlain_iff.mp hv).1]

/-- Nor does it make or hide a tab. -/
theorem advance_veil (tab w : Nat) (x : Cell) :
    advance tab w x.veil.char = advance tab w x.char := by
  rcases admits_veil x with h | ⟨-, hx, hv⟩
  · rw [← h]
  · have htab : ∀ {c : Char}, isPlain c = true → c ≠ '\t' := by
      rintro c hc rfl
      cases hc
    rw [advance_eq, advance_eq, nextColumn, nextColumn, if_neg (htab hx), if_neg (htab hv)]

/-- Cells are told apart by their characters and kinds. -/
theorem eq_of_maps {xs ys : List Cell} (hchar : xs.map Cell.char = ys.map Cell.char)
    (hkind : xs.map Cell.kind = ys.map Cell.kind) : xs = ys := by
  have hzip : ∀ zs : List Cell, List.zipWith Cell.mk (zs.map char) (zs.map kind) = zs := by
    intro zs
    rw [List.zipWith_map, List.zipWith_self]
    exact List.map_id zs
  rw [← hzip xs, hchar, hkind, hzip]

end Cell

namespace Mode

/-- Outside code a plain character is as good as any other. -/
theorem step_plain {m : Mode} (hm : m.WellQuoted) {c d : Char} {next : Option Char}
    (hc : isPlain c = true) (hd : isPlain d = true) (hkind : (m.step c next).1 ≠ .code)
    (next' : Option Char) : m.step d next' = m.step c next := by
  obtain ⟨-, hquote, hcaret, hstar, hslash, hsemi⟩ := isPlain_iff.mp hc
  obtain ⟨-, hquote', hcaret', hstar', hslash', hsemi'⟩ := isPlain_iff.mp hd
  cases m with
  | code => simp [step, hquote, hsemi, hslash] at hkind
  | string quote =>
    have hne : ∀ {e : Char}, isQuote e = false → e ≠ quote := by
      rintro e he rfl
      rw [WellQuoted, he] at hm
      cases hm
    simp [step, hne hquote, hne hquote', hcaret, hcaret']
  | escape quote | lineComment | opening => rfl
  | block => simp [step, hstar, hstar']
  | star => simp [step, hstar, hstar', hslash, hslash']

/-- Whether the next character can end a comment sign is the same for both. -/
def SameAhead (next next' : Option Char) : Prop :=
  (next = some '/' ↔ next' = some '/') ∧ (next = some '*' ↔ next' = some '*')

theorem step_sameAhead {next next' : Option Char} (h : SameAhead next next') (m : Mode) (c : Char) :
    m.step c next' = m.step c next := by
  cases m <;> simp only [step, h.1, h.2]

theorem step_of_admits {m : Mode} (hm : m.WellQuoted) {c d : Char} {next next' : Option Char}
    (h : Cell.Admits ⟨c, (m.step c next).1⟩ d) (hnext : SameAhead next next') :
    m.step d next' = m.step c next := by
  rcases h with rfl | ⟨hkind, hc, hd⟩
  · exact step_sameAhead hnext m c
  · exact step_plain hm hc hd hkind next'

theorem sameAhead_of_admits {m : Mode} {cs ds : List Char}
    (h : List.Forall₂ Cell.Admits (m.tag cs) ds) : SameAhead cs.head? ds.head? := by
  cases cs with
  | nil =>
    cases h
    exact ⟨Iff.rfl, Iff.rfl⟩
  | cons c rest =>
    obtain ⟨d, ds', hd, -, rfl⟩ := List.forall₂_cons_left_iff.mp h
    rcases hd with rfl | ⟨-, hc, hd⟩
    · exact ⟨Iff.rfl, Iff.rfl⟩
    · obtain ⟨-, -, -, hstar, hslash, -⟩ := isPlain_iff.mp hc
      obtain ⟨-, -, -, hstar', hslash', -⟩ := isPlain_iff.mp hd
      constructor
      · simp [hslash, hslash']
      · simp [hstar, hstar']

/-- Texts that differ in plain characters outside code look alike, and are read to the same end. -/
theorem tag_of_admits {m : Mode} (hm : m.WellQuoted) {cs ds : List Char}
    (h : List.Forall₂ Cell.Admits (m.tag cs) ds) :
    (m.tag ds).map Cell.veil = (m.tag cs).map Cell.veil ∧ m.run ds = m.run cs := by
  induction cs generalizing m ds with
  | nil =>
    cases h
    exact ⟨rfl, rfl⟩
  | cons c rest ih =>
    rw [tag_cons] at h
    obtain ⟨d, ds', hd, hrest, rfl⟩ := List.forall₂_cons_left_iff.mp h
    have hstep := step_of_admits hm hd (sameAhead_of_admits hrest)
    have hveil := Cell.veil_of_admits hd
    obtain ⟨hcells, hrun⟩ := ih (wellQuoted_step hm c rest.head?) hrest
    constructor
    · simp only [tag_cons, List.map_cons, hstep, hveil, hcells]
    · rw [run_cons, run_cons, hstep, hrun]

/-- Right after a code character the scanner is in code. -/
theorem step_code {m : Mode} {c : Char} {next : Option Char} (h : (m.step c next).1 = .code) :
    (m.step c next).2 = code := by
  cases m with
  | code =>
    simp only [step] at h ⊢
    grind
  | string quote | escape quote | lineComment | opening | block | star => cases h

theorem drop_tag_of_code {m : Mode} {cs : List Char} {k : Nat} {c : Char}
    (h : (m.tag cs)[k]? = some ⟨c, .code⟩) :
    (m.tag cs).drop (k + 1) = code.tag (cs.drop (k + 1)) := by
  induction cs generalizing m k with
  | nil => cases h
  | cons d rest ih =>
    cases k with
    | zero =>
      have hkind : (m.step d rest.head?).1 = .code := by
        simp only [tag_cons, List.getElem?_cons_zero, Option.some.injEq] at h
        exact congrArg Cell.kind h
      simp only [tag_cons, List.drop_succ_cons, List.drop_zero, step_code hkind]
    | succ n => exact ih h

/-- A plain character opens neither a string nor a comment. -/
theorem step_code_plain {c : Char} (hc : isPlain c = true) (next : Option Char) :
    code.step c next = (.code, code) := by
  obtain ⟨-, hquote, -, -, hslash, hsemi⟩ := isPlain_iff.mp hc
  simp [step, hquote, hslash, hsemi]

/-- So the veil hides nothing that is read in code. -/
theorem veil_step_code (c : Char) (next : Option Char) :
    (Cell.mk c (code.step c next).1).veil.char = c := by
  cases hplain : isPlain c with
  | false => rw [Cell.veil_of_not_plain (x := ⟨c, _⟩) hplain]
  | true => rw [step_code_plain hplain, Cell.veil_of_code (x := ⟨c, .code⟩) rfl]

theorem isPlain_of_isNameChar {c : Char} (hc : isNameChar c = true) : isPlain c = true := by
  have hne : ∀ {d : Char}, isNameChar d = false → c ≠ d := by
    rintro d hd rfl
    rw [hc] at hd
    cases hd
  have hwhite : isWhite c = false := by
    rw [Bool.eq_false_iff]
    intro h
    rw [isNameChar_white h] at hc
    cases hc
  have hquote : isQuote c = false := by
    simp only [isQuote, Bool.or_eq_false_iff, beq_eq_false_iff_ne]
    exact ⟨hne (by decide), hne (by decide)⟩
  exact isPlain_iff.mpr
    ⟨hwhite, hquote, hne (by decide), hne (by decide), hne (by decide), hne (by decide)⟩

/-- A name in code is seen as it is, and so is the character that ends it. -/
theorem takeWhile_name_veil (cs : List Char) :
    ((code.tag cs).map fun x => x.veil.char).takeWhile isNameChar = cs.takeWhile isNameChar := by
  induction cs with
  | nil => rfl
  | cons c rest ih =>
    rw [tag_cons, List.map_cons, veil_step_code, List.takeWhile_cons, List.takeWhile_cons]
    cases hc : isNameChar c with
    | false => rfl
    | true => rw [step_code_plain (isPlain_of_isNameChar hc), ih]

theorem name_veil (cs : List Char) :
    (((code.tag cs).map fun x => x.veil.char).dropWhile fun c => c == ' ' || c == '\t').takeWhile
        isNameChar =
      (cs.dropWhile fun c => c == ' ' || c == '\t').takeWhile isNameChar := by
  induction cs with
  | nil => rfl
  | cons c rest ih =>
    have hname := takeWhile_name_veil (c :: rest)
    rw [tag_cons, List.map_cons, veil_step_code] at hname ⊢
    rw [List.dropWhile_cons, List.dropWhile_cons]
    split
    · next hblank =>
      have hwhite : isWhite c = true := by
        simp only [Bool.or_eq_true, beq_iff_eq] at hblank
        rcases hblank with rfl | rfl <;> decide
      have hstep : code.step c rest.head? = (.code, code) := step_white .code hwhite _
      rw [hstep, ih]
    · exact hname

end Mode

namespace Line

/-- The line as it looks under the veil. -/
def veil (l : Line) : Line := ⟨l.start, l.cells.map fun x => x.veil.char⟩

theorem chars_veil (l : Line) : l.veil.chars = l.cells.map fun x => x.veil.char := rfl

theorem map_char_cells (l : Line) : l.cells.map Cell.char = l.chars := Mode.map_char_tag _ _

theorem admits_veil (l : Line) : List.Forall₂ Cell.Admits l.cells l.veil.chars := by
  rw [chars_veil, List.forall₂_map_right_iff, List.forall₂_same]
  exact fun x _ => x.admits_veil

/-- A line looks like every line it admits, and ends like it. -/
theorem veil_of_admits {s : ScanState} {cs ds : List Char}
    (h : List.Forall₂ Cell.Admits (Line.cells ⟨s, cs⟩) ds) :
    veil ⟨s, ds⟩ = veil ⟨s, cs⟩ ∧ Line.finish ⟨s, ds⟩ = Line.finish ⟨s, cs⟩ := by
  obtain ⟨hcells, hrun⟩ := Mode.tag_of_admits (Mode.wellQuoted_mode s) h
  have hchars := congrArg (List.map Cell.char) hcells
  rw [List.map_map, List.map_map] at hchars
  exact ⟨congrArg (Line.mk s) hchars, hrun⟩

theorem map_kind_veil (xs : List Cell) : (xs.map Cell.veil).map Cell.kind = xs.map Cell.kind := by
  rw [List.map_map]
  exact List.map_congr_left fun x _ => x.kind_veil

/-- The veil changes characters, never kinds. -/
@[simp] theorem cells_veil (l : Line) : l.veil.cells = l.cells.map Cell.veil := by
  have hcells := (Mode.tag_of_admits (Mode.wellQuoted_mode l.start) l.admits_veil).1
  apply Cell.eq_of_maps
  · rw [map_char_cells, chars_veil, List.map_map]
    rfl
  · calc l.veil.cells.map Cell.kind
        = (l.veil.cells.map Cell.veil).map Cell.kind := (map_kind_veil _).symm
      _ = (l.cells.map Cell.veil).map Cell.kind := congrArg (List.map Cell.kind) hcells

theorem kinds_veil (l : Line) : l.veil.cells.map Cell.kind = l.cells.map Cell.kind := by
  rw [cells_veil, map_kind_veil]

@[simp] theorem isBlank_veil (l : Line) : l.veil.isBlank = l.isBlank := by
  rw [isBlank, isBlank, chars_veil, ← map_char_cells l, allWhite, allWhite, List.all_map,
    List.all_map]
  congr 1
  funext x
  exact x.isWhite_veil

@[simp] theorem codeChars_veil (l : Line) : l.veil.codeChars = l.codeChars := by
  rw [codeChars, codeChars, cells_veil, List.zipIdx_map, List.filterMap_map]
  congr 1
  funext x
  by_cases hx : x.1.kind = .code
  · simp [hx, Cell.veil_of_code hx]
  · simp [hx]

theorem first?_veil (l : Line) : l.veil.first? = l.first?.map (Prod.map id Cell.veil) := by
  rw [first?, first?, cells_veil, List.zipIdx_map, List.find?_map]
  simp [Function.comp_def, Option.map_map, Prod.map]

theorem leading?_eq (l : Line) : l.leading? =
    l.first?.bind fun p => if p.2.kind = .code then some (p.1, p.2.char) else none := by
  rw [leading?]
  rcases l.first? with _ | ⟨column, c, kind⟩
  · rfl
  · cases kind <;> rfl

@[simp] theorem leading?_veil (l : Line) : l.veil.leading? = l.leading? := by
  rw [leading?_eq, leading?_eq, first?_veil]
  rcases l.first? with _ | ⟨column, x⟩
  · rfl
  · by_cases hx : x.kind = .code
    · simp [hx, Cell.veil_of_code hx]
    · simp [hx]

@[simp] theorem leadsWith_veil (l : Line) (p : Char → Bool) :
    l.veil.leadsWith p = l.leadsWith p := by
  simp only [leadsWith, leading?_veil]

@[simp] theorem isContinuation_veil (l : Line) : l.veil.isContinuation = l.isContinuation :=
  leadsWith_veil l _

@[simp] theorem leadsWithCloser_veil (l : Line) : l.veil.leadsWithCloser = l.leadsWithCloser :=
  leadsWith_veil l _

@[simp] theorem trailing?_veil (l : Line) : l.veil.trailing? = l.trailing? := by
  rw [trailing?, trailing?, codeChars_veil]

@[simp] theorem visualColumn_veil (tab : Nat) (l : Line) :
    visualColumn tab l.veil.chars = visualColumn tab l.chars := by
  funext column
  rw [visualColumn, visualColumn, width_eq, width_eq, chars_veil, ← map_char_cells l, ← List.map_take,
    ← List.map_take, List.foldl_map, List.foldl_map]
  congr 1
  funext w x
  exact x.advance_veil _ w

theorem margin_veil (l : Line) : l.veil.margin = l.margin := by
  rw [margin, margin, chars_veil, ← map_char_cells l, takeWhite, takeWhite, List.takeWhile_map,
    List.takeWhile_map, List.length_map, List.length_map]
  congr 2
  funext x
  exact x.isWhite_veil

theorem indentation_eq (tab : Nat) (l : Line) :
    l.indentation tab = visualColumn tab l.chars l.margin := by
  have htake : l.chars.take l.margin = takeWhite l.chars := by
    calc l.chars.take l.margin
        = (takeWhite l.chars ++ dropWhite l.chars).take (takeWhite l.chars).length := by
          rw [takeWhite_append_dropWhite, margin]
      _ = takeWhite l.chars := List.take_left
  rw [indentation, indentWidth, visualColumn, htake]

@[simp] theorem indentation_veil (tab : Nat) (l : Line) :
    l.veil.indentation tab = l.indentation tab := by
  rw [indentation_eq, indentation_eq, visualColumn_veil, margin_veil]

@[simp] theorem contentAfter?_veil (l : Line) (column : Nat) :
    l.veil.contentAfter? column = l.contentAfter? column := by
  have hwhite : (fun x : Cell × Nat => !isWhite x.1.char) ∘ Prod.map Cell.veil id =
      fun x => !isWhite x.1.char := by
    funext x
    exact congrArg not x.1.isWhite_veil
  have hfind : ((l.veil.cells.zipIdx.drop (column + 1)).find? fun x => !isWhite x.1.char) =
      ((l.cells.zipIdx.drop (column + 1)).find? fun x => !isWhite x.1.char).map
        (Prod.map Cell.veil id) := by
    rw [cells_veil, List.zipIdx_map, ← List.map_drop, List.find?_map, hwhite]
  simp only [contentAfter?, hfind]
  rcases (l.cells.zipIdx.drop (column + 1)).find? _ with _ | ⟨x, content⟩
  · rfl
  · simp only [Option.map_some, Prod.map, Cell.kind_veil, id]

@[simp] theorem openColumn?_veil (tab : Nat) (l : Line) :
    l.veil.openColumn? tab = l.openColumn? tab := by
  simp only [openColumn?_eq, openContent?, openBrackets, codeChars_veil, contentAfter?_veil,
    visualColumn_veil]

@[simp] theorem anchor?_veil (tab : Nat) (l : Line) : l.veil.anchor? tab = l.anchor? tab := by
  simp only [anchor?_eq, anchorColumn?, leading?_veil, codeChars_veil, visualColumn_veil]

/-- Directives are named by raw characters, but the name stands in code. -/
@[simp] theorem directive?_veil (l : Line) : l.veil.directive? = l.directive? := by
  simp only [directive?, leading?_veil]
  split
  · next hash hlead =>
    have htag : l.cells.drop (hash + 1) = Mode.code.tag (l.chars.drop (hash + 1)) :=
      Mode.drop_tag_of_code (getElem?_of_leading? hlead)
    rw [chars_veil, ← List.map_drop, htag, Mode.name_veil]
  · rfl

@[simp] theorem opensBranch_veil (l : Line) : l.veil.opensBranch = l.opensBranch := by
  rw [opensBranch, opensBranch, directive?_veil]

@[simp] theorem closesBranch_veil (l : Line) : l.veil.closesBranch = l.closesBranch := by
  rw [closesBranch, closesBranch, directive?_veil]

@[simp] theorem depthChange_veil (l : Line) : l.veil.depthChange = l.depthChange := by
  rw [depthChange_eq, depthChange_eq, codeChars_veil, opensBranch_veil]

end Line

end BffLayout
