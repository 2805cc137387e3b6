import BffLayout.Completion
import BffLayout.Proofs.Margin

/-!
References in strings. A dollar sign in a string opens a reference or closes one. The scanner knows
which dollar signs have lost their meaning: a caret takes it from the character behind it, and from
that character only. Whether a dollar sign opens a reference is asked of the cells alone, where a
caret right before a character counts even if it has lost its own meaning, and where strings that
touch are one. The answer is the scanner's own, except after an escaped caret or behind another string.
-/
namespace BffLayout

/-- A character as the scanner comes to it: in which mode, and whether right behind a caret. -/
structure Glyph extends Cell where
  mode : Mode
  behindCaret : Bool
  deriving DecidableEq, Repr

namespace Glyph

/-- Whether the caret before it has taken the meaning of the character away. -/
def isEscaped (g : Glyph) : Bool :=
  match g.mode with
  | .escape _ => true
  | _ => false

/-- Whether the scanner leaves it the meaning of a dollar sign. -/
def isDollar (g : Glyph) : Bool := g.char == '$' && !g.isEscaped

/-- Whether it looks like a dollar sign with a meaning to someone who sees the characters alone. -/
def showsDollar (g : Glyph) : Bool := g.char == '$' && !g.behindCaret

theorem exists_quote_of_isEscaped {g : Glyph} (h : g.isEscaped = true) :
    ∃ quote, g.mode = .escape quote := by
  unfold isEscaped at h
  split at h
  · next quote hmode => exact ⟨quote, hmode⟩
  · cases h

/-- A dollar sign with a meaning stands behind no caret, or is hidden by one. -/
theorem countP_isDollar {gs : List Glyph} (h : ∀ g ∈ gs, g.isEscaped = true → g.behindCaret = true) :
    gs.countP showsDollar + (gs.countP fun g => g.isDollar && g.behindCaret) = gs.countP isDollar := by
  induction gs with
  | nil => rfl
  | cons g rest ih =>
    obtain ⟨hg, hrest⟩ := List.forall_mem_cons.mp h
    have hcount := ih hrest
    have hone : (if g.showsDollar then 1 else 0) + (if g.isDollar && g.behindCaret then 1 else 0) =
        if g.isDollar then 1 else 0 := by
      unfold isDollar showsDollar
      cases hescaped : g.isEscaped with
      | true => simp [hg hescaped]
      | false => cases g.behindCaret <;> simp
    simp only [List.countP_cons]
    omega

end Glyph

def endsInCaret (back : List Glyph) : Bool := back.head?.any fun g => g.char == '^'

theorem afterCaret_map (back : List Glyph) : afterCaret (back.map Glyph.toCell) = endsInCaret back := by
  rw [afterCaret, List.head?_map, Option.any_map]
  rfl

namespace Mode

/-- The glyphs of a text that is read from a mode on, behind a caret or not. -/
def glyphs : Mode → (behindCaret : Bool) → List Char → List Glyph
  | _, _, [] => []
  | m, behindCaret, c :: rest =>
    ⟨⟨c, (m.step c rest.head?).1⟩, m, behindCaret⟩ :: (m.step c rest.head?).2.glyphs (c == '^') rest

theorem map_toCell_glyphs (m : Mode) (behindCaret : Bool) (cs : List Char) :
    (m.glyphs behindCaret cs).map Glyph.toCell = m.tag cs := by
  induction cs generalizing m behindCaret with
  | nil => rfl
  | cons c rest ih => rw [glyphs, List.map_cons, ih, tag_cons]

theorem eq_caret_of_step {m : Mode} {c quote : Char} {next : Option Char}
    (h : (m.step c next).2 = escape quote) : c = '^' := by
  cases m <;> grind [step]

theorem kind_step_eq_string {m : Mode} {c : Char} {next : Option Char}
    (h : (m.step c next).2.kind = .string) : m.kind = .string ∨ m = code ∧ isQuote c = true := by
  cases m <;> grind [step, kind]

/-- What is in a string is read inside it, but for the quote that opens it. -/
theorem fst_step_eq_string_iff {m : Mode} {c : Char} {next : Option Char} :
    (m.step c next).1 = .string ↔ m.kind = .string ∨ m = code ∧ isQuote c = true := by
  cases m <;> grind [step, kind]

end Mode

/-- What has been read of a line that starts in state `s`, last glyph first, when the mode is `m`. -/
inductive Read (s : ScanState) : (m : Mode) → (back : List Glyph) → Prop
  | start : Read s s.mode []
  | step {m : Mode} {back : List Glyph} (h : Read s m back) (c : Char) (next : Option Char) :
      Read s (m.step c next).2 (⟨⟨c, (m.step c next).1⟩, m, endsInCaret back⟩ :: back)

namespace Read

variable {s : ScanState} {m : Mode} {back : List Glyph}

theorem glyphs (h : Read s m back) {cs : List Char} {column : Nat} {g : Glyph}
    (hg : (m.glyphs (endsInCaret back) cs)[column]? = some g) :
    Read s g.mode (((m.glyphs (endsInCaret back) cs).take column).reverse ++ back) ∧
      g.behindCaret = endsInCaret (((m.glyphs (endsInCaret back) cs).take column).reverse ++ back) ∧
      ∃ next, g.kind = (g.mode.step g.char next).1 := by
  induction cs generalizing m back column with
  | nil => cases hg
  | cons c rest ih =>
    cases column with
    | zero =>
      cases hg
      exact ⟨h, rfl, _, rfl⟩
    | succ n =>
      have hread := ih (h.step c rest.head?) hg
      rw [Mode.glyphs, List.take_succ_cons, List.reverse_cons, List.append_assoc]
      exact hread

/-- A character that has lost its meaning stands right behind a caret. -/
theorem endsInCaret_of_escape (h : Read s m back) {quote : Char} (hm : m = .escape quote) :
    endsInCaret back = true := by
  cases h with
  | start => cases s <;> cases hm
  | step h c next =>
    rw [Mode.eq_caret_of_step hm]
    rfl

theorem behindCaret_of_isEscaped (h : Read s m back) {g : Glyph} (hg : g ∈ back)
    (hescaped : g.isEscaped = true) : g.behindCaret = true := by
  induction h with
  | start => cases hg
  | step h c next ih =>
    obtain rfl | hg := List.mem_cons.mp hg
    · obtain ⟨quote, hmode⟩ := Glyph.exists_quote_of_isEscaped hescaped
      exact h.endsInCaret_of_escape hmode
    · exact ih hg

/-- Inside a string, what has been read of it reaches back to the quote that opens it. -/
theorem exists_quote (h : Read s m back) (hm : m.kind = .string) :
    (∀ g ∈ back.takeWhile fun g => g.mode != .code, g.kind = .string) ∧
      ∃ quote earlier, (back.dropWhile fun g => g.mode != .code) = quote :: earlier ∧
        quote.kind = .string ∧ quote.showsDollar = false := by
  induction h with
  | start => cases s <;> cases hm
  | @step m back h c next ih =>
    have hkind : (m.step c next).1 = .string :=
      Mode.fst_step_eq_string_iff.mpr (Mode.kind_step_eq_string hm)
    obtain hmode | ⟨rfl, hc⟩ := Mode.kind_step_eq_string hm
    · have hnot : (m != .code) = true := by
        rw [bne_iff_ne]
        rintro rfl
        cases hmode
      obtain ⟨hinside, hquote⟩ := ih hmode
      simp only [List.takeWhile_cons, List.dropWhile_cons, hnot, if_true]
      exact ⟨List.forall_mem_cons.mpr ⟨hkind, hinside⟩, hquote⟩
    · have hsign : c ≠ '$' := by
        rintro rfl
        cases hc
      rw [List.takeWhile_cons_of_neg (by simp), List.dropWhile_cons_of_neg (by simp)]
      exact ⟨by simp, _, back, rfl, hkind, by simp [Glyph.showsDollar, hsign]⟩

theorem dollarsBack_eq (h : Read s m back) (k : Kind) :
    dollarsBack k (back.map Glyph.toCell) =
      (back.takeWhile fun g => g.kind == k).countP Glyph.showsDollar := by
  induction h with
  | start => rfl
  | @step m back h c next ih =>
    rw [List.map_cons, dollarsBack, ih, afterCaret_map, List.takeWhile_cons]
    by_cases hk : (m.step c next).1 = k
    · simp [hk, List.countP_cons, Nat.add_comm, Glyph.showsDollar]
    · simp [hk]

/-- Inside a string the count takes in the string up to its opening quote, less what carets hide there,
and goes on into the strings that touch it. -/
theorem dollarsBack_string (h : Read s m back) (hm : m.kind = .string) :
    dollarsBack .string (back.map Glyph.toCell) +
        ((back.takeWhile fun g => g.mode != .code).countP fun g => g.isDollar && g.behindCaret) =
      (back.takeWhile fun g => g.mode != .code).countP Glyph.isDollar +
        ((back.dropWhile fun g => g.mode != .code).tail.takeWhile fun g => g.kind == .string).countP
          Glyph.showsDollar := by
  obtain ⟨hinside, quote, earlier, hdrop, hstring, hquote⟩ := h.exists_quote hm
  have hescaped : ∀ g ∈ back.takeWhile fun g => g.mode != .code, g.isEscaped = true → g.behindCaret = true :=
    fun g hg => h.behindCaret_of_isEscaped ((List.takeWhile_sublist _).subset hg)
  have hcount := Glyph.countP_isDollar hescaped
  have hsplit : (back.takeWhile fun g => g.kind == .string) =
      (back.takeWhile fun g => g.mode != .code) ++
        quote :: earlier.takeWhile fun g => g.kind == .string := by
    rw [← List.takeWhile_cons_of_pos (p := fun g : Glyph => g.kind == .string) (beq_iff_eq.mpr hstring),
      ← hdrop, ← List.takeWhile_append_of_pos (fun g hg => beq_iff_eq.mpr (hinside g hg)),
      List.takeWhile_append_dropWhile]
  rw [h.dollarsBack_eq, hsplit, hdrop, List.tail_cons, List.countP_append,
    List.countP_cons_of_neg (by simp [hquote])]
  omega

end Read

namespace Line

variable (l : Line) (column : Nat)

def glyphs : List Glyph := l.start.mode.glyphs false l.chars

/-- Whether the dollar sign in a column opens a reference, by the cells up to there. -/
def opensReference : Bool := BffLayout.opensReference (l.cells.take (column + 1)).reverse

def isEscaped : Bool := l.glyphs[column]?.any Glyph.isEscaped

def isBehindCaret : Bool := l.glyphs[column]?.any Glyph.behindCaret

/-- What stands before a column in the same string, last character first. Of a string only the quote
that opens it is read in code. -/
def literalBack : List Glyph := (l.glyphs.take column).reverse.takeWhile fun g => g.mode != .code

/-- The strings that end where the string around a column begins, last character first. -/
def touchingBack : List Glyph :=
  ((l.glyphs.take column).reverse.dropWhile fun g => g.mode != .code).tail.takeWhile fun g =>
    g.kind == .string

/-- The unescaped dollar signs before a column in the same string. -/
def dollars : Nat := (l.literalBack column).countP Glyph.isDollar

/-- Those of them that stand right behind a caret all the same, which must be an escaped one. -/
def hiddenDollars : Nat := (l.literalBack column).countP fun g => g.isDollar && g.behindCaret

/-- The dollar signs in the strings that touch the one around a column, less those behind a caret. -/
def foreignDollars : Nat := (l.touchingBack column).countP Glyph.showsDollar

theorem map_toCell_glyphs : l.glyphs.map Glyph.toCell = l.cells := Mode.map_toCell_glyphs ..

section Dollar

variable {l column} (h : l.cells[column]? = some ⟨'$', .string⟩)

include h

theorem reverse_take_cells : (l.cells.take (column + 1)).reverse =
    ⟨'$', .string⟩ :: (l.glyphs.take column).reverse.map Glyph.toCell := by
  rw [List.take_add_one, h, Option.toList_some, List.reverse_concat, ← map_toCell_glyphs, List.map_reverse,
    List.map_take]

/-- In front of a dollar sign in a string, the cells show the unescaped ones that no caret hides, and
those of the strings that touch it. -/
theorem opensReference_eq : ∃ n, l.opensReference column = (!l.isBehindCaret column && n % 2 == 0) ∧
    n + l.hiddenDollars column = l.dollars column + l.foreignDollars column ∧
    (l.isEscaped column = true → l.isBehindCaret column = true) := by
  have hglyph := h
  rw [← map_toCell_glyphs, List.getElem?_map] at hglyph
  obtain ⟨g, hg, hcell⟩ := Option.map_eq_some_iff.mp hglyph
  obtain ⟨hread, hcaret, next, hkind⟩ := (Read.start (s := l.start)).glyphs hg
  rw [List.append_nil] at hread hcaret
  have hmode : g.mode.kind = .string := by
    rw [hcell] at hkind
    obtain hmode | ⟨-, hquote⟩ := Mode.fst_step_eq_string_iff.mp hkind.symm
    · exact hmode
    · cases hquote
  refine ⟨_, ?_, hread.dollarsBack_string hmode, ?_⟩
  · rw [opensReference, reverse_take_cells h, isBehindCaret, hg, Option.any_some, hcaret, ← afterCaret_map]
    rfl
  · rw [isEscaped, isBehindCaret, hg, Option.any_some, Option.any_some, hcaret]
    intro hescaped
    obtain ⟨quote, hquote⟩ := Glyph.exists_quote_of_isEscaped hescaped
    exact hread.endsInCaret_of_escape hquote

/-- A dollar sign in a string opens a reference when no caret stands right before it and the dollar
signs before it are even in number, where those that a caret hides are left out and those of the strings
that touch this one are counted too. That is the answer that the scanner's own escapes call for, namely
that it is unescaped behind an even number of unescaped ones in its string, in three cases: it is escaped;
or it stands behind an escaped caret and closes a reference; or it stands behind no caret, and those left
out and those of other strings are even in number. -/
theorem opensReference_agrees_iff :
    (l.opensReference column = true ↔ l.isBehindCaret column = false ∧
      (l.dollars column + l.hiddenDollars column + l.foreignDollars column) % 2 = 0) ∧
    ((l.opensReference column = true ↔ l.isEscaped column = false ∧ l.dollars column % 2 = 0) ↔
      l.isEscaped column = true ∨
      (l.isBehindCaret column = true ∧ l.dollars column % 2 = 1) ∨
      (l.isBehindCaret column = false ∧ (l.hiddenDollars column + l.foreignDollars column) % 2 = 0)) := by
  obtain ⟨n, hopens, hcount, hescaped⟩ := opensReference_eq h
  rw [hopens]
  cases hcaret : l.isBehindCaret column with
  | true =>
    cases l.isEscaped column with
    | true => simp
    | false => simp
  | false =>
    have hfree : l.isEscaped column = false := by
      rw [Bool.eq_false_iff]
      intro he
      rw [hescaped he] at hcaret
      cases hcaret
    simp only [hfree, Bool.not_false, Bool.true_and, beq_iff_eq, true_and, Bool.false_eq_true, false_and,
      false_or]
    omega

end Dollar

/-- A string with an escaped dollar sign and a whole reference in it, behind another string. -/
def touchingStrings : Line := ⟨.code, "'x''^$A$B$ $".toList⟩

theorem opensReference_agrees_iff_touchingStrings :
    touchingStrings.cells[11]? = some ⟨'$', .string⟩ ∧ touchingStrings.isEscaped 5 = true ∧
      touchingStrings.dollars 11 = 2 ∧ touchingStrings.opensReference 11 = true := by
  have hcell : touchingStrings.cells[11]? = some ⟨'$', .string⟩ := by decide
  have hdollars : touchingStrings.dollars 11 = 2 := by decide
  obtain ⟨-, hagrees⟩ := opensReference_agrees_iff hcell
  refine ⟨hcell, by decide, hdollars, (hagrees.mpr (.inr (.inr ⟨by decide, by decide⟩))).mpr ?_⟩
  exact ⟨by decide, by rw [hdollars]⟩

/-- Behind an escaped caret, and behind a string that ends with an open reference, the first dollar sign
of a string opens no reference, and nothing is completed there. -/
theorem opensReference_escapedCaret :
    (cells ⟨.code, "'^^$".toList⟩)[3]? = some ⟨'$', .string⟩ ∧
    isEscaped ⟨.code, "'^^$".toList⟩ 3 = false ∧ dollars ⟨.code, "'^^$".toList⟩ 3 = 0 ∧
    opensReference ⟨.code, "'^^$".toList⟩ 3 = false ∧
    (Buffer.ofLines ["'^^$".toList]).complete ⟨0, 4⟩ = .ok none ∧
    (cells ⟨.code, "'$''$".toList⟩)[4]? = some ⟨'$', .string⟩ ∧
    isEscaped ⟨.code, "'$''$".toList⟩ 4 = false ∧ dollars ⟨.code, "'$''$".toList⟩ 4 = 0 ∧
    opensReference ⟨.code, "'$''$".toList⟩ 4 = false ∧
    (Buffer.ofLines ["'$''$".toList]).complete ⟨0, 5⟩ = .ok none := by
  exact ⟨by decide, by decide, by decide, by decide, rfl, by decide, by decide, by decide, by decide, rfl⟩

end Line

end BffLayout
