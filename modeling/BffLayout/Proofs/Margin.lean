import BffLayout.Lexis
import BffLayout.Text

/-!
White margins. A text is its left margin, its content and its right margin. New indentation keeps
the content, and the scanner reads it alike whatever the margins: a white character never opens or
closes a string or a comment, and none is the second half of a comment sign.
-/
namespace BffLayout

/-- The text without the white characters at its end. -/
def trimEnd (cs : List Char) : List Char := (dropWhite cs.reverse).reverse

/-- The text without the white characters at both ends. -/
def trim (cs : List Char) : List Char := trimEnd (dropWhite cs)

theorem ne_of_isWhite {c d : Char} (hc : isWhite c = true) (hd : isWhite d = false) : c ≠ d := by
  rintro rfl
  rw [hc] at hd
  cases hd

theorem allWhite_iff {cs : List Char} : allWhite cs = true ↔ ∀ c ∈ cs, isWhite c = true := by
  simp [allWhite]

theorem allWhite_takeWhite (cs : List Char) : allWhite (takeWhite cs) = true := by
  simp [allWhite, takeWhite, List.all_takeWhile]

theorem dropWhite_append_white {w : List Char} (hw : allWhite w = true) (cs : List Char) :
    dropWhite (w ++ cs) = dropWhite cs :=
  List.dropWhile_append_of_pos (allWhite_iff.mp hw)

theorem takeWhite_append_white {w : List Char} (hw : allWhite w = true) (cs : List Char) :
    takeWhite (w ++ cs) = w ++ takeWhite cs :=
  List.takeWhile_append_of_pos (allWhite_iff.mp hw)

theorem dropWhite_append {cs : List Char} (h : allWhite cs = false) (t : List Char) :
    dropWhite (cs ++ t) = dropWhite cs ++ t := by
  rw [dropWhite, List.dropWhile_append, if_neg]
  · rfl
  · rw [List.isEmpty_iff, ← dropWhite, dropWhite_eq_nil_iff, h]
    exact Bool.false_ne_true

theorem takeWhite_append {cs : List Char} (h : allWhite cs = false) (t : List Char) :
    takeWhite (cs ++ t) = takeWhite cs := by
  have hsplit := takeWhite_append_dropWhite (cs ++ t)
  rw [dropWhite_append h, ← List.append_assoc, List.append_cancel_right_eq] at hsplit
  exact List.append_cancel_right (hsplit.trans (takeWhite_append_dropWhite cs).symm)

@[simp] theorem dropWhite_dropWhite (cs : List Char) : dropWhite (dropWhite cs) = dropWhite cs := by
  have h := dropWhite_append_white (allWhite_takeWhite cs) (dropWhite cs)
  rwa [takeWhite_append_dropWhite, eq_comm] at h

theorem takeWhite_dropWhite (cs : List Char) : takeWhite (dropWhite cs) = [] := by
  have h := takeWhite_append_dropWhite (dropWhite cs)
  rw [dropWhite_dropWhite] at h
  simpa using h

/-- What `trimEnd` cuts off is white. -/
theorem exists_white_end (cs : List Char) :
    ∃ t, allWhite t = true ∧ cs = trimEnd cs ++ t := by
  refine ⟨(takeWhite cs.reverse).reverse, ?_, ?_⟩
  · have h := allWhite_takeWhite cs.reverse
    rw [allWhite_iff] at h ⊢
    simpa using h
  · rw [trimEnd, ← List.reverse_append, takeWhite_append_dropWhite, List.reverse_reverse]

/-- A text is its left margin, its content and its right margin. -/
theorem exists_margins (cs : List Char) :
    ∃ t, allWhite t = true ∧ cs = takeWhite cs ++ trim cs ++ t := by
  obtain ⟨t, ht, he⟩ := exists_white_end (dropWhite cs)
  refine ⟨t, ht, ?_⟩
  rw [List.append_assoc, trim, ← he, takeWhite_append_dropWhite]

theorem trim_eq_nil_iff (cs : List Char) : trim cs = [] ↔ allWhite cs = true := by
  obtain ⟨t, ht, he⟩ := exists_margins cs
  constructor
  · intro h
    rw [he, h, List.append_nil, allWhite, List.all_append, Bool.and_eq_true]
    exact ⟨allWhite_takeWhite cs, ht⟩
  · intro h
    rw [trim, (dropWhite_eq_nil_iff cs).mpr h]
    rfl

@[simp] theorem allWhite_trim (cs : List Char) : allWhite (trim cs) = allWhite cs := by
  obtain ⟨t, ht, he⟩ := exists_margins cs
  have hw := allWhite_takeWhite cs
  have h := congrArg allWhite he
  simp only [allWhite, List.all_append] at h hw ht ⊢
  rw [h, hw, ht, Bool.true_and, Bool.and_true]

@[simp] theorem trim_dropWhite (cs : List Char) : trim (dropWhite cs) = trim cs := by
  rw [trim, dropWhite_dropWhite, trim]

/-- White characters at the end are no content. -/
theorem trim_append_white {t : List Char} (ht : allWhite t = true) (cs : List Char) :
    trim (cs ++ t) = trim cs := by
  have hreverse : allWhite t.reverse = true := by
    rw [allWhite, List.all_reverse]
    exact ht
  cases hcs : allWhite cs with
  | true =>
    have hall : allWhite (cs ++ t) = true := by
      rw [allWhite, List.all_append, Bool.and_eq_true]
      exact ⟨hcs, ht⟩
    rw [(trim_eq_nil_iff _).mpr hall, (trim_eq_nil_iff _).mpr hcs]
  | false =>
    rw [trim, dropWhite_append hcs, trimEnd, List.reverse_append, dropWhite_append_white hreverse, trim,
      trimEnd]

theorem allWhite_spaces (n : Nat) : allWhite (List.replicate n ' ') = true := by
  rw [allWhite_iff]
  intro c hc
  rw [List.eq_of_mem_replicate hc]
  decide

theorem withIndent_of_blank {cs : List Char} (h : allWhite cs = true) (n : Nat) :
    withIndent n cs = [] := by
  simp only [withIndent_eq, (dropWhite_eq_nil_iff cs).mpr h]

theorem withIndent_of_content {cs : List Char} (h : allWhite cs = false) (n : Nat) :
    withIndent n cs = List.replicate n ' ' ++ dropWhite cs := by
  rw [withIndent_eq]
  split
  · next he =>
    rw [dropWhite_eq_nil_iff, h] at he
    cases he
  · rfl

/-- New indentation keeps what follows the left margin. -/
@[simp] theorem dropWhite_withIndent (n : Nat) (cs : List Char) :
    dropWhite (withIndent n cs) = dropWhite cs := by
  rw [withIndent_eq]
  split
  · next h => rw [h]; rfl
  · rw [dropWhite_append_white (allWhite_spaces n), dropWhite_dropWhite]

@[simp] theorem trim_withIndent (n : Nat) (cs : List Char) : trim (withIndent n cs) = trim cs := by
  rw [← trim_dropWhite, dropWhite_withIndent, trim_dropWhite]

namespace Mode

/-- A string ends at the quote it began with, so that is a quote indeed. -/
def WellQuoted : Mode → Prop
  | string quote | escape quote => isQuote quote = true
  | _ => True

theorem wellQuoted_step {m : Mode} (hm : m.WellQuoted) (c : Char) (next : Option Char) :
    (m.step c next).2.WellQuoted := by
  cases m with
  | code =>
    simp only [step]
    split
    · assumption
    · split
      · trivial
      · split
        · trivial
        · split <;> trivial
  | string quote =>
    simp only [step]
    split
    · trivial
    · split <;> exact hm
  | escape quote => exact hm
  | lineComment | opening => trivial
  | block =>
    simp only [step]
    split <;> trivial
  | star =>
    simp only [step]
    split
    · trivial
    · split <;> trivial

theorem wellQuoted_run {m : Mode} (hm : m.WellQuoted) (cs : List Char) : (m.run cs).WellQuoted := by
  induction cs generalizing m with
  | nil => exact hm
  | cons c rest ih => exact ih (wellQuoted_step hm c rest.head?)

theorem wellQuoted_mode (s : ScanState) : s.mode.WellQuoted := by
  cases s <;> trivial

/-- Only a quote or a character of a comment sign can open a text or end the one that is open. -/
theorem kind_step_of_ne {m : Mode} (hm : m.WellQuoted) {c : Char} (hquote : isQuote c = false)
    (hsemi : c ≠ ';') (hslash : c ≠ '/') (hstar : c ≠ '*') (next : Option Char) :
    (m.step c next).2.kind = m.kind := by
  cases m with
  | code => simp [step, hquote, hsemi, hslash]
  | string quote =>
    have hne : c ≠ quote := by
      rintro rfl
      rw [WellQuoted, hquote] at hm
      cases hm
    simp only [step, hne, if_false]
    split <;> rfl
  | escape quote | lineComment | opening => rfl
  | block => simp [step, hstar]
  | star => simp [step, hslash, hstar, kind]

/-- A white character leaves the text open that was open before it. -/
theorem kind_step_white {m : Mode} (hm : m.WellQuoted) {c : Char} (hc : isWhite c = true)
    (next : Option Char) : (m.step c next).2.kind = m.kind := by
  have hquote : isQuote c = false := by
    simp only [isQuote, Bool.or_eq_false_iff, beq_eq_false_iff_ne]
    exact ⟨ne_of_isWhite hc (by decide), ne_of_isWhite hc (by decide)⟩
  exact kind_step_of_ne hm hquote (ne_of_isWhite hc (by decide)) (ne_of_isWhite hc (by decide))
    (ne_of_isWhite hc (by decide)) next

theorem kind_run_white {m : Mode} (hm : m.WellQuoted) {t : List Char} (ht : allWhite t = true) :
    (m.run t).kind = m.kind := by
  induction t generalizing m with
  | nil => rfl
  | cons c rest ih =>
    simp only [allWhite, List.all_cons, Bool.and_eq_true] at ht
    rw [run_cons, ih (wellQuoted_step hm c _) ht.2, kind_step_white hm ht.1]

/-- At the start of a line a white character changes nothing at all. -/
theorem step_white (s : ScanState) {c : Char} (hc : isWhite c = true) (next : Option Char) :
    s.mode.step c next = (s.mode.kind, s.mode) := by
  have hk := kind_step_white (wellQuoted_mode s) hc next
  cases s with
  | code =>
    simp only [ScanState.mode, step] at hk ⊢
    grind [kind]
  | block =>
    have hstar : c ≠ '*' := ne_of_isWhite hc (by decide)
    simp [ScanState.mode, step, hstar, kind]

theorem run_white_append (s : ScanState) {w : List Char} (hw : allWhite w = true) (cs : List Char) :
    s.mode.run (w ++ cs) = s.mode.run cs := by
  induction w with
  | nil => rfl
  | cons c rest ih =>
    simp only [allWhite, List.all_cons, Bool.and_eq_true] at hw
    rw [List.cons_append, run_cons, step_white s hw.1]
    exact ih hw.2

theorem tag_white_append (s : ScanState) {w : List Char} (hw : allWhite w = true) (cs : List Char) :
    s.mode.tag (w ++ cs) = s.mode.tag w ++ s.mode.tag cs := by
  induction w with
  | nil => rfl
  | cons c rest ih =>
    simp only [allWhite, List.all_cons, Bool.and_eq_true] at hw
    simp only [List.cons_append, tag_cons, step_white s hw.1]
    rw [ih hw.2]

/-- The scanner looks one character ahead for the second half of a comment sign only. -/
theorem step_next {m : Mode} {c : Char} {next : Option Char} (hslash : next ≠ some '/')
    (hstar : next ≠ some '*') : m.step c next = m.step c none := by
  cases m <;> simp [step, hslash, hstar]

/-- A text can be cut before any character that ends no comment sign. -/
theorem run_append {t : List Char} (hslash : t.head? ≠ some '/') (hstar : t.head? ≠ some '*')
    (m : Mode) (cs : List Char) : m.run (cs ++ t) = (m.run cs).run t := by
  induction cs generalizing m with
  | nil => rfl
  | cons c rest ih =>
    rw [List.cons_append, run_cons, run_cons, ih]
    cases rest with
    | nil => rw [List.nil_append, step_next hslash hstar, List.head?_nil]
    | cons d more => rfl

theorem tag_append {t : List Char} (hslash : t.head? ≠ some '/') (hstar : t.head? ≠ some '*')
    (m : Mode) (cs : List Char) : m.tag (cs ++ t) = m.tag cs ++ (m.run cs).tag t := by
  induction cs generalizing m with
  | nil => rfl
  | cons c rest ih =>
    rw [List.cons_append, tag_cons, tag_cons, ih, run_cons, List.cons_append]
    cases rest with
    | nil => rw [List.nil_append, step_next hslash hstar, List.head?_nil]
    | cons d more => rfl

end Mode

/-- No comment sign ends in a white character. -/
theorem head?_ne_of_allWhite {t : List Char} (ht : allWhite t = true) {d : Char}
    (hd : isWhite d = false) : t.head? ≠ some d := by
  intro h
  have hmem : d ∈ t := List.mem_of_mem_head? h
  rw [allWhite_iff.mp ht d hmem] at hd
  cases hd

end BffLayout
