import BffLayout.Proofs.LineEnds
import BffLayout.Proofs.WholeText

/-!
Carriage returns. Reading a text drops one carriage return from the end of each line, so a text that
is read and written again is the same exactly if none of its lines ends in one. The other way round,
lines that hold no line feed and end in no carriage return come back when they are written and read. A
second pass of re-indentation moves no line of a text, but it reads the text once more. It keeps the text
exactly if the first pass has left no carriage return at the end of a line, and the first pass leaves one
wherever a line that it keeps had two.
-/
namespace BffLayout

theorem dropReturn_eq_self_iff {cs : List Char} : dropReturn cs = cs ↔ cs.getLast? ≠ some '\r' := by
  unfold dropReturn
  split
  · next hlast =>
    have hne : cs ≠ [] := by
      rintro rfl
      cases hlast
    constructor
    · intro h
      have hlength := congrArg List.length h
      rw [List.length_dropLast] at hlength
      have hpos := List.length_pos_iff.mpr hne
      omega
    · intro h
      exact absurd hlast h
  · next hlast => exact ⟨fun _ => hlast, fun _ => rfl⟩

theorem joinLines_splitLines (cs : List Char) : joinLines (splitLines cs) = cs := by
  rw [joinLines, splitLines_eq, List.intercalate_splitOn]

/-- The text without the one carriage return right before each line feed and at its end. -/
def dropReturns : List Char → List Char
  | [] => []
  | c :: rest =>
    if c = '\r' ∧ (rest = [] ∨ rest.head? = some '\n') then dropReturns rest
    else c :: dropReturns rest

theorem dropReturn_cons (c : Char) (line : List Char) :
    dropReturn (c :: line) = if c = '\r' ∧ line = [] then [] else c :: dropReturn line := by
  cases line with
  | nil => by_cases hc : c = '\r' <;> simp [dropReturn, hc]
  | cons d line =>
    have hinner : ¬(c = '\r' ∧ d :: line = []) := fun h => List.cons_ne_nil _ _ h.2
    rw [if_neg hinner]
    simp only [dropReturn, List.getLast?_cons_cons, List.dropLast_cons_cons]
    split <;> rfl

theorem first_line_eq_nil_iff {cs line : List Char} {more : List (List Char)}
    (h : splitLines cs = line :: more) : line = [] ↔ cs = [] ∨ cs.head? = some '\n' := by
  cases cs with
  | nil =>
    cases h
    simp
  | cons c rest =>
    by_cases hc : c = '\n'
    · subst hc
      cases h
      simp
    · obtain ⟨first, others, -, hfirst⟩ := splitLines_cons hc rest
      rw [hfirst] at h
      cases h
      simp [hc]

theorem joinLines_cons_cons (c : Char) (line : List Char) (more : List (List Char)) :
    joinLines ((c :: line) :: more) = c :: joinLines (line :: more) := by
  rw [joinLines_cons, joinLines_cons, List.cons_append]

/-- Dropping a carriage return from each line is one pass over the text. -/
theorem joinLines_map_dropReturn (cs : List Char) :
    joinLines ((splitLines cs).map dropReturn) = dropReturns cs := by
  induction cs with
  | nil => rfl
  | cons c rest ih =>
    by_cases hc : c = '\n'
    · subst hc
      have hfeed : afterLine ((splitLines rest).map dropReturn) = '\n' :: dropReturns rest := by
        rw [afterLine_of_ne_nil (by simpa using splitLines_ne_nil rest), ih]
      rw [splitLines_cons_feed, List.map_cons, joinLines_cons, hfeed]
      rfl
    · obtain ⟨line, more, hrest, hline⟩ := splitLines_cons hc rest
      rw [hrest, List.map_cons] at ih
      have hempty := first_line_eq_nil_iff hrest
      rw [hline, List.map_cons, dropReturn_cons, dropReturns]
      simp only [← hempty]
      split
      · next hreturn =>
        rw [hreturn.2] at ih
        exact ih
      · rw [joinLines_cons_cons, ih]

/-- New indentation keeps the end of a line that is not blank. -/
theorem getLast?_withIndent {cs : List Char} (h : allWhite cs = false) (n : Nat) :
    (withIndent n cs).getLast? = cs.getLast? := by
  have hne : dropWhite cs ≠ [] := by
    rw [ne_eq, dropWhite_eq_nil_iff, h]
    exact Bool.false_ne_true
  have hcs := congrArg List.getLast? (takeWhite_append_dropWhite cs)
  rw [List.getLast?_append_of_ne_nil _ hne] at hcs
  rw [withIndent_of_content h, List.getLast?_append_of_ne_nil _ hne, hcs]

/-- The last character of a row is kept, unless the row is emptied. -/
theorem Focus.getLast?_reindented (cfg : Config) (f : Focus) :
    (f.reindented cfg).chars.getLast? =
      if f.row.start = .code ∧ f.row.isBlank = true then none else f.row.chars.getLast? := by
  cases hstart : f.row.start with
  | block =>
    rw [reindented_block cfg hstart]
    rfl
  | code =>
    rw [reindented_code cfg hstart]
    cases hblank : f.row.isBlank with
    | true => exact congrArg List.getLast? (withIndent_of_blank hblank _)
    | false => exact getLast?_withIndent hblank _

namespace Buffer

/-- Reading and writing keeps a text that has no carriage return at the end of a line, and no other. -/
theorem toText_ofText_eq_iff (text : String) :
    (ofText text).toText = text ↔ ∀ line ∈ splitLines text.toList, line.getLast? ≠ some '\r' := by
  have hchars : (ofText text).lines.map Line.chars = (splitLines text.toList).map dropReturn :=
    map_chars_linesFrom _ _
  have hsplit : splitLines (ofText text).toText.toList = (splitLines text.toList).map dropReturn := by
    rw [splitLines_toText (ofText_ne_nil text) fun l hl => not_mem_of_mem_ofText hl, hchars]
  have hkept : (splitLines text.toList).map dropReturn = splitLines text.toList ↔
      ∀ line ∈ splitLines text.toList, line.getLast? ≠ some '\r' := by
    simp only [← dropReturn_eq_self_iff]
    have hmap := List.map_inj_left (l := splitLines text.toList) (f := dropReturn) (g := id)
    rwa [List.map_id] at hmap
  rw [← hkept]
  constructor
  · intro h
    rw [← hsplit, h]
  · intro h
    rw [toText, hchars, h, joinLines_splitLines, String.ofList_toList]

/-- Reading and writing drops one carriage return before each line feed and at the end of the text, and
changes nothing else. Lines without line feeds and without carriage returns at their ends come back as they
were when they are written and read, each with the state it starts in. -/
theorem text_round_trip :
    (∀ text, (ofText text).toText = String.ofList (dropReturns text.toList) ∧
      ((ofText text).toText = text ↔
        ∀ line ∈ text.toList.splitOn '\n', line.getLast? ≠ some '\r')) ∧
    ∀ lines ≠ [], (∀ cs ∈ lines, '\n' ∉ cs ∧ cs.getLast? ≠ some '\r') →
      ofText (ofLines lines).toText = ofLines lines := by
  refine ⟨fun text => ⟨?_, ?_⟩, ?_⟩
  · rw [toText, ofText, ofLines, map_chars_linesFrom, joinLines_map_dropReturn]
  · rw [toText_ofText_eq_iff, splitLines_eq]
  · intro lines hne hlines
    have hsplit : splitLines (ofLines lines).toText.toList = lines := by
      rw [toText, ofLines, map_chars_linesFrom, String.toList_ofList,
        splitLines_joinLines hne fun cs hcs => (hlines cs hcs).1]
    have hkept : lines.map dropReturn = lines := by
      conv_rhs => rw [← List.map_id lines]
      exact List.map_congr_left fun cs hcs => dropReturn_eq_self_iff.mpr (hlines cs hcs).2
    rw [ofText, hsplit, hkept]

/-- A comment that goes on over an empty line, with carriage returns inside its lines. -/
def innerReturns : List (List Char) := ["/* a\rb", "", "\r */ \rc"].map String.toList

theorem text_round_trip_innerReturns :
    (ofText "a\r\r\n\r\n\rb\r").toText = "a\r\n\n\rb" ∧
    ofText (ofLines innerReturns).toText = ofLines innerReturns ∧
    (ofText (ofLines innerReturns).toText).startState 1 = .block := by
  obtain ⟨hread, hwritten⟩ := text_round_trip
  have hlines := hwritten innerReturns (by decide) (by decide)
  refine ⟨(hread _).1.trans (by decide), hlines, ?_⟩
  rw [hlines]
  decide

theorem map_getLast?_reindent (cfg : Config) (b : Buffer) :
    ((b.reindent cfg).lines.map fun l => l.chars.getLast?) =
      b.lines.map fun l => if l.start = .code ∧ l.isBlank = true then none else l.chars.getLast? := by
  apply List.ext_getElem?
  intro i
  rw [List.getElem?_map, List.getElem?_map, getElem?_reindent, Option.map_map]
  congr 1
  funext l
  exact Focus.getLast?_reindented cfg _

/-- Placing leaves no carriage return at the end of a line exactly if it empties every line that
ends in one. -/
theorem no_return_reindent_iff (cfg : Config) (b : Buffer) :
    (∀ l ∈ (b.reindent cfg).lines, l.chars.getLast? ≠ some '\r') ↔
      ∀ l ∈ b.lines, l.chars.getLast? = some '\r' → l.start = .code ∧ l.isBlank = true := by
  have hends : (∀ l ∈ (b.reindent cfg).lines, l.chars.getLast? ≠ some '\r') ↔
      ∀ l ∈ b.lines,
        (if l.start = .code ∧ l.isBlank = true then none else l.chars.getLast?) ≠ some '\r' := by
    rw [← List.forall_mem_map (f := fun l : Line => l.chars.getLast?) (P := fun e => e ≠ some '\r'),
      map_getLast?_reindent, List.forall_mem_map]
  rw [hends]
  apply forall₂_congr
  intro l _
  split
  · next h => simp [h]
  · next h => simp [h]

end Buffer

/-- A second pass only reads the text once more. It changes nothing exactly if every line that has
lost a carriage return and still ends in one is emptied by the first pass. -/
theorem reindentText_twice (cfg : Config) (text : String) :
    reindentText cfg (reindentText cfg text) = (Buffer.ofText (reindentText cfg text)).toText ∧
    (reindentText cfg (reindentText cfg text) = reindentText cfg text ↔
      ∀ l ∈ (Buffer.ofText text).lines, l.chars.getLast? = some '\r' →
        l.start = .code ∧ l.isBlank = true) := by
  have htwice : reindentText cfg (reindentText cfg text) =
      (Buffer.ofText (reindentText cfg text)).toText :=
    congrArg Buffer.toText (Buffer.reindent_reindentText cfg text)
  refine ⟨htwice, ?_⟩
  rw [htwice, Buffer.toText_ofText_eq_iff, Buffer.splitLines_reindentText, List.forall_mem_map,
    Buffer.no_return_reindent_iff]

/-- A line with two carriage returns at its end loses one in each pass. -/
theorem reindentText_twoReturns :
    reindentText .standard "a\r\r" = "a\r" ∧
    reindentText .standard (reindentText .standard "a\r\r") = "a" := by decide

end BffLayout
