import BffLayout.Proofs.BlockLine
import BffLayout.Proofs.Continuation
import BffLayout.Proofs.InPlace
import BffLayout.Proofs.Reading

/-!
Comments to the end of a line move no code. Behind a line such a comment says nothing: the line
reads like the same line without it. On a line of its own it takes the column of an ordinary line
and hands the same column on, so the lines below stand where they would without it.
-/
namespace BffLayout

/-- Whether a text is a comment that takes up the rest of its line. -/
def isComment : List Char → Bool
  | ';' :: _ => true
  | '/' :: '/' :: _ => true
  | _ => false

/-- A comment begins with one of two characters. -/
theorem head_of_isComment {cs : List Char} (h : isComment cs = true) :
    ∃ c rest, cs = c :: rest ∧ (c = ';' ∨ c = '/' ∧ rest.head? = some '/') := by
  unfold isComment at h
  split at h
  · exact ⟨_, _, rfl, .inl rfl⟩
  · exact ⟨_, _, rfl, .inr ⟨rfl, rfl⟩⟩
  · cases h

namespace Mode

theorem run_lineComment (cs : List Char) : lineComment.run cs = lineComment := by
  induction cs with
  | nil => rfl
  | cons c rest ih => exact ih

theorem tag_lineComment (cs : List Char) : lineComment.tag cs = cs.map (⟨·, .lineComment⟩) := by
  induction cs with
  | nil => rfl
  | cons c rest ih => exact congrArg _ ih

theorem step_comment {c : Char} {next : Option Char} (h : c = ';' ∨ c = '/' ∧ next = some '/') :
    code.step c next = (.lineComment, lineComment) := by
  rcases h with rfl | ⟨rfl, rfl⟩ <;> rfl

theorem run_comment {cs : List Char} (h : isComment cs = true) : code.run cs = lineComment := by
  obtain ⟨c, rest, rfl, hc⟩ := head_of_isComment h
  rw [run_cons, step_comment hc, run_lineComment]

theorem tag_comment {cs : List Char} (h : isComment cs = true) :
    code.tag cs = cs.map (⟨·, .lineComment⟩) := by
  obtain ⟨c, rest, rfl, hc⟩ := head_of_isComment h
  rw [tag_cons, step_comment hc, tag_lineComment, List.map_cons]

end Mode

namespace Line

section Tail

variable {l m : Line} {tail : List Cell} (hcells : m.cells = l.cells ++ tail)

include hcells

theorem zipIdx_tail : m.cells.zipIdx = l.cells.zipIdx ++ tail.zipIdx l.cells.length := by
  rw [hcells, List.zipIdx_append, Nat.zero_add]

theorem first?_tail (hblank : l.isBlank = false) : m.first? = l.first? := by
  have hsome : l.first?.isSome = true := by
    cases htrim : trim l.chars with
    | nil =>
      rw [isBlank, (trim_eq_nil_iff l.chars).mp htrim] at hblank
      cases hblank
    | cons c rest =>
      rw [first?_eq, cells, core_chars, htrim]
      rfl
  rw [first?, Option.isSome_map] at hsome
  rw [first?, first?, zipIdx_tail hcells, List.find?_append, Option.or_of_isSome hsome]

variable (htail : ∀ x ∈ tail, x.isRemark = true)

include htail

theorem ink_tail : m.ink = l.ink := by
  have hnone : (tail.zipIdx l.cells.length).filterMap (fun x =>
      if x.1.kind = .code ∧ isWhite x.1.char = false then some (x.2, x.1.char) else none) = [] := by
    rw [List.filterMap_eq_nil_iff]
    intro x hx
    have hremark := htail x.1 (List.fst_mem_of_mem_zipIdx hx)
    rw [if_neg]
    rintro ⟨hkind, hwhite⟩
    simp [Cell.isRemark, hkind, hwhite] at hremark
  rw [ink_eq_filterMap, ink_eq_filterMap, zipIdx_tail hcells, List.filterMap_append, hnone,
    List.append_nil]

theorem contentAfter?_tail (column : Nat) : m.contentAfter? column = l.contentAfter? column := by
  unfold contentAfter?
  rw [zipIdx_tail hcells, List.drop_append, List.find?_append]
  cases hl : (l.cells.zipIdx.drop (column + 1)).find? fun x => !isWhite x.1.char with
  | some x => rfl
  | none =>
    rw [Option.none_or]
    split
    · next cell content hfind =>
      have hwhite : isWhite cell.char = false := by simpa using List.find?_some hfind
      have hmem := List.mem_of_mem_drop (List.mem_of_find?_eq_some hfind)
      have hremark := htail cell (List.fst_mem_of_mem_zipIdx hmem)
      rcases Cell.kind_of_isRemark hremark hwhite with hkind | hkind <;> rw [hkind]
    · rfl

end Tail

/-- Remarks behind a line change none of its answers, as long as they do not go on with a name. -/
theorem readsLike_append {l : Line} {t : List Char} {tail : List Cell} (hblank : l.isBlank = false)
    (hcells : cells ⟨l.start, l.chars ++ t⟩ = l.cells ++ tail) (htail : ∀ x ∈ tail, x.isRemark = true)
    (ht : t.takeWhile isNameChar = [])
    (hdrop : (t.dropWhile fun c => c == ' ' || c == '\t').takeWhile isNameChar = []) :
    l.ReadsLike ⟨l.start, l.chars ++ t⟩ := by
  have hleading : leading? ⟨l.start, l.chars ++ t⟩ = l.leading? := by
    rw [leading?, leading?, first?_tail hcells hblank]
  refine ⟨?_, hleading, ?_, ink_tail hcells htail, contentAfter?_tail hcells htail, ?_, ?_⟩
  · rw [hblank]
    simp only [isBlank, allWhite, List.all_append] at hblank ⊢
    rw [hblank, Bool.false_and]
  · unfold directive?
    rw [hleading]
    split
    · next hash hlead =>
      have hlt := lt_length_of_getElem? (getElem?_of_leading? hlead)
      simp only [List.drop_append_of_le_length (Nat.succ_le_of_lt hlt), name_append ht hdrop]
    · rfl
  · intro tab
    rw [indentation, indentWidth, takeWhite_append hblank]
    rfl
  · intro tab column hcolumn
    rw [visualColumn, visualColumn, List.take_append_of_le_length hcolumn]

theorem finish_of_openAtEnd {l : Line} (h : l.openAtEnd = .code) : l.finish = .code := by
  cases hm : l.finish with
  | code => rfl
  | string quote | escape quote | lineComment | opening | block | star =>
    rw [openAtEnd, hm] at h
    cases h

section Comment

variable {l : Line} (hend : l.openAtEnd = .code) {note : List Char} (hnote : isComment note = true)

include hend hnote

theorem cells_comment : cells ⟨l.start, l.chars ++ ' ' :: note⟩ =
    l.cells ++ ⟨' ', .code⟩ :: note.map (⟨·, .lineComment⟩) := by
  have hfinish : l.start.mode.run l.chars = .code := finish_of_openAtEnd hend
  rw [cells, Mode.tag_append (by simp) (by simp), hfinish, Mode.tag_cons, ← Mode.tag_comment hnote]
  rfl

/-- The line below starts in the same state. -/
theorem next_comment : next ⟨l.start, l.chars ++ ' ' :: note⟩ = l.next := by
  have hfinish : l.start.mode.run l.chars = .code := finish_of_openAtEnd hend
  have hrun : finish ⟨l.start, l.chars ++ ' ' :: note⟩ = .lineComment := by
    rw [finish, Mode.run_append (by simp) (by simp), hfinish, ← Mode.run_comment hnote]
    rfl
  rw [next, hrun, next, finish_of_openAtEnd hend]
  rfl

/-- A comment behind a line says nothing. -/
theorem readsLike_comment (hblank : l.isBlank = false) :
    l.ReadsLike ⟨l.start, l.chars ++ ' ' :: note⟩ := by
  apply readsLike_append hblank (cells_comment hend hnote)
  · intro x hx
    rcases List.mem_cons.mp hx with rfl | hx
    · rfl
    · obtain ⟨c, -, rfl⟩ := List.mem_map.mp hx
      simp [Cell.isRemark]
  · rfl
  · obtain ⟨c, rest, rfl, rfl | ⟨rfl, -⟩⟩ := head_of_isComment hnote <;> rfl

end Comment

/-- The texts that come from a line when a comment may be put behind it. -/
inductive Remarked (l : Line) : List Char → Prop
  | same : l.Remarked l.chars
  | comment {note : List Char} (content : l.isBlank = false) (ends : l.openAtEnd = .code)
      (comment : isComment note = true) : l.Remarked (l.chars ++ ' ' :: note)

theorem Remarked.readsLike {l : Line} {cs : List Char} (h : l.Remarked cs) :
    l.ReadsLike ⟨l.start, cs⟩ := by
  cases h with
  | same => exact .refl l
  | comment content ends comment => exact readsLike_comment ends comment content

theorem Remarked.next {l : Line} {cs : List Char} (h : l.Remarked cs) :
    Line.next ⟨l.start, cs⟩ = l.next := by
  cases h with
  | same => rfl
  | comment content ends comment => exact next_comment ends comment

end Line

/-- Comments behind some of the lines leave all lines as they were to a reader. -/
theorem readsLike_linesFrom {s : ScanState} {lines lines' : List (List Char)}
    (h : List.Forall₂ Line.Remarked (linesFrom s lines) lines') :
    List.Forall₂ Line.ReadsLike (linesFrom s lines) (linesFrom s lines') := by
  induction lines generalizing s lines' with
  | nil =>
    cases h
    exact .nil
  | cons cs rest ih =>
    rw [linesFrom] at h ⊢
    cases h with
    | cons hl hrest =>
      rw [linesFrom, hl.next]
      exact .cons hl.readsLike (ih hrest)

end BffLayout
