import BffLayout.Completion
import BffLayout.Proofs.Placing
import BffLayout.Proofs.Veil

/-!
Typing a name. One more character of a name, typed at the cursor, opens and closes no string and no
comment, completes no comment sign, and stands behind everything that decides what is being named. So
the context and the function around it stay as they are, and of the names on offer those remain that
begin with the longer text.
-/
namespace BffLayout

namespace Mode

/-- A character of a name leaves the text open that was open before it. -/
theorem kind_step_name {m : Mode} (hm : m.WellQuoted) {c : Char} (hc : isNameChar c = true)
    (next : Option Char) : (m.step c next).2.kind = m.kind := by
  obtain ⟨-, hquote, -, hstar, hslash, hsemi⟩ := isPlain_iff.mp (isPlain_of_isNameChar hc)
  exact kind_step_of_ne hm hquote hsemi hslash hstar next

end Mode

namespace Line

variable {l : Line} {column : Nat} {x : Char} (hx : l.chars[column]? = some x)

include hx

theorem upTo_succ : l.upTo (column + 1) = ⟨l.start, (l.upTo column).chars ++ [x]⟩ := by
  rw [upTo, List.take_add_one, hx, Option.toList_some]
  rfl

variable (hname : isNameChar x = true)

include hname

/-- No comment sign ends in a character of a name, so the cells before it stay as they are. -/
theorem cells_upTo_succ : ∃ kind, (l.upTo (column + 1)).cells = (l.upTo column).cells ++ [⟨x, kind⟩] := by
  obtain ⟨-, -, -, hstar, hslash, -⟩ := isPlain_iff.mp (Mode.isPlain_of_isNameChar hname)
  refine ⟨((l.upTo column).finish.step x none).1, ?_⟩
  rw [upTo_succ hx, cells, Mode.tag_append (by simpa using hslash) (by simpa using hstar)]
  rfl

theorem openAtEnd_upTo_succ : (l.upTo (column + 1)).openAtEnd = (l.upTo column).openAtEnd := by
  obtain ⟨-, -, -, hstar, hslash, -⟩ := isPlain_iff.mp (Mode.isPlain_of_isNameChar hname)
  have hquoted := Mode.wellQuoted_run (Mode.wellQuoted_mode l.start) (l.upTo column).chars
  rw [upTo_succ hx, openAtEnd, finish, Mode.run_append (by simpa using hslash) (by simpa using hstar),
    Mode.run_cons, Mode.run_nil, Mode.kind_step_name hquoted hname]
  rfl

end Line

theorem beginsWith_of_append {typed more name : List Char} (h : beginsWith (typed ++ more) name = true) :
    beginsWith typed name = true := by
  rw [beginsWith, List.isPrefixOf_iff_prefix] at h ⊢
  rw [List.map_append] at h
  exact (List.prefix_append _ _).trans h

/-- The completion after one more character is typed. -/
def Completion.narrowed (r : Completion) (x : Char) : Completion :=
  ⟨r.context, r.typed.push x, r.function,
    r.candidates.filter fun name => beginsWith (r.typed.push x).toList name.toList⟩

/-- One more character of a name narrows the completion and changes nothing else. -/
theorem Focus.complete?_succ {f : Focus} {column : Nat} {x : Char} (hx : f.row.chars[column]? = some x)
    (hname : isNameChar x = true) :
    f.complete? (column + 1) = (f.complete? column).map fun r => r.narrowed x := by
  obtain ⟨kind, hcells⟩ := Line.cells_upTo_succ hx hname
  have hback : (f.row.upTo (column + 1)).cells.reverse =
      ⟨x, kind⟩ :: (f.row.upTo column).cells.reverse := by
    rw [hcells, List.reverse_concat]
  simp only [complete?, hback, Line.openAtEnd_upTo_succ hx hname, List.takeWhile_cons, List.dropWhile_cons,
    hname, if_true, List.reverse_cons, List.map_append, List.map_cons, List.map_nil, Option.map_map]
  congr 1
  funext context
  have hpush : ∀ typed : List Char, (String.ofList typed).push x = String.ofList (typed ++ [x]) := by
    intro typed
    apply String.toList_injective
    rw [String.toList_push, String.toList_ofList, String.toList_ofList]
  simp only [Function.comp_apply, Completion.narrowed, hpush, String.toList_ofList, List.filter_filter]
  congr 1
  refine List.filter_congr ?_
  intro name _
  rw [Bool.eq_self_and]
  exact beginsWith_of_append

namespace Buffer

theorem complete_of_le {b : Buffer} {line column : Nat} {l : Line} (hl : b.lines[line]? = some l)
    (h : column ≤ l.length) :
    b.complete ⟨line, column⟩ = .ok (Focus.complete? ⟨b.above line, Row.of line l⟩ column) := by
  rw [complete, focus?_eq_some hl]
  exact if_pos h

/-- Typing one more character of a name never makes a completion appear or go away. It keeps the
context and the function, and leaves of the candidates, in their order, those that begin with the longer
text, the case of ASCII letters aside. -/
theorem complete_narrows {b : Buffer} {line column : Nat} {l : Line} {x : Char}
    (hl : b.lines[line]? = some l) (hx : l.chars[column]? = some x) (hname : isNameChar x = true) :
    ∃ before after, b.complete ⟨line, column⟩ = .ok before ∧ b.complete ⟨line, column + 1⟩ = .ok after ∧
      (after = none ↔ before = none) ∧
      ∀ r s, before = some r → after = some s →
        s.context = r.context ∧ s.function = r.function ∧ s.typed.toList = r.typed.toList ++ [x] ∧
        s.candidates = r.candidates.filter fun name =>
          (s.typed.toList.map Char.toLower).isPrefixOf (name.toList.map Char.toLower) := by
  have hlt : column < l.length := (List.getElem?_eq_some_iff.mp hx).1
  refine ⟨_, _, complete_of_le hl (Nat.le_of_lt hlt), complete_of_le hl hlt, ?_, ?_⟩
  · rw [Focus.complete?_succ hx hname, Option.map_eq_none_iff]
  · intro r s hr hs
    rw [Focus.complete?_succ hx hname, hr, Option.map_some] at hs
    cases hs
    exact ⟨rfl, rfl, String.toList_push x, rfl⟩

/-- A string with a complete reference, and behind it one that is being typed. -/
def halfReference : Line := ⟨.code, "'^'$A$ $_f".toList⟩

theorem complete_narrows_halfReference : ∃ r s,
    (Buffer.mk [halfReference]).complete ⟨0, 9⟩ = .ok (some r) ∧
      (Buffer.mk [halfReference]).complete ⟨0, 10⟩ = .ok (some s) ∧
      s.context = .reference ∧ s.typed.toList = ['_', 'f'] ∧ r.candidates.length = 5 ∧ s.candidates =
        ["_FASTBUILD_EXE_PATH_", "_FASTBUILD_VERSION_", "_FASTBUILD_VERSION_STRING_"] := by
  have hline : (Buffer.mk [halfReference]).lines[0]? = some halfReference := rfl
  have hx : halfReference.chars[9]? = some 'f' := by decide
  obtain ⟨before, after, hbefore, hafter, hnone, hsome⟩ := complete_narrows hline hx (by decide)
  have hfound : (Buffer.mk [halfReference]).complete ⟨0, 9⟩ =
      .ok (some ⟨.reference, "_", none, Vocabulary.builtinVariables⟩) := by decide
  cases hbefore.symm.trans hfound
  cases after with
  | none => cases hnone.mp rfl
  | some s =>
    obtain ⟨hcontext, -, htyped, hcandidates⟩ := hsome _ s rfl rfl
    refine ⟨_, s, hfound, hafter, hcontext, htyped, rfl, ?_⟩
    rw [hcandidates, htyped]
    decide

end Buffer

end BffLayout
