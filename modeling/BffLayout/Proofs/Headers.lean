import Mathlib.Data.List.Chain
import BffLayout.Proofs.Unclosed

/-!
Headers of bodies. What stands in code before an open brace says what the brace opens: the body of a
function, if it is a name, or a name and arguments in parentheses; the value of a variable, if the name
comes after a point or a dollar sign; else a list or a struct. The search for the function around a
place goes outwards over the braces that are open there. It comes back with the name of the first that
opens a body, at any depth and past all that is closed in between.
-/
namespace BffLayout

/-- The second place is the one right after the first, on the same line. -/
def Position.Beside (p q : Position) : Prop := q.line = p.line ∧ q.column = p.column + 1
  deriving Decidable

/-- Code in which every opener of a kind is closed and every closer answers one. -/
inductive Bracket.Balanced (k : Bracket) : List CodeChar → Prop
  | nil : Balanced k []
  | other {c : CodeChar} {rest : List CodeChar} (hc : c.char ≠ k.closer) (ho : c.char ≠ k.opener)
      (hrest : Balanced k rest) : Balanced k (c :: rest)
  | group {o c : CodeChar} {inside rest : List CodeChar} (ho : o.char = k.opener)
      (hinside : Balanced k inside) (hc : c.char = k.closer) (hrest : Balanced k rest) :
      Balanced k (o :: inside ++ c :: rest)

/-- Only white characters; strings, comments and line breaks are no code at all. -/
abbrev Gap (code : List CodeChar) : Prop := ∀ c ∈ code, isWhite c.char = true

/-- A name in one piece on one line. -/
structure IsWord (run : List CodeChar) : Prop where
  ne_nil : run ≠ []
  chars : ∀ c ∈ run, isNameChar c.char = true
  piece : (run.map fun c => c.position).IsChain Position.Beside

/-- A name that can be a function's, after the code `front`: it starts with a letter or an underscore,
no character of a name stands right before it, and the last of the code before it makes it no variable. -/
structure IsFunctionName (front run : List CodeChar) : Prop extends IsWord run where
  start : ∀ c ∈ run.head?, c.char.isAlpha = true ∨ c.char = '_'
  apart : ∀ d ∈ front.getLast?, ∀ c ∈ run.head?, d.position.Beside c.position →
    isNameChar d.char = false
  free : ∀ d ∈ front.getLast?, d.char ≠ '.' ∧ d.char ≠ '$'

def codeName (run : List CodeChar) : String := String.ofList (run.map CodeChar.char)

/-- What the code before an open brace says about it, and the function that it names. -/
inductive Heads : List CodeChar → Option String → Prop
  | name {front run gap : List CodeChar} (hname : IsFunctionName front run) (hgap : Gap gap) :
      Heads (front ++ run ++ gap) (some (codeName run))
  | call {front run gap args gap' : List CodeChar} {o c : CodeChar} (hname : IsFunctionName front run)
      (hgap : Gap gap) (ho : o.char = Bracket.paren.opener) (hargs : Bracket.paren.Balanced args)
      (hc : c.char = Bracket.paren.closer) (hgap' : Gap gap') :
      Heads (front ++ run ++ gap ++ o :: args ++ c :: gap') (some (codeName run))
  | reference {front run gap : List CodeChar} {mark : CodeChar} (hmark : mark.char = '.' ∨ mark.char = '$')
      (hword : IsWord run) (hgap : Gap gap) : Heads (front ++ mark :: run ++ gap) none
  | sign {front gap : List CodeChar} {c : CodeChar} (hink : isWhite c.char = false)
      (hcloser : c.char ≠ Bracket.paren.closer) (hname : isNameChar c.char = false) (hgap : Gap gap) :
      Heads (front ++ c :: gap) none
  | nothing {gap : List CodeChar} (hgap : Gap gap) : Heads gap none

/-- Balanced code is passed over from end to start. -/
theorem Bracket.Balanced.openers_reverse {k : Bracket} {code : List CodeChar} (h : k.Balanced code)
    (pending : Nat) (before : List CodeChar) :
    k.openers pending (code.reverse ++ before) = k.openers pending before := by
  induction h generalizing pending before with
  | nil => rfl
  | other hc ho hrest ih =>
    rw [List.reverse_cons, List.append_assoc, List.singleton_append, ih, openers_other hc ho]
  | group ho hinside hc hrest ih ih' =>
    rw [List.reverse_append, List.reverse_cons, List.reverse_cons, List.append_assoc, List.append_assoc,
      ih', List.singleton_append, openers_closer hc, List.append_assoc, ih, List.singleton_append,
      openers_opener_succ ho]

theorem isWhite_of_isNameChar {c : Char} (h : isNameChar c = true) : isWhite c = false := by
  cases hw : isWhite c with
  | false => rfl
  | true => rw [isNameChar_white hw] at h; cases h

theorem ne_closer_of_isNameChar {c : Char} (h : isNameChar c = true) : c ≠ Bracket.paren.closer := by
  rintro rfl
  cases h

theorem dropWhiteCode_gap {gap : List CodeChar} (h : Gap gap) (code : List CodeChar) :
    dropWhiteCode (gap.reverse ++ code) = dropWhiteCode code := by
  rw [dropWhiteCode, List.dropWhile_append_of_pos]
  · rfl
  · exact fun c hc => h c (List.mem_reverse.mp hc)

theorem dropWhiteCode_cons {c : CodeChar} (h : isWhite c.char = false) (code : List CodeChar) :
    dropWhiteCode (c :: code) = c :: code :=
  List.dropWhile_cons_of_neg (by simp [h])

/-- Before a gap stands the same name. -/
theorem nameAtEnd?_gap {gap : List CodeChar} (h : Gap gap) (code : List CodeChar) :
    nameAtEnd? (gap.reverse ++ code) = nameAtEnd? code := by
  simp only [nameAtEnd?, dropWhiteCode_gap h]

theorem header?_gap {gap : List CodeChar} (h : Gap gap) (code : List CodeChar) :
    header? (gap.reverse ++ code) = header? code := by
  simp only [header?, dropWhiteCode_gap h]

theorem header?_cons {c : CodeChar} (hink : isWhite c.char = false)
    (hcloser : c.char ≠ Bracket.paren.closer) (code : List CodeChar) :
    header? (c :: code) = nameAtEnd? (c :: code) := by
  simp only [header?, dropWhiteCode_cons hink, if_neg hcloser]

/-- Names are read from their end, one column at a time, as far as they go. -/
theorem nameBack_append {back rest : List CodeChar} {index stop : Nat} {first : Position}
    (hchain : (⟨index, stop⟩ :: back.map fun c => c.position).IsChain fun q p => p.Beside q)
    (hfirst : (⟨index, stop⟩ :: back.map fun c => c.position).getLast? = some first)
    (hname : ∀ c ∈ back, isNameChar c.char = true)
    (hrest : ∀ d ∈ rest.head?, d.position.Beside first → isNameChar d.char = false) :
    nameBack index stop (back ++ rest) = (back.map CodeChar.char, rest) := by
  induction back generalizing stop with
  | nil =>
    cases hfirst
    cases rest with
    | nil => rfl
    | cons d more =>
      have hstop : ¬(d.row.index = index ∧ d.column + 1 = stop ∧ isNameChar d.char = true) := by
        rintro ⟨hline, hcolumn, hd⟩
        have hfalse := hrest d rfl ⟨hline.symm, hcolumn.symm⟩
        rw [hd] at hfalse
        cases hfalse
      rw [List.nil_append, nameBack, if_neg hstop]
      rfl
  | cons c more ih =>
    rw [List.map_cons, List.isChain_cons_cons] at hchain
    obtain ⟨⟨hline, hcolumn⟩, hmore⟩ := hchain
    obtain ⟨hc, hnames⟩ := List.forall_mem_cons.mp hname
    have hposition : c.position = ⟨index, c.column⟩ := congrArg (Position.mk · c.column) hline.symm
    rw [List.map_cons, List.getLast?_cons_cons, hposition] at hfirst
    rw [hposition] at hmore
    rw [List.cons_append, nameBack, if_pos ⟨hline.symm, hcolumn.symm, hc⟩, ih hmore hfirst hnames]
    rfl

section Words

variable {front run : List CodeChar} (hword : IsWord run)

include hword

theorem IsWord.exists_last : ∃ last before, run.reverse = last :: before ∧ isNameChar last.char = true := by
  obtain ⟨last, before, hback⟩ := List.exists_cons_of_ne_nil (List.reverse_ne_nil_iff.mpr hword.ne_nil)
  have hmem : last ∈ run := by
    rw [← List.mem_reverse, hback]
    exact List.mem_cons_self
  exact ⟨last, before, hback, hword.chars last hmem⟩

theorem IsWord.header?_reverse_append (code : List CodeChar) :
    header? (run.reverse ++ code) = nameAtEnd? (run.reverse ++ code) := by
  obtain ⟨last, before, hback, hlast⟩ := hword.exists_last
  rw [hback, List.cons_append, header?_cons (isWhite_of_isNameChar hlast) (ne_closer_of_isNameChar hlast)]

/-- A word is read as a whole, and nothing before it. -/
theorem nameBack_word {last : CodeChar} {before : List CodeChar} (hback : run.reverse = last :: before)
    (hapart : ∀ d ∈ front.getLast?, ∀ c ∈ run.head?, d.position.Beside c.position →
      isNameChar d.char = false) :
    nameBack last.row.index (last.column + 1) (run.reverse ++ front.reverse) =
      ((run.map CodeChar.char).reverse, front.reverse) := by
  obtain ⟨first, hfirst⟩ := Option.isSome_iff_exists.mp (List.isSome_head?.mpr hword.ne_nil)
  have hplaces : (last.position :: before.map fun c => c.position) =
      (run.map fun c => c.position).reverse := by
    rw [← List.map_reverse, hback, List.map_cons]
  rw [@nameBack_append _ _ _ _ first.position, List.map_reverse]
  · rw [hback, List.map_cons, List.isChain_cons_cons, hplaces, List.isChain_reverse]
    exact ⟨⟨rfl, rfl⟩, hword.piece⟩
  · rw [hback, List.map_cons, List.getLast?_cons_cons, hplaces, List.getLast?_reverse, List.head?_map,
      hfirst, Option.map_some]
  · exact fun c hc => hword.chars c (List.mem_reverse.mp hc)
  · intro d hd
    rw [List.head?_reverse] at hd
    exact hapart d hd first hfirst

/-- After a point or a dollar sign it is no function's name. -/
theorem nameAtEnd?_reference {mark : CodeChar} (hmark : mark.char = '.' ∨ mark.char = '$') :
    nameAtEnd? (run.reverse ++ mark :: front.reverse) = none := by
  obtain ⟨last, before, hback, hlast⟩ := hword.exists_last
  have hsign : isNameChar mark.char = false := by
    rcases hmark with h | h <;> rw [h] <;> rfl
  have hapart : ∀ d ∈ (front ++ [mark]).getLast?, ∀ c ∈ run.head?, d.position.Beside c.position →
      isNameChar d.char = false := by
    intro d hd _ _ _
    rw [List.getLast?_concat] at hd
    cases hd
    exact hsign
  have hread := nameBack_word hword hback hapart
  rw [List.reverse_append, List.reverse_singleton, List.singleton_append, hback, List.cons_append] at hread
  rw [hback, List.cons_append, nameAtEnd?, dropWhiteCode_cons (isWhite_of_isNameChar hlast)]
  simp [hread, hmark]

end Words

theorem nameAtEnd?_name {front run : List CodeChar} (h : IsFunctionName front run) :
    nameAtEnd? (run.reverse ++ front.reverse) = some (codeName run) := by
  obtain ⟨last, before, hback, hlast⟩ := h.exists_last
  have hread := nameBack_word h.toIsWord hback h.apart
  rw [hback, List.cons_append] at hread
  rw [hback, List.cons_append, nameAtEnd?, dropWhiteCode_cons (isWhite_of_isNameChar hlast)]
  have hfree : (front.reverse.head?.any fun c => c.char == '.' || c.char == '$') = false := by
    rw [List.head?_reverse]
    cases hd : front.getLast? with
    | none => rfl
    | some d => simp [h.free d hd]
  obtain ⟨c, name, hrun⟩ := List.exists_cons_of_ne_nil h.ne_nil
  have hstart : (c.char.isAlpha || c.char == '_') = true := by
    simpa using h.start c (by rw [hrun]; rfl)
  simp only [hread, hfree, List.reverse_reverse, hrun, List.map_cons, hstart, codeName, if_true,
    Bool.false_eq_true, if_false]

theorem nameAtEnd?_sign {c : CodeChar} (hink : isWhite c.char = false) (hname : isNameChar c.char = false)
    (code : List CodeChar) : nameAtEnd? (c :: code) = none := by
  have hread : nameBack c.row.index (c.column + 1) (c :: code) = ([], c :: code) := by
    simp [nameBack, hname]
  simp [nameAtEnd?, dropWhiteCode_cons hink, hread]

/-- The arguments are passed over, whatever they hold, to the name before them. -/
theorem header?_call {args code : List CodeChar} {o c : CodeChar} (ho : o.char = Bracket.paren.opener)
    (hargs : Bracket.paren.Balanced args) (hc : c.char = Bracket.paren.closer) :
    header? (c :: (args.reverse ++ o :: code)) = nameAtEnd? code := by
  have hink : isWhite c.char = false := by
    rw [hc]
    exact Bracket.paren.isWhite_closer
  have hopeners : Bracket.paren.openers 0 (args.reverse ++ o :: code) =
      (o, code) :: Bracket.paren.openers 0 code := by
    rw [hargs.openers_reverse, Bracket.openers_opener_zero ho]
  simp only [header?, dropWhiteCode_cons hink, if_pos hc, hopeners]

/-- The header that is found is the one that the code has. -/
theorem Heads.header?_reverse {code : List CodeChar} {name : Option String} (h : Heads code name) :
    header? code.reverse = name := by
  cases h with
  | @name front run gap hname hgap =>
    rw [List.reverse_append, List.reverse_append, header?_gap hgap, hname.header?_reverse_append,
      nameAtEnd?_name hname]
  | @call front run gap args gap' o c hname hgap ho hargs hc hgap' =>
    have hback : (front ++ run ++ gap ++ o :: args ++ c :: gap').reverse =
        gap'.reverse ++ c :: (args.reverse ++ o :: (gap.reverse ++ (run.reverse ++ front.reverse))) := by
      simp
    rw [hback, header?_gap hgap', header?_call ho hargs hc, nameAtEnd?_gap hgap, nameAtEnd?_name hname]
  | @reference front run gap mark hmark hword hgap =>
    have hback : (front ++ mark :: run ++ gap).reverse =
        gap.reverse ++ (run.reverse ++ mark :: front.reverse) := by
      simp
    rw [hback, header?_gap hgap, hword.header?_reverse_append, nameAtEnd?_reference hword hmark]
  | @sign front gap c hink hcloser hname hgap =>
    have hback : (front ++ c :: gap).reverse = gap.reverse ++ c :: front.reverse := by
      simp
    rw [hback, header?_gap hgap, header?_cons hink hcloser, nameAtEnd?_sign hink hname]
  | nothing hgap =>
    rw [← List.append_nil code.reverse, header?_gap hgap]
    rfl

namespace Buffer

/-- The code before a position in reading order; nothing if its line is missing. -/
def codeTo (b : Buffer) (p : Position) : List CodeChar :=
  if p.line < b.count then b.code.filter fun c => c.position.Before p else []

/-- The openers that this code leaves open, the last one on top. -/
def openAt (b : Buffer) (p : Position) (k : Bracket) : List Position := (b.codeTo p).foldl k.track []

theorem codeBefore_eq_reverse (b : Buffer) (p : Position) : b.codeBefore p = (b.codeTo p).reverse := by
  rw [codeTo]
  split
  · next h => exact codeBefore_eq h
  · next h => exact codeBefore_missing h

/-- The search goes outwards over the braces that are open. -/
theorem enclosingFunction?_eq (b : Buffer) (p : Position) :
    b.enclosingFunction? p = (b.openAt p .brace).findSome? fun q => header? (b.codeTo q).reverse := by
  have hstack := Bracket.brace.openers_eq_drop 0 (b.codeBefore p)
  rw [codeBefore_eq_reverse, List.reverse_reverse, List.drop_zero] at hstack
  rw [← findSome?_header, openAt, ← hstack, List.findSome?_map, codeBefore_eq_reverse]
  simp only [codeBefore_eq_reverse, Function.comp_def]

/-- Where every open brace has a header, the function around a position is the one that heads the
innermost open brace of those that open a body. -/
theorem enclosing_of_heads {b : Buffer} {p : Position} {name : Position → Option String}
    (h : ∀ q ∈ b.openAt p .brace, Heads (b.codeTo q) (name q)) :
    b.enclosingFunction? p = (b.openAt p .brace).findSome? name := by
  rw [enclosingFunction?_eq]
  apply findSome?_congr
  exact fun q hq => (h q hq).header?_reverse

/-- A body with a closed body, a list and the value of a variable in it. -/
def nestedBody : Buffer :=
  ofLines (["Do ( ')' (b) ) // \x7b", "\x7b If \x7b \x7d .A = \x7b .X /*\x7d*/ \x7b"].map String.toList)

/-- A character of a line of this text. -/
def nestedBody.at (line column : Nat) (c : Char) : CodeChar :=
  ⟨⟨Row.of line (nestedBody.lines.getD line ⟨.code, []⟩), column⟩, c⟩

theorem enclosing_of_heads_nestedBody :
    nestedBody.openAt ⟨1, 26⟩ .brace = [⟨1, 25⟩, ⟨1, 14⟩, ⟨1, 0⟩] ∧
      nestedBody.enclosingFunction? ⟨1, 26⟩ = some "Do" := by
  have hopen : nestedBody.openAt ⟨1, 26⟩ .brace = [⟨1, 25⟩, ⟨1, 14⟩, ⟨1, 0⟩] := by decide
  have hbody : Heads (nestedBody.codeTo ⟨1, 0⟩) (some "Do") := by
    have hcode : nestedBody.codeTo ⟨1, 0⟩ = [] ++ [nestedBody.at 0 0 'D', nestedBody.at 0 1 'o'] ++
        [nestedBody.at 0 2 ' '] ++ nestedBody.at 0 3 '(' :: [nestedBody.at 0 4 ' ', nestedBody.at 0 8 ' ',
          nestedBody.at 0 9 '(', nestedBody.at 0 10 'b', nestedBody.at 0 11 ')', nestedBody.at 0 12 ' '] ++
        nestedBody.at 0 13 ')' :: [nestedBody.at 0 14 ' '] := by decide
    have hname : IsFunctionName [] [nestedBody.at 0 0 'D', nestedBody.at 0 1 'o'] := by
      refine ⟨⟨by simp, by decide, by decide⟩, ?_, by simp, by simp⟩
      rintro c ⟨⟩
      exact .inl (by decide)
    rw [hcode]
    refine Heads.call hname (by decide) rfl ?_ rfl (by decide)
    refine .other (by decide) (by decide) (.other (by decide) (by decide) ?_)
    exact @Bracket.Balanced.group _ _ _ [nestedBody.at 0 10 'b'] _ rfl
      (.other (by decide) (by decide) .nil) rfl (.other (by decide) (by decide) .nil)
  have hlist : Heads (nestedBody.codeTo ⟨1, 14⟩) none := by
    have hcode : nestedBody.codeTo ⟨1, 14⟩ = (nestedBody.codeTo ⟨1, 14⟩).take 24 ++
        nestedBody.at 1 12 '=' :: [nestedBody.at 1 13 ' '] := by decide
    rw [hcode]
    exact Heads.sign (by decide) (by decide) (by decide) (by decide)
  have hvalue : Heads (nestedBody.codeTo ⟨1, 25⟩) none := by
    have hcode : nestedBody.codeTo ⟨1, 25⟩ = (nestedBody.codeTo ⟨1, 25⟩).take 28 ++
        nestedBody.at 1 16 '.' :: [nestedBody.at 1 17 'X'] ++
          [nestedBody.at 1 18 ' ', nestedBody.at 1 24 ' '] := by decide
    rw [hcode]
    exact Heads.reference (.inl rfl) ⟨by simp, by decide, by decide⟩ (by decide)
  refine ⟨hopen, ?_⟩
  rw [@enclosing_of_heads _ _ fun q => if q = ⟨1, 0⟩ then some "Do" else none, hopen]
  · rfl
  · rw [hopen]
    intro q hq
    simp only [List.mem_cons, List.not_mem_nil, or_false] at hq
    obtain rfl | rfl | rfl := hq
    · exact hvalue
    · exact hlist
    · exact hbody

end Buffer

end BffLayout
