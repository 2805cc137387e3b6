import BffLayout.Proofs.Cursor

/-!
Cut lines. The scanner looks one character ahead, and only at a slash in code does it matter what it
sees. So a line that is cut is read like the whole line, except that a slash right before the cut is
code if it is the first half of a comment sign. Escapes and the ends of comments need no look ahead, and
what is open at the cut is the kind of the character behind it.
-/
namespace BffLayout

namespace Mode

/-- The mode in which the character with index `i` is read. -/
def reading : Mode → List Char → Nat → Mode
  | m, [], _ => m
  | m, _ :: _, 0 => m
  | m, c :: rest, i + 1 => (m.step c rest.head?).2.reading rest i

@[simp] theorem reading_zero (m : Mode) (cs : List Char) : m.reading cs 0 = m := by cases cs <;> rfl

@[simp] theorem reading_cons_succ (m : Mode) (c : Char) (rest : List Char) (i : Nat) :
    m.reading (c :: rest) (i + 1) = (m.step c rest.head?).2.reading rest i := rfl

/-- A character has the kind that its mode and the next character give it. -/
theorem getElem?_tag (m : Mode) (cs : List Char) (i : Nat) :
    (m.tag cs)[i]? = cs[i]?.map fun c => ⟨c, ((m.reading cs i).step c cs[i + 1]?).1⟩ := by
  induction cs generalizing m i with
  | nil => rfl
  | cons c rest ih =>
    cases i with
    | zero => rw [tag_cons, reading_zero, List.head?_eq_getElem?]; rfl
    | succ i => exact ih _ i

theorem reading_succ (m : Mode) {cs : List Char} {i : Nat} {c : Char} (h : cs[i]? = some c) :
    m.reading cs (i + 1) = ((m.reading cs i).step c cs[i + 1]?).2 := by
  induction cs generalizing m i with
  | nil => cases h
  | cons d rest ih =>
    cases i with
    | zero =>
      cases h
      rw [reading_cons_succ, reading_zero, reading_zero, List.head?_eq_getElem?]
      rfl
    | succ i => exact ih _ h

/-- At the end of a text the mode is the one in which the next character would be read. -/
theorem run_eq_reading (m : Mode) (cs : List Char) : m.run cs = m.reading cs cs.length := by
  induction cs generalizing m with
  | nil => rfl
  | cons c rest ih => exact ih _

/-- Up to the last character before a cut, the modes are those of the whole text. -/
theorem reading_take (m : Mode) (cs : List Char) {i n : Nat} (h : i < n) :
    m.reading (cs.take n) i = m.reading cs i := by
  induction cs generalizing m i n with
  | nil => rw [List.take_nil]
  | cons c rest ih =>
    cases i with
    | zero => rw [reading_zero, reading_zero]
    | succ i =>
      cases n with
      | zero => cases h
      | succ n =>
        have hi : i < n := Nat.lt_of_succ_lt_succ h
        have hhead : (rest.take n).head? = rest.head? := by
          rw [List.head?_take, if_neg (by omega)]
        rw [List.take_succ_cons, reading_cons_succ, reading_cons_succ, hhead, ih _ hi]

/-- The next character matters in one place only. -/
theorem step_eq_or (m : Mode) (c : Char) (next : Option Char) :
    m.step c next = m.step c none ∨ m = code ∧ c = '/' ∧ (next = some '/' ∨ next = some '*') := by
  by_cases hc : c = '/'
  · subst hc
    cases m with
    | code =>
      by_cases hslash : next = some '/'
      · exact .inr ⟨rfl, rfl, .inl hslash⟩
      · by_cases hstar : next = some '*'
        · exact .inr ⟨rfl, rfl, .inr hstar⟩
        · left
          simp [step, hslash, hstar]
    | string | escape | lineComment | opening | block | star => exact .inl rfl
  · exact .inl (step_of_ne_slash hc m next none)

/-- In the middle of a string or a comment, the next character belongs to it. -/
theorem fst_step_of_open {m : Mode} (h : m.kind ≠ .code) (c : Char) (next : Option Char) :
    (m.step c next).1 = m.kind := by
  cases m with
  | code => exact absurd rfl h
  | string | escape | lineComment | opening | block | star => rfl

end Mode

namespace Line

def modeAt (l : Line) (column : Nat) : Mode := l.start.mode.reading l.chars column

def kind? (l : Line) (column : Nat) : Option Kind := l.cells[column]?.map Cell.kind

/-- In `column` stands the slash of a sign, in code, with which a comment of kind `k` opens. -/
structure OpensComment (l : Line) (column : Nat) (k : Kind) : Prop where
  inCode : l.modeAt column = .code
  slash : l.chars[column]? = some '/'
  sign : k = .lineComment ∧ l.chars[column + 1]? = some '/' ∨
    k = .blockComment ∧ l.chars[column + 1]? = some '*'
  first : l.kind? column = some k
  second : l.kind? (column + 1) = some k

variable (l : Line)

theorem kind?_eq (column : Nat) : l.kind? column =
    l.chars[column]?.map fun c => ((l.modeAt column).step c l.chars[column + 1]?).1 := by
  rw [kind?, cells, Mode.getElem?_tag, Option.map_map]
  rfl

theorem modeAt_upTo {column n : Nat} (h : column < n) : (l.upTo n).modeAt column = l.modeAt column :=
  Mode.reading_take _ _ h

/-- What the scanner sees ahead of this column lies before the cut too. -/
theorem kind?_upTo {column n : Nat} (h : column + 1 < n) : (l.upTo n).kind? column = l.kind? column := by
  have hcolumn := Nat.lt_of_succ_lt h
  rw [kind?_eq, kind?_eq, modeAt_upTo l hcolumn, upTo, List.getElem?_take_of_lt hcolumn,
    List.getElem?_take_of_lt h]

/-- At the last column before the cut the scanner sees nothing ahead. -/
theorem kind?_upTo_last (column : Nat) : (l.upTo (column + 1)).kind? column =
    l.chars[column]?.map fun c => ((l.modeAt column).step c none).1 := by
  have hcut : (l.upTo (column + 1)).chars[column + 1]? = none :=
    List.getElem?_take_eq_none (Nat.le_refl _)
  rw [kind?_eq, modeAt_upTo l (Nat.lt_succ_self _), hcut, upTo,
    List.getElem?_take_of_lt (Nat.lt_succ_self _)]

variable {l}

theorem modeAt_succ {column : Nat} {c : Char} (h : l.chars[column]? = some c) :
    l.modeAt (column + 1) = ((l.modeAt column).step c l.chars[column + 1]?).2 :=
  Mode.reading_succ _ h

theorem finish_upTo {column : Nat} {c : Char} (h : l.chars[column]? = some c) :
    (l.upTo (column + 1)).finish = ((l.modeAt column).step c none).2 := by
  have hlength : (l.chars.take (column + 1)).length = column + 1 :=
    List.length_take_of_le (List.getElem?_eq_some_iff.mp h).1
  have hlast : (l.chars.take (column + 1))[column]? = some c := by
    rw [List.getElem?_take_of_lt (Nat.lt_succ_self _), h]
  rw [finish, upTo, Mode.run_eq_reading, hlength, Mode.reading_succ _ hlast,
    Mode.reading_take _ _ (Nat.lt_succ_self _), List.getElem?_take_eq_none (Nat.le_refl _)]
  rfl

/-- The two halves of a comment sign are of the kind of their comment. -/
theorem exists_opensComment {column : Nat} (hmode : l.modeAt column = .code)
    (hslash : l.chars[column]? = some '/')
    (hnext : l.chars[column + 1]? = some '/' ∨ l.chars[column + 1]? = some '*') :
    ∃ k, l.OpensComment column k := by
  have hfirst := l.kind?_eq column
  have hsecond := l.kind?_eq (column + 1)
  rw [hslash, hmode] at hfirst
  rw [modeAt_succ hslash, hmode] at hsecond
  obtain hnext | hnext := hnext
  · rw [hnext] at hfirst hsecond
    exact ⟨.lineComment, hmode, hslash, .inl ⟨rfl, hnext⟩, hfirst, hsecond⟩
  · rw [hnext] at hfirst hsecond
    exact ⟨.blockComment, hmode, hslash, .inr ⟨rfl, hnext⟩, hfirst, hsecond⟩

/-- A string or a comment that is open at the cut is open there in the whole line. -/
theorem modeAt_of_open {column : Nat} (h : (l.upTo column).openAtEnd ≠ .code)
    (hcolumn : column ≤ l.length) : l.modeAt column = (l.upTo column).finish := by
  cases column with
  | zero => exact Mode.reading_zero _ _
  | succ column =>
    obtain ⟨c, hc⟩ : ∃ c, l.chars[column]? = some c := ⟨_, List.getElem?_eq_getElem hcolumn⟩
    have hfinish := finish_upTo hc
    obtain hsame | ⟨hmode, rfl, -⟩ := (l.modeAt column).step_eq_or c l.chars[column + 1]?
    · rw [modeAt_succ hc, hsame, hfinish]
    · rw [openAtEnd, hfinish, hmode] at h
      exact absurd rfl h

/-- The character right before the cut keeps its kind, or it is the first half of a comment sign. -/
theorem kind?_upTo_last_or (l : Line) (column : Nat) :
    (l.upTo (column + 1)).kind? column = l.kind? column ∨
      column + 1 < l.length ∧ (l.upTo (column + 1)).kind? column = some .code ∧
        ∃ k, l.OpensComment column k := by
  rw [kind?_upTo_last, kind?_eq]
  cases hc : l.chars[column]? with
  | none => exact .inl rfl
  | some c =>
    rw [Option.map_some, Option.map_some]
    obtain hsame | ⟨hmode, rfl, hnext⟩ := (l.modeAt column).step_eq_or c l.chars[column + 1]?
    · exact .inl (by rw [hsame])
    · have hopens := exists_opensComment hmode hc hnext
      have hlength : column + 1 < l.length := by
        obtain hnext | hnext := hnext
        · exact (List.getElem?_eq_some_iff.mp hnext).1
        · exact (List.getElem?_eq_some_iff.mp hnext).1
      rw [hmode]
      exact .inr ⟨hlength, rfl, hopens⟩

/-- A line that is cut is read like the whole line up to the cut. The one exception is a slash right
before it, which is code where in the whole line it opens a comment. If a string or a comment is open at
the cut, the character behind it belongs to it. -/
theorem kinds_of_cut (l : Line) (n : Nat) :
    (∀ j < n, (l.upTo n).kind? j = l.kind? j ∨
      j + 1 = n ∧ n < l.length ∧ (l.upTo n).kind? j = some .code ∧ ∃ k, l.OpensComment j k) ∧
    (n < l.length → (l.upTo n).openAtEnd ≠ .code → l.kind? n = some (l.upTo n).openAtEnd) := by
  refine ⟨?_, ?_⟩
  · intro j hj
    obtain hlt | rfl := Nat.lt_or_eq_of_le (Nat.succ_le_of_lt hj)
    · exact .inl (l.kind?_upTo hlt)
    · exact (l.kind?_upTo_last_or j).imp_right fun h => ⟨rfl, h⟩
  · intro hn hopen
    obtain ⟨c, hc⟩ : ∃ c, l.chars[n]? = some c := ⟨_, List.getElem?_eq_getElem hn⟩
    rw [kind?_eq, hc, modeAt_of_open hopen (Nat.le_of_lt hn)]
    exact congrArg some (Mode.fst_step_of_open hopen _ _)

/-- A string with an escaped slash, and behind it a comment sign. -/
def signBehindString : Line := ⟨.code, "'^/*'//*".toList⟩

theorem kinds_of_cut_signBehindString :
    signBehindString.kind? 2 = some .string ∧
    (signBehindString.upTo 6).kind? 5 = some .code ∧ signBehindString.kind? 5 = some .lineComment ∧
    signBehindString.OpensComment 5 .lineComment := by
  have hstring := (signBehindString.kinds_of_cut 2).2 (by decide) (by decide)
  obtain hsame | ⟨-, -, hcode, k, hopens⟩ := (signBehindString.kinds_of_cut 6).1 5 (by decide)
  · exact absurd hsame (by decide)
  · have hkind : signBehindString.kind? 5 = some .lineComment := by decide
    obtain rfl : k = .lineComment := Option.some.inj (hopens.first.symm.trans hkind)
    exact ⟨hstring, hcode, hkind, hopens⟩

end Line

end BffLayout
