import BffLayout.Indent

/-!
Words. A number is wrapped onto its word as often as it is computed with, but wrapping respects sums
and products, so it is as if it were done once at the end. A column that is shifted is therefore exact
as soon as the result fits, whatever the numbers on the way are.
-/
namespace BffLayout

/-- The first number that counts as negative. -/
def signBound : Nat := Nat.pow 2 63

theorem signBound_eq : signBound = 9223372036854775808 := rfl

theorem signed_add_left (bits : Nat) (x y : Int) : signed bits (signed bits x + y) = signed bits (x + y) := by
  simp only [signed, BitVec.ofInt_add, BitVec.ofInt_toInt]

theorem signed_add_right (bits : Nat) (x y : Int) : signed bits (x + signed bits y) = signed bits (x + y) := by
  simp only [signed, BitVec.ofInt_add, BitVec.ofInt_toInt]

theorem signed_mul_right (bits : Nat) (x y : Int) : signed bits (x * signed bits y) = signed bits (x * y) := by
  simp only [signed, BitVec.ofInt_mul, BitVec.ofInt_toInt]

theorem signed_eq_bmod (x : Int) : signed 64 x = x.bmod UInt64.size := BitVec.toInt_ofInt x

/-- A number is its own word if it is in range, and only then. -/
theorem signed_eq_self_iff {x : Int} : signed 64 x = x ↔ -(signBound : Int) ≤ x ∧ x < signBound := by
  have hsize : UInt64.size = 18446744073709551616 := rfl
  rw [signed_eq_bmod, Int.bmod_eq_iff (by decide), Int.sub_self, signBound_eq, hsize]
  omega

theorem signed_lt (x : Int) : signed 64 x < signBound := by
  have htwice : signed 64 (signed 64 x) = signed 64 x := by simpa using signed_add_left 64 x 0
  exact (signed_eq_self_iff.mp htwice).2

/-- A shift is exact but for one wrapping. -/
theorem shifted_eq (base : Nat) (levels : Int) (unit : Nat) :
    shifted base levels unit = (signed 64 (base + levels * unit)).toNat := by
  change (signed 64 (signed 64 base + signed 64 (levels * signed 64 unit))).toNat = _
  rw [signed_add_left, signed_add_right, ← signed_add_right, signed_mul_right, signed_add_right]

theorem shifted_lt (base : Nat) (levels : Int) (unit : Nat) : shifted base levels unit < signBound := by
  have hlt := signed_lt (base + levels * unit)
  have hpos : 0 < signBound := by decide
  rw [shifted_eq]
  omega

theorem signBound_lt_size : signBound < UInt64.size := by decide

theorem size_pos : 0 < UInt64.size := by decide

theorem shifted_of_fits {base : Nat} {levels : Int} {unit : Nat} (h : -(signBound : Int) ≤ base + levels * unit)
    (h' : base + levels * unit < signBound) : shifted base levels unit = (base + levels * unit).toNat := by
  rw [shifted_eq, signed_eq_self_iff.mpr ⟨h, h'⟩]

theorem shifted_zero {n : Nat} (h : n < signBound) (unit : Nat) : shifted n 0 unit = n := by
  rw [shifted_of_fits] <;> omega

theorem shifted_one {n unit : Nat} (h : n + unit < signBound) : shifted n 1 unit = n + unit := by
  rw [shifted_of_fits] <;> omega

theorem shifted_one_sub {n unit : Nat} (h : n + unit < signBound) : shifted n 1 unit - unit = n := by
  rw [shifted_one h, Nat.add_sub_cancel]

theorem advance_eq (tab w : Nat) (c : Char) : advance tab w c = nextColumn tab w c % UInt64.size := rfl

theorem width_lt (tab : Nat) (cs : List Char) : width tab cs < UInt64.size := by
  rw [width_eq]
  obtain rfl | ⟨before, c, rfl⟩ := cs.eq_nil_or_concat
  · exact size_pos
  · rw [List.concat_eq_append, List.foldl_append]
    exact Nat.mod_lt _ size_pos

/-- A sum that is wrapped at every character. -/
theorem signed_foldl_depthStep (cs : List Char) (depth more : Int) :
    signed 32 (cs.foldl (fun depth c => signed 32 (depth + depthStep c)) depth + more) =
      signed 32 (depth + depthSum cs + more) := by
  induction cs generalizing depth with
  | nil => simp
  | cons c rest ih =>
    rw [List.foldl_cons, ih, depthSum_cons, Int.add_assoc, signed_add_left]
    congr 1
    omega

theorem Line.depthChange_foldl (l : Line) :
    l.depthChange = signed 32 ((l.codeChars.map Prod.snd).foldl
      (fun depth c => signed 32 (depth + depthStep c)) 0 + if l.opensBranch then 1 else 0) :=
  congrArg (fun depth => signed 32 (depth + if l.opensBranch then 1 else 0)) List.idRun_foldlM

theorem Line.depthChange_eq (l : Line) :
    l.depthChange = signed 32 (depthSum (l.codeChars.map Prod.snd) + if l.opensBranch then 1 else 0) := by
  rw [depthChange_foldl, signed_foldl_depthStep, Int.zero_add]

theorem Line.indentation_lt (l : Line) (tab : Nat) : l.indentation tab < UInt64.size := width_lt ..

theorem visualColumn_lt (tab : Nat) (cs : List Char) (column : Nat) :
    visualColumn tab cs column < UInt64.size := width_lt ..

theorem getD_lt_size {x : Option Nat} (h : ∀ n ∈ x, n < UInt64.size) : x.getD 0 < UInt64.size := by
  cases x with
  | none => exact size_pos
  | some n => exact h n rfl

namespace Focus

theorem column_follow_lt (cfg : Config) (f : Focus) : (f.follow cfg).column cfg < UInt64.size := by
  have hshifted : ∀ base levels, shifted base levels cfg.unit < UInt64.size :=
    fun base levels => Nat.lt_trans (shifted_lt base levels cfg.unit) signBound_lt_size
  rw [follow_eq]
  split
  · rw [Follow.column_afterChain]
    exact hshifted _ _
  · split
    · rw [Follow.column_afterLeadingCloser]
      apply getD_lt_size
      intro n hn
      obtain ⟨opener, -, rfl⟩ := Option.map_eq_some_iff.mp hn
      exact Line.indentation_lt ..
    · split
      · rw [Follow.column_afterTrailingCloser]
        exact Line.indentation_lt ..
      · split
        · next hcolumn =>
          rw [Line.openColumn?_eq] at hcolumn
          obtain ⟨content, -, rfl⟩ := Option.map_eq_some_iff.mp hcolumn
          exact visualColumn_lt ..
        · rw [Follow.column_nested]
          exact hshifted _ _

/-- Every indent is a word. -/
theorem indent_lt (cfg : Config) (f : Focus) : f.indent cfg < UInt64.size := by
  rw [indent_eq_column, shape_eq]
  cases f.previous? with
  | none => exact size_pos
  | some previous =>
    have hfollow := column_follow_lt cfg previous
    dsimp only
    split
    · rw [Shape.column_continuation, Line.anchor?_eq]
      cases previous.row.anchorColumn? with
      | none => exact Line.indentation_lt ..
      | some column => exact visualColumn_lt ..
    · split
      · rw [Shape.column_closer]
        apply getD_lt_size
        intro n hn
        obtain ⟨opener, -, rfl⟩ := Option.map_eq_some_iff.mp hn
        rw [Spot.closerColumn_ite]
        split
        · exact visualColumn_lt ..
        · exact Line.indentation_lt ..
      · split
        · exact Nat.lt_of_le_of_lt (Nat.sub_le _ _) hfollow
        · exact hfollow

end Focus

end BffLayout
