import BffLayout.Proofs.Words
import BffLayout.Reindent

/-!
Limits of a machine. The numbers that a computation has to hold are named here as they would be without
a bound. A machine that looks at its numbers comes to the plain result if all of them fit, and otherwise
stops with an overflow; one that does not look always comes to the plain result. What it places has to
find room in either case.
-/
namespace BffLayout

/-- A run that ends at the limit, if there is one, and else with the result. -/
def ending {α : Type} (limit : Option Limit) (result : α) : Run α :=
  match limit with
  | some l => .error (.limit l)
  | none => .ok result

theorem ending_bind {α β : Type} {limit later : Option Limit} {a : α} {b : β} {f : α → Run β}
    (h : f a = ending later b) : (ending limit a >>= f) = ending (limit.or later) b := by
  cases limit with
  | none => exact h
  | some l => rfl

theorem ending_map {α β : Type} {limit : Option Limit} {a : α} {b : β} {f : α → Run β}
    (h : f a = pure b) : (ending limit a >>= f) = ending limit b := by
  cases limit with
  | none => exact h
  | some l => rfl

/-- What stops a machine that looks at a number which does not fit. -/
def Machine.overflow? (machine : Machine) (fits : Bool) : Option Limit :=
  if machine.checked && !fits then some .overflow else none

/-- What stops a machine that has no room for a text. -/
def Machine.tooLong? (machine : Machine) (bytes : Nat) : Option Limit :=
  if machine.room < bytes then some .tooLong else none

def fitsWord (n : Nat) : Bool := n < UInt64.size

def fitsSigned (bits : Nat) (x : Int) : Bool :=
  -(Nat.pow 2 (bits - 1) : Int) ≤ x ∧ x < Nat.pow 2 (bits - 1)

theorem fitsSigned_eq {bits : Nat} (h : 0 < bits) (x : Int) : fitsSigned bits x = (signed bits x == x) := by
  have hpow : (Nat.pow 2 (bits - 1) : Int) = 2 ^ (bits - 1) := Int.natCast_pow 2 (bits - 1)
  rw [fitsSigned, hpow, Bool.eq_iff_iff, decide_eq_true_iff, beq_iff_eq]
  constructor
  · rintro ⟨hle, hlt⟩
    exact BitVec.toInt_ofInt_eq_self h hle hlt
  · intro hx
    rw [← hx]
    exact ⟨BitVec.le_toInt _, BitVec.toInt_lt⟩

theorem fitsSigned_of_natAbs_lt {bits : Nat} {x : Int} (h : x.natAbs < Nat.pow 2 (bits - 1)) :
    fitsSigned bits x = true := by
  rw [fitsSigned, decide_eq_true_iff]
  omega

namespace Machine

variable (machine : Machine)

theorem overflow?_or (a b : Bool) :
    (machine.overflow? a).or (machine.overflow? b) = machine.overflow? (a && b) := by
  unfold overflow?
  cases machine.checked <;> cases a <;> cases b <;> rfl

theorem overflow?_true : machine.overflow? true = none := by
  unfold overflow?
  cases machine.checked <;> rfl

theorem pure_eq {α : Type} (a : α) : (pure a : Run α) = ending (machine.overflow? true) a := by
  rw [overflow?_true]
  rfl

theorem keep_eq {α : Type} [DecidableEq α] (x wrapped : α) :
    machine.keep x wrapped = ending (machine.overflow? (wrapped == x)) wrapped := by
  by_cases h : wrapped = x <;> cases hc : machine.checked <;> simp [keep, overflow?, ending, h, hc]

theorem word_eq (n : Nat) :
    machine.platform.word n = ending (machine.overflow? (fitsWord n)) (n % UInt64.size) := by
  have hfits : fitsWord n = (n % UInt64.size == n) := by
    rw [fitsWord, Bool.eq_iff_iff, decide_eq_true_iff, beq_iff_eq, Nat.mod_eq_iff_lt (Nat.ne_of_gt size_pos)]
  rw [hfits]
  exact machine.keep_eq _ _

theorem signed_eq {bits : Nat} (h : 0 < bits) (x : Int) :
    machine.platform.signed bits x = ending (machine.overflow? (fitsSigned bits x)) (signed bits x) := by
  rw [fitsSigned_eq h]
  exact machine.keep_eq _ _

theorem room_eq (n : Nat) : machine.platform.room n = ending (machine.tooLong? n) () := by
  by_cases h : n ≤ machine.room
  · simp [platform, tooLong?, ending, h, Nat.not_lt.mpr h]
  · simp [platform, tooLong?, ending, h, Nat.not_le.mp h]

variable {machine}

/-- One computation after another. -/
theorem overflow_bind {α β : Type} {p q : Bool} {a : α} {b : β} {f : α → Run β}
    (h : f a = ending (machine.overflow? q) b) :
    (ending (machine.overflow? p) a >>= f) = ending (machine.overflow? (p && q)) b := by
  rw [ending_bind h, overflow?_or]

/-- The numbers of the second one matter only if those of the first fit. -/
theorem overflow_bind_of_fits {α β : Type} {p q r : Bool} {a : α} {b : β} {f : α → Run β}
    (h : f a = ending (machine.overflow? q) b) (hq : p = true → q = r) :
    (ending (machine.overflow? p) a >>= f) = ending (machine.overflow? (p && r)) b := by
  rw [overflow_bind h]
  cases p with
  | false => rfl
  | true => rw [hq rfl]

theorem mapM_eq {α β : Type} {f : α → Run β} {fits : α → Bool} {g : α → β}
    (h : ∀ a, f a = ending (machine.overflow? (fits a)) (g a)) (x : Option α) :
    x.mapM f = ending (machine.overflow? (x.all fits)) (x.map g) := by
  cases x with
  | none => exact machine.pure_eq none
  | some a =>
    have hmap : (some a).mapM f = f a >>= fun b => pure (some b) := rfl
    rw [hmap, h]
    exact ending_map rfl

end Machine

theorem le_foldl_nextColumn {tab : Nat} (h : 0 < tab) (cs : List Char) (w : Nat) :
    w ≤ cs.foldl (nextColumn tab) w := by
  induction cs generalizing w with
  | nil => exact Nat.le_refl w
  | cons c rest ih =>
    refine Nat.le_trans ?_ (ih (nextColumn tab w c))
    unfold nextColumn
    split
    · rw [Nat.mul_comm]
      exact Nat.le_of_lt (Nat.lt_mul_div_succ w h)
    · exact Nat.le_succ w

/-- The columns taken by a text that starts a line, if columns have no bound. -/
def exactWidth (tab : Nat) (cs : List Char) : Nat := cs.foldl (nextColumn (max tab 1)) 0

/-- Whether a text that starts a line ends in a column that is a word. -/
def columnFits (tab : Nat) (cs : List Char) : Bool := fitsWord (exactWidth tab cs)

section Columns

variable (machine : Machine)

theorem foldlM_advanceM {tab : Nat} (htab : 0 < tab) (cs : List Char) {w : Nat} (hw : w < UInt64.size) :
    cs.foldlM (advanceM machine.platform tab) w =
      ending (machine.overflow? (fitsWord (cs.foldl (nextColumn tab) w))) (cs.foldl (advance tab) w) := by
  induction cs generalizing w with
  | nil =>
    rw [List.foldlM_nil, List.foldl_nil, List.foldl_nil, fitsWord, decide_eq_true hw]
    exact machine.pure_eq w
  | cons c rest ih =>
    have hrest := ih (Nat.mod_lt (nextColumn tab w c) size_pos)
    have hle := le_foldl_nextColumn htab rest (nextColumn tab w c)
    have hfits : fitsWord (rest.foldl (nextColumn tab) (nextColumn tab w c)) =
        (fitsWord (nextColumn tab w c) && fitsWord (rest.foldl (nextColumn tab) (nextColumn tab w c))) := by
      rw [Bool.eq_and_self]
      simp only [fitsWord, decide_eq_true_iff]
      omega
    rw [List.foldlM_cons, List.foldl_cons, List.foldl_cons, advanceM, Machine.word_eq, hfits]
    refine Machine.overflow_bind_of_fits hrest ?_
    intro hn
    rw [Nat.mod_eq_of_lt (of_decide_eq_true hn)]

theorem widthM_eq (tab : Nat) (cs : List Char) :
    widthM machine.platform tab cs = ending (machine.overflow? (columnFits tab cs)) (width tab cs) := by
  rw [widthM, foldlM_advanceM machine (by omega) cs size_pos, width_eq]
  rfl

theorem visualColumnM_eq (tab : Nat) (cs : List Char) (column : Nat) :
    visualColumnM machine.platform tab cs column =
      ending (machine.overflow? (columnFits tab (cs.take column))) (visualColumn tab cs column) :=
  widthM_eq machine tab _

end Columns

/-- Whether a depth is a word after each of the characters. -/
def depthsFit : (depth : Int) → List Char → Bool
  | _, [] => true
  | depth, c :: rest => fitsSigned 32 (depth + depthStep c) && depthsFit (depth + depthStep c) rest

namespace Line

/-- Whether the indentation is a word. -/
def indentationFits (l : Line) (tab : Nat) : Bool := columnFits tab (takeWhite l.chars)

/-- Whether the depth is a word at every character, and with the branch that the line opens. -/
def depthFits (l : Line) : Bool :=
  depthsFit 0 (l.codeChars.map Prod.snd) &&
    fitsSigned 32 (depthSum (l.codeChars.map Prod.snd) + if l.opensBranch then 1 else 0)

end Line

/-- Whether both the move and the column that it leads to are words. -/
def shiftFits (base : Nat) (levels : Int) (unit : Nat) : Bool :=
  fitsSigned 64 (levels * signed 64 unit) && fitsSigned 64 (signed 64 base + levels * signed 64 unit)

theorem signed_of_fits {bits : Nat} (h : 0 < bits) {x : Int} (hx : fitsSigned bits x = true) :
    signed bits x = x := by
  rw [fitsSigned_eq h] at hx
  exact eq_of_beq hx

theorem foldl_depthStep_of_fits {cs : List Char} {depth : Int} (h : depthsFit depth cs = true) :
    cs.foldl (fun depth c => signed 32 (depth + depthStep c)) depth = depth + depthSum cs := by
  induction cs generalizing depth with
  | nil => exact (Int.add_zero depth).symm
  | cons c rest ih =>
    obtain ⟨hc, hrest⟩ := Bool.and_eq_true_iff.mp h
    rw [List.foldl_cons, signed_of_fits (by decide) hc, ih hrest, depthSum_cons, Int.add_assoc]

section OnMachine

variable (machine : Machine)

theorem foldlM_depthStep (cs : List Char) (depth : Int) :
    cs.foldlM (fun depth c => machine.platform.signed 32 (depth + depthStep c)) depth =
      ending (machine.overflow? (depthsFit depth cs))
        (cs.foldl (fun depth c => signed 32 (depth + depthStep c)) depth) := by
  induction cs generalizing depth with
  | nil => exact machine.pure_eq depth
  | cons c rest ih =>
    rw [List.foldlM_cons, List.foldl_cons, machine.signed_eq (by decide), depthsFit]
    refine Machine.overflow_bind_of_fits (ih _) ?_
    intro hc
    rw [signed_of_fits (by decide) hc]

theorem Line.indentationM_eq (l : Line) (tab : Nat) : l.indentationM machine.platform tab =
    ending (machine.overflow? (l.indentationFits tab)) (l.indentation tab) := widthM_eq machine tab _

theorem Line.depthChangeM_eq (l : Line) : l.depthChangeM machine.platform =
    ending (machine.overflow? l.depthFits) l.depthChange := by
  rw [depthChangeM, foldlM_depthStep, depthFits, depthChange_foldl]
  refine Machine.overflow_bind_of_fits (machine.signed_eq (by decide : 0 < 32) _) ?_
  intro h
  rw [foldl_depthStep_of_fits h, Int.zero_add]

theorem shiftedM_eq (base : Nat) (levels : Int) (unit : Nat) : shiftedM machine.platform base levels unit =
    ending (machine.overflow? (shiftFits base levels unit)) (shifted base levels unit) := by
  have hsum : ∀ move : Int, (do
      let moved ← machine.platform.signed 64 (signed 64 base + move)
      pure moved.toNat) = ending (machine.overflow? (fitsSigned 64 (signed 64 base + move)))
        (signed 64 (signed 64 base + move)).toNat := by
    intro move
    rw [machine.signed_eq (by decide)]
    exact ending_map rfl
  rw [shiftedM, machine.signed_eq (by decide), shiftFits]
  refine Machine.overflow_bind_of_fits (hsum _) ?_
  intro h
  rw [signed_of_fits (by decide) h]

end OnMachine

/-- A line that is placed needs room for its spaces and its content, unless it is blank. -/
theorem Line.setIndentationM_eq (machine : Machine) (l : Line) (n : Nat) :
    l.setIndentationM machine.platform n =
      ending (if l.isBlank then none else machine.tooLong? (n + bytes (dropWhite l.chars)))
        (l.setIndentation n) := by
  have hblank : l.isBlank = (dropWhite l.chars).isEmpty := by
    rw [isBlank, Bool.eq_iff_iff, List.isEmpty_iff, dropWhite_eq_nil_iff]
  rw [setIndentationM, withIndentM, setIndentation, withIndent_eq, hblank]
  cases dropWhite l.chars with
  | nil => rfl
  | cons c rest =>
    dsimp only
    rw [Machine.room_eq, bind_assoc]
    exact ending_map rfl

/-- Whether the numbers on the way to the column of a line nested below are words. -/
def Line.nestedFits (cfg : Config) (l : Line) : Bool :=
  l.indentationFits cfg.tab && (l.depthFits && shiftFits (l.indentation cfg.tab) l.depthChange cfg.unit)

theorem Line.nestedM_eq (machine : Machine) (cfg : Config) (l : Line) : (do
      let base ← l.indentationM machine.platform cfg.tab
      let depth ← l.depthChangeM machine.platform
      shiftedM machine.platform base depth cfg.unit) =
    ending (machine.overflow? (l.nestedFits cfg))
      (shifted (l.indentation cfg.tab) l.depthChange cfg.unit) := by
  rw [indentationM_eq, depthChangeM_eq]
  exact Machine.overflow_bind (Machine.overflow_bind (shiftedM_eq ..))

/-- Whether the column of a closer that answers this opener is a word. -/
def Spot.closerFits (s : Spot) (tab : Nat) : Bool :=
  if (s.row.contentAfter? s.column).isSome then columnFits tab (s.row.chars.take s.column)
  else s.row.indentationFits tab

theorem Spot.closerColumnM_eq (machine : Machine) (s : Spot) (tab : Nat) :
    s.closerColumnM machine.platform tab =
      ending (machine.overflow? (s.closerFits tab)) (s.closerColumn tab) := by
  rw [closerColumnM, closerFits, closerColumn_ite]
  split
  · exact widthM_eq machine tab _
  · exact Line.indentationM_eq machine _ tab

namespace Focus

/-- Whether the numbers on the way to the column of an ordinary line below are words. -/
def nextFits (cfg : Config) (f : Focus) : Bool :=
  if f.row.isContinuation then (statement? (f.row :: f.above)).all fun r => r.nestedFits cfg
  else if f.row.leadsWithCloser then f.leadingOpener?.all fun s => s.row.indentationFits cfg.tab
  else match f.trailingOpener? with
    | some opener => opener.row.indentationFits cfg.tab
    | none =>
      match f.row.openContent? with
      | some column => columnFits cfg.tab (f.row.chars.take column)
      | none => f.row.nestedFits cfg

/-- Whether the numbers on the way to the indent are words. -/
def indentFits (cfg : Config) (f : Focus) : Bool :=
  match f.previous? with
  | none => true
  | some previous =>
    if f.row.isContinuation then
      match previous.row.anchorColumn? with
      | some column => columnFits cfg.tab (previous.row.chars.take column)
      | none => previous.row.indentationFits cfg.tab
    else if f.row.leadsWithCloser then f.leadingOpener?.all fun s => s.closerFits cfg.tab
    else previous.nextFits cfg

section OnMachine

variable (machine : Machine) {matching : Focus → Nat → Run (Option Spot)} {f : Focus}

section Matching

variable (h : ∀ column, matching f column = .ok (f.matchingOpener? column))

include h

theorem leadingOpenerM_eq : f.leadingOpenerM ⟨machine.platform, matching⟩ = pure f.leadingOpener? := by
  rw [leadingOpenerM, leadingOpener?_bind]
  cases f.row.leading? with
  | none => rfl
  | some x =>
    dsimp only [Option.bind_some]
    split
    · exact h x.1
    · rfl

theorem trailingOpenerM_eq : f.trailingOpenerM ⟨machine.platform, matching⟩ = pure f.trailingOpener? := by
  rw [trailingOpenerM, trailingOpener?_bind]
  cases f.row.trailing? with
  | none => rfl
  | some x =>
    dsimp only [Option.bind_some]
    split
    · rw [h]
      rfl
    · rfl

/-- The column of an ordinary line below the row in focus. -/
theorem nextM_eq (cfg : Config) : (do
      let follow ← f.followM ⟨machine.platform, matching⟩ cfg
      follow.columnM machine.platform cfg) =
    ending (machine.overflow? (f.nextFits cfg)) ((f.follow cfg).column cfg) := by
  rw [followM, follow_eq, nextFits, leadingOpenerM_eq machine h, trailingOpenerM_eq machine h]
  split
  · rw [Follow.column_afterChain, chainStart]
    cases statement? (f.row :: f.above) with
    | none =>
      have hfits : shiftFits 0 0 cfg.unit = true := by
        simp only [shiftFits, Int.zero_mul]
        rfl
      have hshifted := shiftedM_eq machine 0 0 cfg.unit
      rw [hfits] at hshifted
      exact hshifted
    | some r =>
      simp only [ChainStart.ofRowM, bind_assoc, pure_bind]
      exact Line.nestedM_eq machine cfg r.toLine
  · split
    · rw [Follow.column_afterLeadingCloser]
      cases f.leadingOpener? with
      | none => exact machine.pure_eq 0
      | some opener => exact Line.indentationM_eq machine _ _
    · cases f.trailingOpener? with
      | some opener => exact Line.indentationM_eq machine _ _
      | none =>
        rw [Line.openColumn?_eq]
        simp only [Line.openColumnM]
        cases f.row.openContent? with
        | none => exact Line.nestedM_eq machine cfg f.row.toLine
        | some column =>
          rw [Machine.mapM_eq (visualColumnM_eq machine cfg.tab f.row.chars)]
          simp only [pure_bind, bind_assoc]
          exact ending_map rfl

end Matching

/-- The indent of a line on a machine, for any way of matching brackets that finds what is to be found. -/
theorem indentM_eq (hf : ∀ column, matching f column = .ok (f.matchingOpener? column))
    (hprevious : ∀ g, f.previous? = some g → ∀ column, matching g column = .ok (g.matchingOpener? column))
    (cfg : Config) : f.indentM ⟨machine.platform, matching⟩ cfg =
      ending (machine.overflow? (f.indentFits cfg)) (f.indent cfg) := by
  rw [indentM, shapeM, indentFits, indent_eq_column, shape_eq]
  cases hg : f.previous? with
  | none => exact machine.pure_eq 0
  | some g =>
    have hnext := nextM_eq machine (hprevious g hg) cfg
    dsimp only
    split
    · rw [Shape.column_continuation, Line.anchor?_eq]
      simp only [Shape.columnM, Line.anchorM, pure_bind]
      cases g.row.anchorColumn? with
      | none => exact Line.indentationM_eq machine _ _
      | some column =>
        rw [Machine.mapM_eq (visualColumnM_eq machine cfg.tab g.row.chars)]
        exact ending_map rfl
    · split
      · rw [leadingOpenerM_eq machine hf, Shape.column_closer]
        cases f.leadingOpener? with
        | none => exact machine.pure_eq 0
        | some opener => exact opener.closerColumnM_eq machine cfg.tab
      · simp only [bind_assoc, pure_bind]
        cases f.row.closesBranch with
        | true =>
          simp only [if_true, Shape.columnM, ← bind_assoc, hnext]
          exact ending_map rfl
        | false => exact hnext

end OnMachine

theorem indentM_engine (machine : Machine) (cfg : Config) (f : Focus) : f.indentM machine.engine cfg =
    ending (machine.overflow? (f.indentFits cfg)) (f.indent cfg) :=
  indentM_eq machine (fun _ => rfl) (fun _ _ _ => rfl) cfg

/-- What stops a machine when it places the row in focus. -/
def limit? (machine : Machine) (cfg : Config) (f : Focus) : Option Limit :=
  match f.row.start with
  | .block => none
  | .code =>
    if f.row.isBlank then none
    else (machine.overflow? (f.indentFits cfg)).or
      (machine.tooLong? (f.indent cfg + bytes (dropWhite f.row.chars)))

theorem placedM_eq (machine : Machine) (cfg : Config) (f : Focus) :
    f.placedM machine.platform (indentM machine.engine cfg) =
      ending (f.limit? machine cfg) (f.reindented cfg).toLine := by
  rw [placedM, limit?, reindented_eq]
  cases f.row.start with
  | block => rfl
  | code =>
    dsimp only
    cases hblank : f.row.isBlank with
    | true =>
      have hset := f.row.setIndentationM_eq machine 0
      rw [hblank] at hset
      exact hset
    | false =>
      have hset := f.row.setIndentationM_eq machine (f.indent cfg)
      rw [hblank] at hset
      rw [indentM_engine]
      exact ending_bind hset

end Focus

/-- The rows below `above`, each in focus at the time when it is placed. -/
def placements (cfg : Config) : (above : List Row) → List Row → List Focus
  | _, [] => []
  | above, r :: rest => ⟨above, r⟩ :: placements cfg (Focus.reindented cfg ⟨above, r⟩ :: above) rest

theorem reindentBelowM_eq (machine : Machine) (cfg : Config) (above rows : List Row) :
    reindentBelowM machine.platform (Focus.indentM machine.engine cfg) above rows =
      ending ((placements cfg above rows).findSome? (Focus.limit? machine cfg))
        (reindentBelow cfg above rows) := by
  induction rows generalizing above with
  | nil => rfl
  | cons r rest ih =>
    have hlimit : (placements cfg above (r :: rest)).findSome? (Focus.limit? machine cfg) =
        (Focus.limit? machine cfg ⟨above, r⟩).or
          ((placements cfg (Focus.reindented cfg ⟨above, r⟩ :: above) rest).findSome?
            (Focus.limit? machine cfg)) := by
      rw [placements, List.findSome?_cons]
      cases Focus.limit? machine cfg ⟨above, r⟩ <;> rfl
    have hrow : Row.of r.index (Focus.reindented cfg ⟨above, r⟩).toLine = Focus.reindented cfg ⟨above, r⟩ := rfl
    rw [reindentBelowM, Focus.placedM_eq, hlimit, reindentBelow_cons]
    refine ending_bind ?_
    rw [hrow, ih]
    exact ending_map rfl

theorem mapM_ending {α β : Type} {machine : Machine} {f : α → Run β} {fits : α → Bool} {g : α → β}
    (h : ∀ a, f a = ending (machine.overflow? (fits a)) (g a)) (xs : List α) :
    xs.mapM f = ending (machine.overflow? (xs.all fits)) (xs.map g) := by
  induction xs with
  | nil => exact machine.pure_eq []
  | cons x rest ih =>
    rw [List.mapM_cons, h, ih]
    exact Machine.overflow_bind (ending_map rfl)

theorem Line.mismatchM_eq (machine : Machine) (tab index : Nat) (l placed : Line) :
    l.mismatchM machine.platform tab index placed =
      ending (machine.overflow? (l.indentationFits tab && placed.indentationFits tab))
        (l.mismatch? tab index placed) := by
  rw [mismatchM, indentationM_eq, indentationM_eq]
  exact Machine.overflow_bind (ending_map rfl)

namespace Buffer

/-- What stops a machine when it places the buffer. -/
def reindentLimit? (machine : Machine) (cfg : Config) (b : Buffer) : Option Limit :=
  (placements cfg [] b.rows).findSome? (Focus.limit? machine cfg)

/-- Whether the indentations of the lines with content are words, before and after they are placed. -/
def indentationsFit (cfg : Config) (b : Buffer) : Bool :=
  ((b.rows.zip (b.reindent cfg).lines).filter fun x => !x.1.isBlank).all fun x =>
    x.1.indentationFits cfg.tab && x.2.indentationFits cfg.tab

variable (machine : Machine) (cfg : Config)

theorem reindentM_eq (b : Buffer) :
    b.reindentM machine.engine cfg = ending (b.reindentLimit? machine cfg) (b.reindent cfg) := by
  have hrows := reindentBelowM_eq machine cfg [] b.rows
  rw [reindentM]
  refine (congrArg (· >>= _) hrows).trans ?_
  exact ending_map rfl

theorem checkM_eq (b : Buffer) : b.checkM machine.engine cfg =
    ending ((b.reindentLimit? machine cfg).or (machine.overflow? (b.indentationsFit cfg))) (b.check cfg) := by
  rw [checkM, reindentM_eq, check_eq_filterMap]
  refine ending_bind ?_
  have hfound := mapM_ending (fun x : Row × Line => x.1.mismatchM_eq machine cfg.tab x.1.index x.2)
    ((b.rows.zip (b.reindent cfg).lines).filter fun x => !x.1.isBlank)
  refine (congrArg (· >>= _) hfound).trans (ending_map ?_)
  rw [List.filterMap_map]
  rfl

theorem toTextM_eq (b : Buffer) : b.toTextM machine.platform =
    ending (machine.tooLong? (bytes b.toText.toList)) b.toText := by
  rw [toTextM, Machine.room_eq, toText, String.toList_ofList]
  exact ending_map rfl

end Buffer

end BffLayout
