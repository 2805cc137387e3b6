import BffLayout.Proofs.Notes

/-!
Interrupted chains. A chain hangs from the nearest line that is neither blank nor a continuation, and a
comment on a line of its own is such a line. Put in front of a continuation, it cuts the chain in two:
the lines behind it stand at the comment, which stands where an ordinary line would. No other line moves
exactly if the statement gives its chain that column too, and if the line after the chain cannot tell
the comment from the statement.
-/
namespace BffLayout

/-- Whether a chain can hang from the line. -/
def Line.isStatement (l : Line) : Bool := !l.isBlank && !l.isContinuation

/-- The column of an ordinary line below a chain that hangs from one of the rows. -/
def chainEnd (cfg : Config) (above : List Row) : Nat :=
  shifted (chainStart cfg.tab above).base (chainStart cfg.tab above).depth cfg.unit

/-- Whether a line stands in the same column where an ordinary line would stand in column `x` as where
it would stand in column `y`. -/
def Line.Indifferent (cfg : Config) (x y : Nat) (l : Line) : Prop :=
  l.start = .block ∨ l.leadsWithCloser = true ∨
    if l.closesBranch then x - cfg.unit = y - cfg.unit else x = y
  deriving Decidable

namespace Line

theorem isStatement_of_core {l m : Line} (h : l.core = m.core) : l.isStatement = m.isStatement := by
  rw [isStatement, isStatement, eq_of_core isBlank_core h, eq_of_core isContinuation_core h]

theorem isContinuation_of_not_statement {l : Line} (h : l.isStatement = false)
    (hblank : l.isBlank = false) : l.isContinuation = true := by
  simpa [isStatement, hblank] using h

/-- A note has no sign to align to. -/
theorem IsNote.anchor? {l : Line} (h : l.IsNote) (tab : Nat) : l.anchor? tab = none := by
  have hequals : (l.codeChars.find? fun p => p.2 == '=') = none := by
    rw [find?_codeChars, h.ink, List.find?_nil]
    intro x hx
    rw [beq_eq_false_iff_ne]
    intro he
    rw [he] at hx
    cases hx
  simp only [Line.anchor?_eq, anchorColumn?, h.leading, hequals, Option.map_none]

end Line

theorem statement?_append {xs : List Row} (h : ∀ r ∈ xs, r.isStatement = false) (zs : List Row) :
    statement? (xs ++ zs) = statement? zs := by
  have hnone : statement? xs = none := by
    rw [statement?, List.find?_eq_none]
    intro r hr
    exact Bool.eq_false_iff.mp (h r hr)
  rw [statement?, List.find?_append, ← statement?, hnone, Option.none_or, ← statement?]

theorem isBlank_of_nearest? {above : List Row} {f : Focus} (h : nearest? above = some f) :
    f.row.isBlank = false := by
  induction above with
  | nil => cases h
  | cons r above ih =>
    rw [nearest?] at h
    split at h
    · exact ih h
    · next hblank =>
      cases h
      simpa using hblank

/-- A note in the rows ends the search for a statement. -/
theorem chainEnd_note (cfg : Config) {r : Row} (h : r.IsNote) (ys : List Row) :
    chainEnd cfg (r :: ys) = shifted (r.indentation cfg.tab) 0 cfg.unit := by
  rw [chainEnd, chainStart, statement?_cons_stop h.content h.no_continuation, ChainStart.ofRow?_some,
    h.depthChange]

theorem continuationColumn_note (cfg : Config) {r : Row} (h : r.IsNote) (ys : List Row) :
    continuationColumn cfg (r :: ys) = r.indentation cfg.tab := by
  have hnearest : nearest? (r :: ys) = some ⟨ys, r⟩ := by simp [nearest?, h.content]
  simp only [continuationColumn, hnearest, h.anchor?, Option.getD_none]

section Chain

variable (cfg : Config) {xs : List Row} (hchain : ∀ r ∈ xs, r.isStatement = false) {f : Focus}
  (hf : nearest? xs = some f)

include hf

theorem continuationColumn_append (zs : List Row) :
    continuationColumn cfg (xs ++ zs) = continuationColumn cfg xs := by
  rw [continuationColumn, continuationColumn, nearest?_append, hf]
  rfl

include hchain

theorem followColumn_append (zs : List Row) : followColumn cfg (xs ++ zs) = chainEnd cfg zs := by
  have hnearest : nearest? (xs ++ zs) = some ⟨f.above ++ zs, f.row⟩ := by
    rw [nearest?_append, hf]
    rfl
  have hcont := Line.isContinuation_of_not_statement (hchain _ (mem_of_nearest? hf)) (isBlank_of_nearest? hf)
  rw [followColumn_chain cfg hnearest hcont, chainEnd, chainStart, statement?_append hchain, ← chainStart]

namespace Focus

variable {r : Row} (h : r.IsNote) (ys : List Row) {q : Row}

include h

/-- The line after the chain finds the note where it would find the statement. -/
theorem indent_after_chain_iff (hstart : q.start = .code) (hcont : q.isContinuation = false) :
    indent cfg ⟨xs ++ r :: ys, q⟩ = indent cfg ⟨xs ++ ys, q⟩ ↔
      q.Indifferent cfg (chainEnd cfg ys) (shifted (r.indentation cfg.tab) 0 cfg.unit) := by
  have hfollow := followColumn_append cfg hchain hf
  rw [Line.Indifferent, hstart, Line.leadsWithCloser_eq]
  cases hcloser : q.leadingCloser? with
  | some b =>
    have hindent : ∀ zs, indent cfg ⟨zs, q⟩ = _ :=
      fun zs => indent_leadingCloser (f := ⟨zs, q⟩) cfg hcont hcloser
    simp [hindent, Row.bracketsBack_note h]
  | none =>
    cases hbranch : q.closesBranch with
    | true =>
      have hindent : ∀ zs, indent cfg ⟨zs, q⟩ = followColumn cfg zs - cfg.unit :=
        fun zs => indent_branchEnd (f := ⟨zs, q⟩) cfg hcont hcloser hbranch
      simp [hindent, hfollow, chainEnd_note cfg h, eq_comm]
    | false =>
      have hindent : ∀ zs, indent cfg ⟨zs, q⟩ = followColumn cfg zs :=
        fun zs => indent_ordinary (f := ⟨zs, q⟩) cfg hcont hcloser hbranch
      simp [hindent, hfollow, chainEnd_note cfg h, eq_comm]

end Focus

end Chain

namespace Buffer

/-- Two placings of a line with content differ by their columns. -/
theorem reindented_eq_iff (cfg : Config) {above above' : List Row} {l : Line} {n n' : Nat}
    (hstart : l.start = .code) (hblank : l.isBlank = false) :
    (Focus.reindented cfg ⟨above, Row.of n l⟩).toLine = (Focus.reindented cfg ⟨above', Row.of n' l⟩).toLine ↔
      Focus.indent cfg ⟨above, Row.of n l⟩ = Focus.indent cfg ⟨above', Row.of n' l⟩ := by
  constructor
  · intro h
    have hcolumn := congrArg (fun m => m.indentation cfg.tab) h
    rwa [Focus.indentation_reindented cfg (f := ⟨above, Row.of n l⟩) hstart hblank,
      Focus.indentation_reindented cfg (f := ⟨above', Row.of n' l⟩) hstart hblank] at hcolumn
  · intro h
    exact reindented_congr cfg fun _ _ => h

theorem reindented_continuation_iff (cfg : Config) {above above' : List Row} {l : Line} {n n' : Nat}
    (h : l.isContinuation = true) :
    (Focus.reindented cfg ⟨above, Row.of n l⟩).toLine = (Focus.reindented cfg ⟨above', Row.of n' l⟩).toLine ↔
      continuationColumn cfg above = continuationColumn cfg above' := by
  have hlead := Line.leading?_of_continuation h
  have hindent : ∀ zs n, Focus.indent cfg ⟨zs, Row.of n l⟩ = continuationColumn cfg zs :=
    fun zs n => Focus.indent_continuation (f := ⟨zs, Row.of n l⟩) cfg h
  rw [reindented_eq_iff cfg (Line.start_of_leading? hlead) (Line.isBlank_of_leading? hlead), hindent, hindent]

/-- Lines of a chain, blank lines among them, at least one of them with content. -/
structure IsChain (more : List Line) : Prop where
  chain : ∀ l ∈ more, l.isStatement = false
  content : ∃ l ∈ more, l.isBlank = false

namespace IsChain

variable {more : List Line} (h : IsChain more)

include h

theorem step {l placed : Line} (hl : l.isStatement = false) (hcore : placed.core = l.core) :
    IsChain (more ++ [placed]) := by
  obtain ⟨m, hm, hblank⟩ := h.content
  refine ⟨?_, m, List.mem_append_left _ hm, hblank⟩
  intro k hk
  obtain hk | hk := List.mem_append.mp hk
  · exact h.chain k hk
  · rw [List.mem_singleton.mp hk, Line.isStatement_of_core hcore, hl]

theorem isStatement_rows (first : Nat) : ∀ r ∈ (rowsFrom first more).reverse, r.isStatement = false := by
  intro r hr
  have hmem := List.mem_map_of_mem (f := Row.toLine) (List.mem_reverse.mp hr)
  rw [map_toLine_rowsFrom] at hmem
  exact h.chain _ hmem

theorem exists_nearest? (first : Nat) : ∃ f, nearest? (rowsFrom first more).reverse = some f := by
  obtain ⟨m, hm, hblank⟩ := h.content
  rw [← map_toLine_rowsFrom first more] at hm
  obtain ⟨r, hr, rfl⟩ := List.mem_map.mp hm
  rw [← Option.ne_none_iff_exists', ne_eq, nearest?_eq_none_iff]
  intro hall
  rw [hall r (List.mem_reverse.mpr hr)] at hblank
  cases hblank

end IsChain

section Note

variable (cfg : Config) (done : List Line) (note : Line) {more : List Line} (hmore : IsChain more)
  {l : Line} (n n' : Nat)

include hmore

/-- A line of the chain stands at the line of the chain before it. -/
theorem reindented_in_chain (hl : l.isStatement = false) :
    (Focus.reindented cfg ⟨(rowsFrom 0 (done ++ note :: more)).reverse, Row.of n l⟩).toLine =
      (Focus.reindented cfg ⟨(rowsFrom 0 (done ++ more)).reverse, Row.of n' l⟩).toLine := by
  obtain ⟨f, hf⟩ := hmore.exists_nearest? (done.length + 1)
  refine reindented_congr cfg fun _ hblank => ?_
  have hcont := Line.isContinuation_of_not_statement hl hblank
  have hindent : ∀ zs n, Focus.indent cfg ⟨zs, Row.of n l⟩ = continuationColumn cfg zs :=
    fun zs n => Focus.indent_continuation (f := ⟨zs, Row.of n l⟩) cfg hcont
  rw [← indent_renumbered cfg done more l n n', reverse_rowsFrom_middle, hindent, hindent,
    continuationColumn_append cfg hf, continuationColumn_append cfg hf]

variable {note} (hnote : note.IsNote)

include hnote

theorem reindented_after_chain_iff (hl : l.isStatement = true) :
    (Focus.reindented cfg ⟨(rowsFrom 0 (done ++ note :: more)).reverse, Row.of n l⟩).toLine =
        (Focus.reindented cfg ⟨(rowsFrom 0 (done ++ more)).reverse, Row.of n' l⟩).toLine ↔
      l.Indifferent cfg (chainEnd cfg (rowsFrom 0 done).reverse)
        (shifted (note.indentation cfg.tab) 0 cfg.unit) := by
  obtain ⟨hblank, hcont⟩ : l.isBlank = false ∧ l.isContinuation = false := by
    simpa [Line.isStatement] using hl
  cases hstart : l.start with
  | block =>
    rw [Focus.reindented_block cfg hstart, Focus.reindented_block cfg hstart]
    exact iff_of_true rfl (.inl hstart)
  | code =>
    obtain ⟨f, hf⟩ := hmore.exists_nearest? (done.length + 1)
    have hafter := Focus.indent_after_chain_iff cfg (hmore.isStatement_rows (done.length + 1)) hf
      (r := Row.of done.length note) hnote (rowsFrom 0 done).reverse (q := Row.of n l) hstart hcont
    rw [reindented_eq_iff cfg hstart hblank, ← indent_renumbered cfg done more l n n',
      reverse_rowsFrom_middle]
    exact hafter

/-- Behind a part of the chain that stands, the rest of the chain stands too, and all depends on the line
after it. -/
theorem placedBelow_chain_iff (below : List Line) :
    placedBelow cfg (done ++ note :: more) below = placedBelow cfg (done ++ more) below ↔
      ∀ l ∈ below.find? Line.isStatement, l.Indifferent cfg (chainEnd cfg (rowsFrom 0 done).reverse)
        (shifted (note.indentation cfg.tab) 0 cfg.unit) := by
  induction below generalizing more with
  | nil => simp [placedBelow, reindentBelow_nil, rowsFrom]
  | cons l below ih =>
    generalize hplaced : Focus.reindented cfg
      ⟨(rowsFrom 0 (done ++ more)).reverse, Row.of (done ++ more).length l⟩ = placed
    have hcore : placed.core = l.core := by
      rw [← hplaced]
      exact (Focus.reindented_respaced cfg _).core
    rw [placedBelow_cons cfg _ l below rfl, placedBelow_cons cfg _ l below hplaced, List.cons.injEq]
    cases hl : l.isStatement with
    | false =>
      have hline := reindented_in_chain cfg done note hmore (done ++ note :: more).length
        (done ++ more).length hl
      rw [hplaced] at hline
      rw [hline, List.append_assoc, List.append_assoc, List.cons_append, ih (hmore.step hl hcore),
        List.find?_cons_of_neg (by simp [hl])]
      exact and_iff_right rfl
    | true =>
      have hline := reindented_after_chain_iff cfg done hmore (done ++ note :: more).length
        (done ++ more).length hnote hl
      rw [hplaced] at hline
      simp only [List.find?_cons_of_pos hl, Option.mem_some_iff, forall_eq', ← hline]
      refine and_iff_left_of_imp fun he => ?_
      have hstatement : ∃ m ∈ more ++ [placed.toLine], m.isBlank = false ∧ m.isContinuation = false := by
        refine ⟨placed.toLine, by simp, ?_⟩
        rw [← Line.isStatement_of_core hcore] at hl
        simpa [Line.isStatement] using hl
      rw [he, List.append_assoc, List.append_assoc, List.cons_append]
      refine placedBelow_note cfg hnote (.inl hstatement) fun hall => ?_
      obtain ⟨m, hm, hblank, -⟩ := hstatement
      rw [hall m hm] at hblank
      cases hblank

omit hmore

/-- A continuation right below the note stands at the note. -/
theorem placedBelow_plus_iff {plus : Line} (hplus : plus.isContinuation = true) (below : List Line) :
    placedBelow cfg (done ++ [note]) (plus :: below) = placedBelow cfg done (plus :: below) ↔
      continuationColumn cfg (rowsFrom 0 done).reverse = note.indentation cfg.tab ∧
      ∀ l ∈ below.find? Line.isStatement, l.Indifferent cfg (chainEnd cfg (rowsFrom 0 done).reverse)
        (shifted (note.indentation cfg.tab) 0 cfg.unit) := by
  generalize hplaced : Focus.reindented cfg
    ⟨(rowsFrom 0 done).reverse, Row.of done.length plus⟩ = placed
  have hcore : placed.core = plus.core := by
    rw [← hplaced]
    exact (Focus.reindented_respaced cfg _).core
  have hchain : IsChain [placed.toLine] := by
    have hcont : placed.isContinuation = true := (Line.eq_of_core Line.isContinuation_core hcore).trans hplus
    have hblank := Line.isBlank_of_leading? (Line.leading?_of_continuation hcont)
    exact ⟨by simp [Line.isStatement, hcont], by simpa using hblank⟩
  have habove : continuationColumn cfg (rowsFrom 0 (done ++ [note])).reverse = note.indentation cfg.tab := by
    rw [reverse_rowsFrom_middle]
    exact continuationColumn_note cfg (r := Row.of done.length note) hnote _
  rw [placedBelow_cons cfg _ plus below rfl, placedBelow_cons cfg _ plus below hplaced, List.cons.injEq,
    ← placedBelow_chain_iff cfg done hchain hnote, ← habove, eq_comm (a := continuationColumn _ _),
    ← reindented_continuation_iff cfg hplus, hplaced]
  refine and_congr_right fun hline => ?_
  rw [hline, List.append_assoc]
  rfl

end Note

theorem above_append (done rest : List Line) :
    (Buffer.mk (done ++ rest)).above done.length = (rowsFrom 0 done).reverse := by
  rw [above, rows_eq, rowsFrom_append, List.take_left' (length_rowsFrom 0 done)]

theorem allPlaced_reindent (cfg : Config) (b : Buffer) :
    AllPlaced cfg (rowsFrom 0 (b.reindent cfg).lines).reverse := by
  have hplaced := allPlaced_above (reindent_idem cfg b) (b.reindent cfg).count
  have hlength : (rowsFrom 0 (b.reindent cfg).lines).length ≤ (b.reindent cfg).count :=
    Nat.le_of_eq (length_rowsFrom 0 _)
  rwa [above, rows_eq, List.take_of_length_le hlength] at hplaced

theorem indentation_append (done : List Line) (l : Line) (rest : List Line) (tab : Nat) :
    (Buffer.mk (done ++ l :: rest)).indentation done.length tab = l.indentation tab := by
  rw [indentation, getElem?_middle]

/-- The first line of a chain, placed. -/
theorem indentation_placed_continuation (cfg : Config) (above : List Row) {l : Line} (n : Nat)
    (h : l.isContinuation = true) :
    (Focus.reindented cfg ⟨above, Row.of n l⟩).indentation cfg.tab = continuationColumn cfg above := by
  have hlead := Line.leading?_of_continuation h
  rw [Focus.indentation_reindented cfg (f := ⟨above, Row.of n l⟩) (Line.start_of_leading? hlead)
    (Line.isBlank_of_leading? hlead)]
  exact Focus.indent_continuation (f := ⟨above, Row.of n l⟩) cfg h

/-- What becomes of a chain below lines that are done, with a note before it and without. -/
theorem placedBelow_interrupted (cfg : Config) {done : List Line}
    (hdone : AllPlaced cfg (rowsFrom 0 done).reverse) {note plus : Line} (hnote : note.IsNote)
    (hstart : note.start = .code) (hplus : plus.isContinuation = true) (below : List Line) :
    ∃ placed first rest first' rest',
      placedBelow cfg done (note :: plus :: below) = placed :: first :: rest ∧
      placedBelow cfg done (plus :: below) = first' :: rest' ∧
      placed.indentation cfg.tab = followColumn cfg (rowsFrom 0 done).reverse ∧
      first.indentation cfg.tab = followColumn cfg (rowsFrom 0 done).reverse ∧
      first'.indentation cfg.tab = statementColumn cfg.tab (statement? (rowsFrom 0 done).reverse) ∧
      (first :: rest = first' :: rest' ↔
        statementColumn cfg.tab (statement? (rowsFrom 0 done).reverse) =
          followColumn cfg (rowsFrom 0 done).reverse ∧
        ∀ l ∈ below.find? Line.isStatement, l.Indifferent cfg (chainEnd cfg (rowsFrom 0 done).reverse)
          (shifted (followColumn cfg (rowsFrom 0 done).reverse) 0 cfg.unit)) := by
  generalize hplaced : Focus.reindented cfg ⟨(rowsFrom 0 done).reverse, Row.of done.length note⟩ = placed
  have hcore : placed.core = note.core := by
    rw [← hplaced]
    exact (Focus.reindented_respaced cfg _).core
  have hplacedNote : placed.IsNote := hnote.of_core hcore
  have hcolumn : placed.indentation cfg.tab = followColumn cfg (rowsFrom 0 done).reverse := by
    rw [← hplaced, Focus.indentation_reindented cfg hstart hnote.content]
    exact Focus.indent_ordinary cfg hnote.no_continuation hnote.leadingCloser? hnote.closesBranch
  have hsame := placedBelow_plus_iff cfg done hplacedNote hplus below
  rw [continuationColumn_eq hdone, hcolumn, placedBelow_cons cfg _ plus below rfl,
    placedBelow_cons cfg done plus below rfl] at hsame
  refine ⟨_, _, _, _, _, ?_, placedBelow_cons cfg done plus below rfl, hcolumn, ?_, ?_, hsame⟩
  · rw [placedBelow_cons cfg done note _ hplaced, placedBelow_cons cfg _ plus below rfl]
  · rw [indentation_placed_continuation cfg _ _ hplus, reverse_rowsFrom_middle, ← hcolumn]
    exact continuationColumn_note cfg (r := Row.of done.length placed.toLine) hplacedNote _
  · rw [indentation_placed_continuation cfg _ _ hplus, continuationColumn_eq hdone]

/-- A comment on a line of its own, right before a continuation, interrupts the chain. The lines above
stay, the comment takes the column of an ordinary line, and the continuation stands there too instead of
at the column of its statement. Every other line stays where it was exactly if the two columns are the
same and the line after the chain stands after the comment as it does after the statement. -/
theorem reindent_insert_chain (cfg : Config) {top bottom : List (List Char)} {note plus : List Char}
    {b c : Buffer} (hb : b = ofLines (top ++ plus :: bottom))
    (hc : c = ofLines (top ++ note :: plus :: bottom))
    (hcomment : isComment (dropWhite note) = true)
    (hplus : ∀ l ∈ b.lines[top.length]?, l.isContinuation = true) {above : List Row}
    (habove : above = (b.reindent cfg).above top.length) :
    (c.reindent cfg).lines.take top.length = (b.reindent cfg).lines.take top.length ∧
    (c.reindent cfg).indentation top.length cfg.tab = followColumn cfg above ∧
    (c.reindent cfg).indentation (top.length + 1) cfg.tab = followColumn cfg above ∧
    (b.reindent cfg).indentation top.length cfg.tab = statementColumn cfg.tab (statement? above) ∧
    ((c.reindent cfg).lines.eraseIdx top.length = (b.reindent cfg).lines ↔
      statementColumn cfg.tab (statement? above) = followColumn cfg above ∧
      ∀ l ∈ (b.lines.drop (top.length + 1)).find? Line.isStatement,
        l.Indifferent cfg (chainEnd cfg above) (shifted (followColumn cfg above) 0 cfg.unit)) := by
  have hlines : ∀ rest, (ofLines (top ++ rest)).lines =
      linesFrom .code top ++ linesFrom (stateAfter .code top) rest := linesFrom_append .code top
  have hplaced := lines_reindent_append cfg top
  have hlength := length_reindent_ofLines cfg top
  have hdone := allPlaced_reindent cfg (ofLines top)
  generalize stateAfter .code top = s at hlines hplaced
  generalize ((ofLines top).reindent cfg).lines = done at hplaced hlength hdone
  subst hb hc
  rw [hlines, ← length_linesFrom .code top, linesFrom, getElem?_middle] at hplus
  have hcont := hplus _ rfl
  have hcode : s = .code := Line.start_of_leading? (Line.leading?_of_continuation hcont)
  subst hcode
  have hnote : (Line.mk .code note).IsNote := Line.isNote_of_comment rfl hcomment
  have hbelow : linesFrom .code (note :: plus :: bottom) =
      ⟨.code, note⟩ :: ⟨.code, plus⟩ :: linesFrom (Line.next ⟨.code, plus⟩) bottom := by
    rw [linesFrom, Line.next_of_comment rfl hcomment, linesFrom]
  have hdrop : (ofLines (top ++ plus :: bottom)).lines.drop (top.length + 1) =
      linesFrom (Line.next ⟨.code, plus⟩) bottom := by
    rw [hlines, linesFrom, ← length_linesFrom .code top, List.drop_length_add_append, List.drop_one,
      List.tail_cons]
  obtain ⟨placed, first, rest, first', rest', hc, hb, hnoteColumn, hfirst, hfirst', hsame⟩ :=
    placedBelow_interrupted cfg hdone hnote rfl hcont (linesFrom (Line.next ⟨.code, plus⟩) bottom)
  have hreindent : ∀ lines, (ofLines lines).reindent cfg = ⟨((ofLines lines).reindent cfg).lines⟩ :=
    fun _ => rfl
  have hwith := hplaced (note :: plus :: bottom)
  have hwithout := hplaced (plus :: bottom)
  rw [hbelow, hc] at hwith
  rw [linesFrom, hb] at hwithout
  rw [hreindent, hwithout, ← hlength, above_append] at habove
  rw [hdrop, hreindent (top ++ note :: _), hreindent (top ++ plus :: _), hwith, hwithout, ← hlength, habove]
  refine ⟨?_, ?_, ?_, ?_, ?_⟩
  · rw [List.take_left, List.take_left]
  · rw [indentation_append, hnoteColumn]
  · have hnext := indentation_append (done ++ [placed]) first rest cfg.tab
    rw [List.append_assoc, List.length_append] at hnext
    exact hnext.trans hfirst
  · rw [indentation_append, hfirst']
  · rw [eraseIdx_middle, List.append_cancel_left_eq]
    exact hsame

/-- A chain that stands at its statement, and the same with a comment in it. -/
theorem reindent_insert_chain_flush :
    ((ofLines (["Do()", "+ 'a'", "", "  ; [", "+ 'b'", "\x7d"].map String.toList)).reindent
        .standard).indentation 4 Config.standard.tab = 0 ∧
    ((ofLines (["Do()", "+ 'a'", "", "  ; [", "+ 'b'", "\x7d"].map String.toList)).reindent
        .standard).lines.eraseIdx 3 =
      ((ofLines (["Do()", "+ 'a'", "", "+ 'b'", "\x7d"].map String.toList)).reindent .standard).lines := by
  obtain ⟨-, -, hplus, -, hsame⟩ := @reindent_insert_chain .standard
    (["Do()", "+ 'a'", ""].map String.toList) ["\x7d".toList] "  ; [".toList "+ 'b'".toList _ _ rfl rfl
    (by decide) (by decide) _ rfl
  exact ⟨hplus.trans (by decide), hsame.mpr (by decide)⟩

/-- A comment moves the second line of a statement away from the equals sign. -/
theorem reindent_insert_chain_assignment :
    (Line.mk .code "+ 'y'".toList).isContinuation = true ∧ isComment (dropWhite "// \x7b".toList) = true ∧
    ((ofLines ([".A = 'x'", "+ 'y'"].map String.toList)).reindent .standard).indentation 1
        Config.standard.tab = 3 ∧
    ((ofLines ([".A = 'x'", "// \x7b", "+ 'y'"].map String.toList)).reindent .standard).indentation 2
        Config.standard.tab = 0 := by
  decide

end Buffer

end BffLayout
