import BffLayout.Proofs.Typing

/-!
Candidates. The names on offer at a cursor are those of the vocabulary that may stand in the context and
begin with what has been typed, in ascending order and each once. Three of the lists they are taken from
are put in order first, where names that several groups share are kept once; two are in order as they are
written down. What has been typed is the longest name that ends at the cursor.
-/
namespace BffLayout

namespace Vocabulary

@[simp] theorem mem_insertName {name x : String} {names : List String} :
    x ∈ insertName name names ↔ x = name ∨ x ∈ names := by
  induction names with
  | nil => simp [insertName]
  | cons other rest ih =>
    rw [insertName]
    split
    · exact List.mem_cons
    · split
      · next heq =>
        subst heq
        simp
      · simp only [List.mem_cons, ih, or_left_comm]

@[simp] theorem mem_ascending {x : String} {names : List String} : x ∈ ascending names ↔ x ∈ names := by
  induction names with
  | nil => rfl
  | cons name rest ih => rw [ascending, List.foldr_cons, mem_insertName, ← ascending, ih, List.mem_cons]

theorem pairwise_insertName {name : String} {names : List String} (h : names.Pairwise (· < ·)) :
    (insertName name names).Pairwise (· < ·) := by
  induction names with
  | nil => exact List.pairwise_singleton _ _
  | cons other rest ih =>
    obtain ⟨hother, hrest⟩ := List.pairwise_cons.mp h
    rw [insertName]
    split
    · next hlt =>
      refine List.pairwise_cons.mpr ⟨?_, h⟩
      intro x hx
      rcases List.mem_cons.mp hx with rfl | hx
      · exact hlt
      · exact String.lt_trans hlt (hother x hx)
    · next hnot =>
      split
      · exact h
      · next hne =>
        have hlt : other < name := by
          apply String.not_le.mp
          intro hle
          exact hne (String.le_antisymm hle (String.not_lt.mp hnot))
        refine List.pairwise_cons.mpr ⟨?_, ih hrest⟩
        intro x hx
        rcases mem_insertName.mp hx with rfl | hx
        · exact hlt
        · exact hother x hx

theorem pairwise_ascending (names : List String) : (ascending names).Pairwise (· < ·) := by
  induction names with
  | nil => exact .nil
  | cons name rest ih => exact pairwise_insertName ih

theorem pairwise_directives : directives.Pairwise (· < ·) := by decide

theorem pairwise_builtinVariables : builtinVariables.Pairwise (· < ·) := by decide

/-- No function is a keyword and none is listed twice, so that putting them in order drops none. -/
theorem perm_words : words.Perm (functions ++ keywords) := by
  have hnodup : (functions ++ keywords).Nodup := by decide
  have hwords : words.Nodup := by
    refine (pairwise_ascending _).imp ?_
    rintro a _ hlt rfl
    exact String.lt_irrefl a hlt
  rw [List.perm_ext_iff_of_nodup hwords hnodup]
  exact fun name => mem_ascending

end Vocabulary

namespace Context

/-- The names that may stand in a context. A property belongs to the function around it, or to any
function if there is none or it has no properties listed. -/
def Offers (function : Option String) : Context → String → Prop
  | property, name =>
    match function.bind fun f => Vocabulary.propertyGroups.lookup f with
    | some groups => ∃ group ∈ groups, name ∈ group
    | none => ∃ entry ∈ Vocabulary.propertyGroups, ∃ group ∈ entry.2, name ∈ group
  | directive, name => name ∈ Vocabulary.directives
  | reference, name => name ∈ Vocabulary.builtinVariables
  | word, name => name ∈ Vocabulary.functions ∨ name ∈ Vocabulary.keywords

theorem pool_property (function : Option String) :
    pool function property =
      ((function.bind fun f => Vocabulary.propertyGroups.lookup f).map fun groups =>
        Vocabulary.ascending groups.flatten).getD Vocabulary.properties := by
  have hlisted : function.bind Vocabulary.propertiesOf? =
      (function.bind fun f => Vocabulary.propertyGroups.lookup f).map fun groups =>
        Vocabulary.ascending groups.flatten := by
    rw [Option.map_bind]
    rfl
  rw [← hlisted, pool]

theorem mem_pool {context : Context} {function : Option String} {name : String} :
    name ∈ context.pool function ↔ context.Offers function name := by
  cases context with
  | property =>
    rw [pool_property, Offers]
    cases function.bind fun f => Vocabulary.propertyGroups.lookup f with
    | some groups =>
      rw [Option.map_some, Option.getD_some, Vocabulary.mem_ascending, List.mem_flatten]
    | none =>
      rw [Option.map_none, Option.getD_none, Vocabulary.properties, Vocabulary.mem_ascending]
      simp only [List.mem_flatMap, List.mem_flatten]
  | directive | reference => rfl
  | word => rw [pool, Vocabulary.words, Vocabulary.mem_ascending, List.mem_append, Offers]

theorem pairwise_pool (context : Context) (function : Option String) :
    (context.pool function).Pairwise (· < ·) := by
  cases context with
  | property =>
    rw [pool_property]
    cases function.bind fun f => Vocabulary.propertyGroups.lookup f with
    | some groups =>
      rw [Option.map_some, Option.getD_some]
      exact Vocabulary.pairwise_ascending _
    | none =>
      rw [Option.map_none, Option.getD_none]
      exact Vocabulary.pairwise_ascending _
  | directive => exact Vocabulary.pairwise_directives
  | reference => exact Vocabulary.pairwise_builtinVariables
  | word => exact Vocabulary.pairwise_ascending _

end Context

/-- The longest name that a text ends in; it is empty if the text ends in something else. -/
structure IsLastName (cs name : List Char) : Prop where
  suffix : name <:+ cs
  chars : ∀ c ∈ name, isNameChar c = true
  longest : ∀ run, run <:+ cs → (∀ c ∈ run, isNameChar c = true) → run.length ≤ name.length

theorem isLastName_append {front name : List Char} (hname : ∀ c ∈ name, isNameChar c = true)
    (hfront : ∀ c ∈ front.getLast?, isNameChar c = false) : IsLastName (front ++ name) name := by
  refine ⟨List.suffix_append front name, hname, ?_⟩
  intro run hrun hchars
  apply Nat.le_of_not_lt
  intro hlt
  obtain ⟨more, rfl⟩ := List.suffix_of_suffix_length_le (List.suffix_append front name) hrun
    (Nat.le_of_lt hlt)
  obtain ⟨rest, hrest⟩ := hrun
  rw [← List.append_assoc, List.append_left_inj] at hrest
  have hmore : more ≠ [] := by
    rintro rfl
    simp at hlt
  obtain ⟨last, hlast⟩ := Option.isSome_iff_exists.mp (List.getLast?_isSome.mpr hmore)
  have hfalse : isNameChar last = false := by
    apply hfront
    rw [← hrest, List.getLast?_append_of_ne_nil _ hmore, hlast]
    rfl
  rw [hchars last (List.mem_append_left name (List.mem_of_getLast? hlast))] at hfalse
  cases hfalse

namespace Focus

variable {f : Focus} {column : Nat} {r : Completion} (h : f.complete? column = some r)

include h

theorem candidates_of_complete? :
    r.candidates =
      (r.context.pool r.function).filter fun name => beginsWith r.typed.toList name.toList := by
  obtain ⟨context, -, rfl⟩ := Option.map_eq_some_iff.mp h
  simp only [String.toList_ofList]

theorem isLastName_of_complete? : IsLastName (f.row.chars.take column) r.typed.toList := by
  obtain ⟨context, -, rfl⟩ := Option.map_eq_some_iff.mp h
  have hsplit : f.row.chars.take column =
      ((f.row.upTo column).cells.reverse.dropWhile fun x => isNameChar x.char).reverse.map Cell.char ++
        ((f.row.upTo column).cells.reverse.takeWhile fun x => isNameChar x.char).reverse.map Cell.char := by
    rw [← List.map_append, ← List.reverse_append, List.takeWhile_append_dropWhile, List.reverse_reverse,
      Line.map_char_cells]
    rfl
  simp only [String.toList_ofList]
  rw [hsplit]
  apply isLastName_append
  · intro c hc
    obtain ⟨x, hx, rfl⟩ := List.mem_map.mp hc
    exact List.all_eq_true.mp List.all_takeWhile x (List.mem_reverse.mp hx)
  · intro c hc
    rw [List.map_reverse, List.getLast?_reverse, List.head?_map] at hc
    obtain ⟨x, hx, rfl⟩ := Option.map_eq_some_iff.mp hc
    have hstop := List.head?_dropWhile_not (fun x : Cell => isNameChar x.char)
      (f.row.upTo column).cells.reverse
    rw [hx] at hstop
    exact hstop

end Focus

namespace Buffer

theorem exists_line_of_complete {b : Buffer} {p : Position} {r : Completion}
    (h : b.complete p = .ok (some r)) :
    ∃ l, b.lines[p.line]? = some l ∧ p.column ≤ l.length ∧
      Focus.complete? ⟨b.above p.line, Row.of p.line l⟩ p.column = some r := by
  cases hl : b.lines[p.line]? with
  | none =>
    rw [complete, focus?_eq_none hl] at h
    cases h
  | some l =>
    rw [complete, focus?_eq_some hl] at h
    dsimp only at h
    split at h
    · next hcolumn => exact ⟨l, rfl, hcolumn, Except.ok.inj h⟩
    · cases h

/-- The candidates ascend by code point, each once, and are exactly the names of the context that begin
with what has been typed, the case of ASCII letters aside. What has been typed is the longest name that
ends at the cursor. -/
theorem candidates_exact {b : Buffer} {p : Position} {r : Completion} (h : b.complete p = .ok (some r)) :
    r.candidates.Pairwise (· < ·) ∧
    (∀ name, name ∈ r.candidates ↔ r.context.Offers r.function name ∧
      r.typed.toList.map Char.toLower <+: name.toList.map Char.toLower) ∧
    (r.context = .word → r.candidates.Perm ((Vocabulary.functions ++ Vocabulary.keywords).filter
      fun name => beginsWith r.typed.toList name.toList)) ∧
    ∃ l, b.lines[p.line]? = some l ∧ p.column ≤ l.length ∧
      IsLastName (l.chars.take p.column) r.typed.toList := by
  obtain ⟨l, hl, hcolumn, hfound⟩ := exists_line_of_complete h
  rw [Focus.candidates_of_complete? hfound]
  refine ⟨(r.context.pairwise_pool r.function).filter _, ?_, ?_, l, hl, hcolumn, ?_⟩
  · intro name
    rw [List.mem_filter, Context.mem_pool, beginsWith, List.isPrefixOf_iff_prefix]
  · intro hword
    rw [hword]
    exact Vocabulary.perm_words.filter _
  · exact Focus.isLastName_of_complete? hfound

/-- Outside all functions the properties of each of them are on offer. -/
theorem candidates_exact_outside : ∃ names,
    (ofLines [".us".toList]).complete ⟨0, 3⟩ = .ok (some ⟨.property, "us", none, names⟩) ∧
      names.Pairwise (· < ·) ∧ "UseRelativePaths_Experimental" ∈ names ∧ "Hidden" ∉ names := by
  obtain ⟨names, hnames⟩ : ∃ names, (ofLines [".us".toList]).complete ⟨0, 3⟩ =
      .ok (some ⟨.property, "us", none, names⟩) := ⟨_, rfl⟩
  obtain ⟨horder, hmem, -, -⟩ := candidates_exact hnames
  dsimp only at horder hmem
  refine ⟨names, hnames, horder, (hmem _).mpr ⟨?_, by decide⟩, ?_⟩
  · show ∃ entry ∈ Vocabulary.propertyGroups, ∃ group ∈ entry.2, _ ∈ group
    decide
  · intro hhidden
    exact absurd ((hmem _).mp hhidden).2 (by decide)

end Buffer

end BffLayout
