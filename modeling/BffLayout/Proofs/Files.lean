import BffLayout.CommandLine.Run

/-!
Files that are read and written. A file system is known by what its paths read as, before and after
a file is written. The tree of a working directory is one: writing a file that is there changes
no walk, only the text at its end.
-/
namespace BffLayout.CommandLine

/-- Files that can be read and written. What is written to a file with content is read back. At
another path the text stays the same, unless the path leads to the file that is written. -/
structure FileSystem where
  State : Type
  read : State → Reader
  write : State → String → String → State
  read_write {s : State} {path old : String} (content : String) (h : read s path = .ok old)
    (hold : old ≠ "") : read (write s path content) path = .ok content
  read_write_other {s : State} {path old other text : String} (content : String)
    (h : read s path = .ok old) (hother : read s other = .ok text) :
    read (write s path content) other = .ok text ∨ read (write s path content) other = .ok content

namespace FileTree

theorem lookup_map_set (entries : List (List String × Node)) (names key : List String) (node : Node) :
    (entries.map fun entry => if entry.1 = names then (names, node) else entry).lookup key =
      if key = names then (entries.lookup names).map fun _ => node else entries.lookup key := by
  induction entries with
  | nil => simp
  | cons entry rest ih =>
    obtain ⟨name, old⟩ := entry
    by_cases hname : name = names
    · subst hname
      by_cases hkey : key = name
      · simp [hkey]
      · have hne : (key == name) = false := by simpa using hkey
        simp [List.lookup_cons, hkey, hne, ih]
    · by_cases hkey : key = names
      · subst hkey
        have hne : (key == name) = false := by simpa using Ne.symm hname
        simp [List.lookup_cons, hname, hne, ih]
      · simp [List.lookup_cons, hname, hkey, ih]

/-- A walk only asks what is there and what is a directory. -/
theorem resolve_congr {t u : FileTree} (hsome : ∀ place, (u.node? place).isSome = (t.node? place).isSome)
    (hdirectory : ∀ place, u.node? place = some .directory ↔ t.node? place = some .directory)
    (path : String) : u.resolve path = t.resolve path := by
  have hstep : u.step = t.step := by
    funext place name
    simp only [step, child, hsome, ne_eq, hdirectory]
  simp only [resolve, hstep]

section Set

variable {t : FileTree} {names : List String} {old : String} (hnames : names ≠ [])
  (hold : t.entries.lookup names = some (.text old)) (content : String)

include hnames hold

theorem node?_set (place : Place) : (t.set names (.text content)).node? place =
    if place = .inside names then some (.text content) else t.node? place := by
  have hset : (t.set names (.text content)).entries =
      t.entries.map fun entry => if entry.1 = names then (names, .text content) else entry := by
    rw [set, hold]
    rfl
  cases place with
  | containing => rfl
  | absolute key => cases key <;> rfl
  | inside key =>
    cases key with
    | nil => simp [node?, Ne.symm hnames]
    | cons name more =>
      simp only [node?, hset, lookup_map_set, hold, Option.map_some, Place.inside.injEq]

/-- One text in place of another leads no path elsewhere. -/
theorem resolve_set (path : String) : (t.set names (.text content)).resolve path = t.resolve path := by
  have hplace : t.node? (.inside names) = some (.text old) := by
    cases names with
    | nil => exact absurd rfl hnames
    | cons name more => exact hold
  apply resolve_congr
  · intro place
    rw [node?_set hnames hold]
    split
    · next h => rw [h, hplace]; rfl
    · rfl
  · intro place
    rw [node?_set hnames hold]
    split
    · next h => simp [h, hplace]
    · rfl

end Set

theorem read_eq_ok_iff {t : FileTree} {path text : String} :
    t.read path = .ok text ↔
      ∃ place, t.resolve path = .ok place ∧ t.node? place = some (.text text) := by
  unfold read
  cases hresolve : t.resolve path with
  | error failure => simp [bind, Except.bind]
  | ok place =>
    simp only [bind, Except.bind, Except.ok.injEq, exists_eq_left']
    cases hnode : t.node? place with
    | none => simp [throw, throwThe, MonadExceptOf.throw]
    | some node => cases node <;> simp [throw, throwThe, MonadExceptOf.throw, pure, Except.pure]

/-- A file with a text is one of the tree, which is written there, or it is empty and stays so. -/
theorem write_cases {t : FileTree} {path old : String} (h : t.read path = .ok old) :
    (old = "" ∧ ∀ content, t.write path content = t) ∨
      ∃ names, names ≠ [] ∧ t.resolve path = .ok (.inside names) ∧
        t.entries.lookup names = some (.text old) ∧
        ∀ content, t.write path content = t.set names (.text content) := by
  obtain ⟨place, hresolve, hnode⟩ := read_eq_ok_iff.mp h
  cases place with
  | containing => cases hnode
  | absolute names =>
    refine .inl ⟨?_, fun content => by simp only [write, hresolve]⟩
    cases names with
    | nil => cases hnode
    | cons name more =>
      obtain ⟨before, after, he, -⟩ := List.lookup_eq_some_iff.mp hnode
      have hmem : (name :: more, Node.text old) ∈ systemNodes := by
        rw [he]
        exact List.mem_append_right _ List.mem_cons_self
      simp only [systemNodes, List.mem_cons, Prod.mk.injEq, reduceCtorEq, and_false, Node.text.injEq,
        List.not_mem_nil, or_false, false_or] at hmem
      exact hmem.2
  | inside names =>
    cases names with
    | nil => cases hnode
    | cons name more =>
      exact .inr ⟨name :: more, List.cons_ne_nil _ _, hresolve, hnode,
        fun content => by simp only [write, hresolve]⟩

def fileSystem : FileSystem where
  State := FileTree
  read := read
  write := write
  read_write := by
    intro t path old content h hold
    rcases write_cases h with ⟨hempty, -⟩ | ⟨names, hnames, hresolve, hlookup, hwrite⟩
    · exact absurd hempty hold
    · rw [hwrite, read_eq_ok_iff]
      refine ⟨.inside names, ?_, ?_⟩
      · rw [resolve_set hnames hlookup, hresolve]
      · rw [node?_set hnames hlookup, if_pos rfl]
  read_write_other := by
    intro t path old other text content h hother
    rcases write_cases h with ⟨-, hwrite⟩ | ⟨names, hnames, hresolve, hlookup, hwrite⟩
    · exact .inl (by rw [hwrite, hother])
    · obtain ⟨place, hplace, hnode⟩ := read_eq_ok_iff.mp hother
      rw [hwrite]
      simp only [read_eq_ok_iff, resolve_set hnames hlookup, hplace, Except.ok.injEq, exists_eq_left',
        node?_set hnames hlookup]
      split
      · exact .inr rfl
      · exact .inl hnode

end FileTree

end BffLayout.CommandLine
