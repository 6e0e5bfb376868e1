import ForthMachine.Token.Basic

/-!
# The dictionary

Names are unique and case matters. A new word of an old name takes the place of the old one and
becomes the newest word; calls compiled before keep the word they found. A table has the words, and
the order of the names is kept beside it.
-/

set_option autoImplicit false

namespace ForthMachine

/-- The words by their names, the names in order, and how many words were ever installed. -/
structure Dictionary where
  /-- The names are the keys, each with its word. -/
  table : List (String × Word) := []
  /-- Oldest first. -/
  order : List String := []
  installed : Nat := 0

namespace Dictionary

def empty : Dictionary := {}

def find? (dictionary : Dictionary) (name : String) : Option Word :=
  dictionary.table.lookup name

def contains (dictionary : Dictionary) (name : String) : Bool :=
  dictionary.table.any (·.1 == name)

/-- Newest first. -/
def names (dictionary : Dictionary) : List String :=
  dictionary.order.reverse

def words (dictionary : Dictionary) : List Word :=
  dictionary.table.map Prod.snd

/-- Puts a new word under its name, and gives the word that it replaces. A name that is not new
moves to the end of the order. -/
def insert (dictionary : Dictionary) (name : String) (behavior : Behavior) :
    Option Word × Dictionary :=
  let previous := dictionary.find? name
  let others :=
    if previous.isSome then dictionary.order.filter (· != name) else dictionary.order
  (previous,
    { table := (name, ⟨dictionary.installed, name, behavior⟩) ::
        dictionary.table.filter (·.1 != name)
      order := others ++ [name]
      installed := dictionary.installed + 1 })

def install (dictionary : Dictionary) (name : String) (behavior : Behavior) : Dictionary :=
  (dictionary.insert name behavior).2

def installBuiltins (dictionary : Dictionary) : Dictionary :=
  let dictionary := Primitive.all.foldl (fun d p => d.install p.name (.primitive p)) dictionary
  let dictionary := ReadAhead.all.foldl (fun d r => d.install r.name (.readAhead r)) dictionary
  let dictionary := Comment.all.foldl (fun d c => d.install c.name (.comment c)) dictionary
  Structural.all.foldl (fun d s => d.install s.name (.structural s)) dictionary

@[simp] theorem find?_empty (name : String) : empty.find? name = none := rfl

theorem find?_install_self (dictionary : Dictionary) (name : String) (behavior : Behavior) :
    (dictionary.install name behavior).find? name =
      some ⟨dictionary.installed, name, behavior⟩ :=
  List.lookup_cons_self

theorem find?_install_of_ne (dictionary : Dictionary) {name other : String}
    (behavior : Behavior) (h : name ≠ other) :
    (dictionary.install name behavior).find? other = dictionary.find? other := by
  have hother : (other == name) = false := beq_eq_false_iff_ne.mpr h.symm
  simp only [find?, install, insert, List.lookup_cons, hother]
  induction dictionary.table with
  | nil => rfl
  | cons entry table ih =>
    by_cases hentry : entry.1 = name
    · rw [List.filter_cons_of_neg (by simp [hentry]), ih, List.lookup_cons, hentry, hother]
    · rw [List.filter_cons_of_pos (by simp [hentry]), List.lookup_cons, List.lookup_cons, ih]

/-- Every key is the name of its word. -/
def IsNamed (dictionary : Dictionary) : Prop :=
  ∀ entry ∈ dictionary.table, entry.2.name = entry.1

theorem isNamed_empty : empty.IsNamed :=
  List.forall_mem_nil _

theorem IsNamed.install {dictionary : Dictionary} (h : dictionary.IsNamed) (name : String)
    (behavior : Behavior) : (dictionary.install name behavior).IsNamed :=
  List.forall_mem_cons.mpr ⟨rfl, fun entry hentry => h entry (List.mem_filter.mp hentry).1⟩

theorem IsNamed.find? {dictionary : Dictionary} (h : dictionary.IsNamed) {name : String}
    {word : Word} (hfind : dictionary.find? name = some word) : word.name = name := by
  obtain ⟨before, behind, htable, -⟩ := List.lookup_eq_some_iff.mp hfind
  refine h (name, word) ?_
  rw [htable]
  exact List.mem_append_right before List.mem_cons_self

theorem mem_words_of_find? {dictionary : Dictionary} {name : String} {word : Word}
    (h : dictionary.find? name = some word) : word ∈ dictionary.words := by
  obtain ⟨before, behind, htable, -⟩ := List.lookup_eq_some_iff.mp h
  rw [words, htable, List.map_append, List.map_cons]
  exact List.mem_append_right _ List.mem_cons_self

theorem mem_words_install {dictionary : Dictionary} {name : String} {behavior : Behavior}
    {word : Word} (h : word ∈ (dictionary.install name behavior).words) :
    word = ⟨dictionary.installed, name, behavior⟩ ∨ word ∈ dictionary.words := by
  rcases List.mem_cons.mp h with rfl | hold
  · exact .inl rfl
  · exact .inr ((List.filter_sublist.map Prod.snd).mem hold)

end Dictionary

end ForthMachine
