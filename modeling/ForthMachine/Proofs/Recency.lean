import ForthMachine.Proofs.Installation
import Mathlib.Data.List.Basic
import Mathlib.Data.List.Induction

/-!
# Names by their latest installation

A dictionary holds its names twice, as the keys of its table and in their order. The two agree
however the dictionary came about: the table has the last word of each name, and the order goes by
these last words. So the names that are listed are read back from the listing, in this order.
-/

set_option autoImplicit false

namespace ForthMachine

open Machine

namespace Dictionary

/-- The names in order are the keys of the table, each of them once, and every key is the name of
its word. -/
structure Agrees (dictionary : Dictionary) : Prop where
  named : dictionary.IsNamed
  nodup : dictionary.order.Nodup
  perm : dictionary.order.Perm (dictionary.table.map Prod.fst)

section Installing

variable {dictionary : Dictionary}

theorem isSome_find?_iff {name : String} :
    (dictionary.find? name).isSome = true ↔ name ∈ dictionary.table.map Prod.fst := by
  rw [find?, List.lookup_isSome_iff, List.mem_map]
  exact exists_congr fun entry => and_congr_right fun _ => beq_iff_eq.trans eq_comm

theorem agrees_empty : empty.Agrees :=
  ⟨isNamed_empty, .nil, .nil⟩

theorem Agrees.order_install (h : dictionary.Agrees) (name : String) (behavior : Behavior) :
    (dictionary.install name behavior).order =
      dictionary.order.filter (· != name) ++ [name] := by
  simp only [install, insert]
  split
  · rfl
  · next hnew =>
    rw [isSome_find?_iff, ← h.perm.mem_iff] at hnew
    rw [List.filter_eq_self.mpr]
    intro other hother
    exact bne_iff_ne.mpr fun heq => hnew (heq ▸ hother)

theorem Agrees.names_install (h : dictionary.Agrees) (name : String) (behavior : Behavior) :
    (dictionary.install name behavior).names = name :: dictionary.names.filter (· != name) := by
  rw [names, h.order_install, List.reverse_append, List.reverse_singleton, List.singleton_append,
    ← List.filter_reverse, names]

theorem Agrees.install (h : dictionary.Agrees) (name : String) (behavior : Behavior) :
    (dictionary.install name behavior).Agrees where
  named := h.named.install name behavior
  nodup := by
    rw [h.order_install, (List.perm_append_singleton name _).nodup_iff, List.nodup_cons]
    exact ⟨by simp, h.nodup.filter _⟩
  perm := by
    rw [h.order_install]
    calc dictionary.order.filter (· != name) ++ [name]
      _ |>.Perm (name :: dictionary.order.filter (· != name)) := List.perm_append_singleton name _
      _ |>.Perm (name :: (dictionary.table.map Prod.fst).filter (· != name)) :=
        (h.perm.filter _).cons name
      _ = (dictionary.install name behavior).table.map Prod.fst := by
        rw [List.filter_map]
        rfl

end Installing

/-- The dictionary that comes of installations, the first of them first. -/
def ofInstalls (installs : List (String × Behavior)) : Dictionary :=
  installs.foldl (fun d (name, behavior) => d.install name behavior) empty

/-- The word is the last one installed under the name, and its serial number is the time of that,
which is how many installations came before. -/
def IsLatest (installs : List (String × Behavior)) (name : String) (word : Word) : Prop :=
  ∃ before behavior after, installs = before ++ (name, behavior) :: after ∧
    name ∉ after.map Prod.fst ∧ word = ⟨before.length, name, behavior⟩

section Sequences

variable (installs : List (String × Behavior)) {name other : String} {behavior : Behavior}
  {word : Word}

@[simp] theorem ofInstalls_nil : ofInstalls [] = empty := rfl

@[simp] theorem ofInstalls_concat :
    ofInstalls (installs ++ [(name, behavior)]) = (ofInstalls installs).install name behavior :=
  List.foldl_append

theorem installed_ofInstalls : (ofInstalls installs).installed = installs.length := by
  induction installs using List.reverseRecOn with
  | nil => rfl
  | append_singleton installs install ih =>
    rw [ofInstalls_concat, List.length_append, List.length_singleton, ← ih]
    rfl

theorem agrees_ofInstalls : (ofInstalls installs).Agrees := by
  induction installs using List.reverseRecOn with
  | nil => exact agrees_empty
  | append_singleton installs install ih =>
    rw [ofInstalls_concat]
    exact ih.install install.1 install.2

theorem not_isLatest_nil : ¬ IsLatest [] name word := by
  rintro ⟨before, behavior, after, hinstalls, -⟩
  exact absurd hinstalls.symm (List.append_ne_nil_of_right_ne_nil before (List.cons_ne_nil _ after))

theorem concat_eq_append_cons {α : Type} {l before after : List α} {a b : α}
    (h : l ++ [a] = before ++ b :: after) :
    (l = before ∧ a = b ∧ after = []) ∨
      ∃ between, l = before ++ b :: between ∧ after = between ++ [a] := by
  rcases after.eq_nil_or_concat' with rfl | ⟨between, last, rfl⟩
  · obtain ⟨rfl, hlast⟩ := List.append_inj' h rfl
    exact .inl ⟨rfl, List.singleton_inj.mp hlast, rfl⟩
  · rw [← List.cons_append, ← List.append_assoc] at h
    obtain ⟨rfl, hlast⟩ := List.append_inj' h rfl
    exact .inr ⟨between, rfl, hlast ▸ rfl⟩

theorem isLatest_concat_self :
    IsLatest (installs ++ [(name, behavior)]) name word ↔
      word = ⟨installs.length, name, behavior⟩ := by
  constructor
  · rintro ⟨before, behavior', after, hinstalls, hafter, rfl⟩
    obtain ⟨rfl, hlast, -⟩ | ⟨between, -, rfl⟩ := concat_eq_append_cons hinstalls
    · cases hlast
      rfl
    · simp at hafter
  · rintro rfl
    exact ⟨installs, behavior, [], rfl, List.not_mem_nil, rfl⟩

theorem isLatest_concat_of_ne (h : other ≠ name) :
    IsLatest (installs ++ [(other, behavior)]) name word ↔ IsLatest installs name word := by
  constructor
  · rintro ⟨before, behavior', after, hinstalls, hafter, rfl⟩
    obtain ⟨-, hlast, -⟩ | ⟨between, rfl, rfl⟩ := concat_eq_append_cons hinstalls
    · cases hlast
      exact absurd rfl h
    · refine ⟨before, behavior', between, rfl, fun hname => hafter ?_, rfl⟩
      rw [List.map_append]
      exact List.mem_append_left _ hname
  · rintro ⟨before, behavior', after, rfl, hafter, rfl⟩
    refine ⟨before, behavior', after ++ [(other, behavior)], by simp, ?_, rfl⟩
    rw [List.map_append, List.mem_append, not_or]
    exact ⟨hafter, by simpa using h.symm⟩

theorem IsLatest.serial_lt (h : IsLatest installs name word) : word.serial < installs.length := by
  obtain ⟨before, behavior, after, rfl, -, rfl⟩ := h
  simp

theorem find?_ofInstalls_iff (name : String) (word : Word) :
    (ofInstalls installs).find? name = some word ↔ IsLatest installs name word := by
  induction installs using List.reverseRecOn with
  | nil => exact iff_of_false nofun not_isLatest_nil
  | append_singleton installs install ih =>
    obtain ⟨other, behavior⟩ := install
    rw [ofInstalls_concat]
    by_cases hother : other = name
    · subst hother
      rw [find?_install_self, isLatest_concat_self, Option.some_inj, installed_ofInstalls, eq_comm]
    · rw [find?_install_of_ne _ behavior hother, isLatest_concat_of_ne installs hother, ih]

theorem mem_names_ofInstalls (name : String) :
    name ∈ (ofInstalls installs).names ↔ name ∈ installs.map Prod.fst := by
  induction installs using List.reverseRecOn with
  | nil => rfl
  | append_singleton installs install ih =>
    rw [ofInstalls_concat, (agrees_ofInstalls installs).names_install, List.map_append]
    by_cases hname : name = install.1 <;> simp [hname, ih]

theorem names_ofInstalls_pairwise :
    (ofInstalls installs).names.Pairwise fun newer older => ∀ v w,
      IsLatest installs newer v → IsLatest installs older w → w.serial < v.serial := by
  induction installs using List.reverseRecOn with
  | nil => exact .nil
  | append_singleton installs install ih =>
    obtain ⟨name, behavior⟩ := install
    rw [ofInstalls_concat, (agrees_ofInstalls installs).names_install, List.pairwise_cons]
    constructor
    · intro older holder v w hv hw
      have hne : name ≠ older := Ne.symm (by simpa using (List.mem_filter.mp holder).2)
      rw [isLatest_concat_self] at hv
      rw [isLatest_concat_of_ne installs hne] at hw
      rw [hv]
      exact hw.serial_lt
    · refine List.Pairwise.imp_of_mem ?_ (ih.filter _)
      intro newer older hnewer holder hlt v w hv hw
      have hne : name ≠ newer := Ne.symm (by simpa using (List.mem_filter.mp hnewer).2)
      have hne' : name ≠ older := Ne.symm (by simpa using (List.mem_filter.mp holder).2)
      rw [isLatest_concat_of_ne installs hne] at hv
      rw [isLatest_concat_of_ne installs hne'] at hw
      exact hlt v w hv hw

end Sequences

theorem Layered.exists_installs {dictionary : Dictionary} (h : dictionary.Layered) :
    ∃ installs, dictionary = ofInstalls installs := by
  induction h with
  | empty => exact ⟨[], rfl⟩
  | install before name calls ih =>
    obtain ⟨installs, rfl⟩ := ih
    exact ⟨installs ++ [(name, _)], (ofInstalls_concat installs).symm⟩

theorem Sound.isWord_of_mem_names {dictionary : Dictionary} (h : dictionary.Sound)
    (hagrees : dictionary.Agrees) {name : String} (hname : name ∈ dictionary.names) :
    Text.IsWord name := by
  obtain ⟨entry, hentry, rfl⟩ :=
    List.mem_map.mp (hagrees.perm.mem_iff.mp (List.mem_reverse.mp hname))
  rw [← h.named entry hentry]
  exact (h.words entry.2 (List.mem_map_of_mem hentry)).isWord

end Dictionary

theorem run_words (m : Machine) :
    Primitive.words.run m = .ok .next
      { m with output := m.output ++ String.join (m.dictionary.names.map (· ++ " ")) } :=
  rfl

theorem Steady.advances_layered {m m₁ : Machine} {bounds : Bounds} (h : Steady m)
    (hlayered : m.Layered) (hadvances : Advances bounds m m₁) : m₁.Layered := by
  have hboth : Steady m₁ ∧ m₁.Layered := by
    refine hadvances.keeps (P := fun m => Steady m ∧ m.Layered)
      (Q := fun m => m.dictionary.Sound ∧ m.dictionary.Layered) ?_ ?_ ⟨h, hlayered⟩
    · exact fun {m} text hm => ⟨hm.1.withInput text, hm.2.withText text m.output⟩
    · intro word m o _ ⟨hsteady, hm⟩ hrun
      have hsettles := hsteady.dispatch hrun
      have hkept := hsteady.dispatch_layered hm hrun
      cases o <;> exact ⟨hsettles, hkept⟩
  exact hboth.2

/-- The table and the order agree after any installations, and go by the last of each name; and so
it is with the dictionary at every word of a line, where the listing is read back as the names. -/
theorem names_listed_by_latest_install (installs : List (String × Behavior)) :
    (Dictionary.ofInstalls installs).Agrees ∧
      (∀ name word, (Dictionary.ofInstalls installs).find? name = some word ↔
        Dictionary.IsLatest installs name word) ∧
      (∀ name behavior word, ((Dictionary.ofInstalls installs).insert name behavior).1 = some word ↔
        Dictionary.IsLatest installs name word) ∧
      (Dictionary.ofInstalls installs).names.Nodup ∧
      (∀ name, name ∈ (Dictionary.ofInstalls installs).names ↔ name ∈ installs.map Prod.fst) ∧
      ((Dictionary.ofInstalls installs).names.Pairwise fun newer older => ∀ v w,
        Dictionary.IsLatest installs newer v → Dictionary.IsLatest installs older w →
          w.serial < v.serial) ∧
      ∀ {m m₁ : Machine} {passes : Nat} {line : String}, Reachable m →
        Advances { passes } (m.reading line) m₁ →
          (∃ installs, m₁.dictionary = Dictionary.ofInstalls installs) ∧
          (∀ name ∈ m₁.dictionary.names, Text.IsWord name) ∧
          ∀ m₂, m₂.dictionary = m₁.dictionary → ∃ text,
            Primitive.words.run m₂ = .ok .next { m₂ with output := m₂.output ++ text } ∧
              Text.words text.toList = m₂.dictionary.names := by
  have hagrees := Dictionary.agrees_ofInstalls installs
  refine ⟨hagrees, Dictionary.find?_ofInstalls_iff installs,
    fun name _ => Dictionary.find?_ofInstalls_iff installs name,
    (List.reverse_perm _).nodup_iff.mpr hagrees.nodup,
    Dictionary.mem_names_ofInstalls installs, Dictionary.names_ofInstalls_pairwise installs, ?_⟩
  intro m m₁ passes line hm hadvances
  have hsteady := (steady_of_reachable hm).reading line
  have hlayered := (layered_of_reachable hm).withText line.toList ""
  obtain ⟨installs, hinstalls⟩ :=
    (hsteady.advances_layered hlayered hadvances).dictionary.exists_installs
  have hwords : ∀ name ∈ m₁.dictionary.names, Text.IsWord name := by
    intro name hname
    refine (hsteady.advances hadvances).dictionary.isWord_of_mem_names ?_ hname
    rw [hinstalls]
    exact Dictionary.agrees_ofInstalls installs
  refine ⟨⟨installs, hinstalls⟩, hwords, fun m₂ hsame => ?_⟩
  rw [← hsame] at hwords
  exact ⟨_, run_words m₂, Text.words_join hwords⟩

/-- A name that is defined again is listed once, before the word that still calls the old one. -/
theorem redefined_name_listed_first :
    ∃ m text, Reachable m ∧ m.dictionary.names.take 2 = ["DUP", "SQ"] ∧
      m.dictionary.names.count "DUP" = 1 ∧
      Primitive.words.run (m.reading "WORDS") =
        .ok .next { m.reading "WORDS" with output := (m.reading "WORDS").output ++ text } ∧
      Text.words text.toList = m.dictionary.names := by
  have hline : ((evaluate { passes := 0 } Machine.new ": SQ DUP * ; : DUP 1 ;").any fun left =>
      left.2.dictionary.names.take 2 = ["DUP", "SQ"] &&
        left.2.dictionary.names.count "DUP" = 1) = true := by
    decide +kernel
  obtain ⟨⟨response, m⟩, hanswered, hnames⟩ := (Option.any_eq_true _ _).mp hline
  simp only [Bool.and_eq_true, decide_eq_true_eq] at hnames
  have hm : Reachable m := .line 0 .new hanswered
  obtain ⟨-, -, -, -, -, -, hlisted⟩ := names_listed_by_latest_install []
  have hstart : Advances { passes := 0 } (m.reading "WORDS") (m.reading "WORDS") := .refl
  obtain ⟨-, -, hruns⟩ := hlisted hm hstart
  obtain ⟨text, hrun, hwords⟩ := hruns (m.reading "WORDS") rfl
  exact ⟨m, text, hm, hnames.1, hnames.2, hrun, hwords⟩

end ForthMachine
