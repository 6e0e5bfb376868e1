import ForthMachine.Proofs.Binding
import ForthMachine.Proofs.Mismatches
import Mathlib.Logic.Relation

/-!
# What was there before

While a definition is open the dictionary does not change, so whatever the definition calls is there
when it is installed, and is older. Serial numbers fall along every call, and no word is in its own
reach: a name that is defined again may be called in its new definition, but that calls the old
word.
-/

set_option autoImplicit false

namespace ForthMachine

open Machine

mutual

/-- The words that a token calls at any depth of its structures. What they call is left out. -/
def Token.calls : Token → List Word
  | .number _ => []
  | .call word => [word]
  | .unresolved _ => []
  | .counted body _ => Token.callsAll body
  | .branch ifTrue ifFalse => Token.callsAll ifTrue ++ Token.callsAll ifFalse
  | .indefinite condition body => Token.callsAll condition ++ Token.callsAll body
  | .leave => []
termination_by structural token => token

def Token.callsAll : List Token → List Word
  | [] => []
  | token :: tokens => Token.calls token ++ Token.callsAll tokens
termination_by structural tokens => tokens

end

@[simp] theorem Token.callsAll_nil : Token.callsAll [] = [] := rfl

@[simp] theorem Token.callsAll_cons (token : Token) (tokens : List Token) :
    Token.callsAll (token :: tokens) = token.calls ++ Token.callsAll tokens := rfl

@[simp] theorem Token.callsAll_append (first rest : List Token) :
    Token.callsAll (first ++ rest) = Token.callsAll first ++ Token.callsAll rest := by
  induction first with
  | nil => rfl
  | cons token first ih => simp [ih]

@[simp] theorem calls_untilLoop (body : List Token) :
    (untilLoop body).calls = Token.callsAll body := by
  simp [untilLoop, Token.calls]

def Behavior.calls : Behavior → List Word
  | .definition body => Token.callsAll body
  | _ => []

def Word.calls (word : Word) : List Word :=
  word.behavior.calls

/-- The other word is called in the body of the word. -/
def Word.Calls (word other : Word) : Prop :=
  other ∈ word.calls

/-- The word calls the other one, or calls words that lead to it. -/
def Word.Reaches : Word → Word → Prop :=
  Relation.TransGen Word.Calls

namespace Dictionary

/-- The words of the dictionary, and all that they lead to: a word that was defined again is there
as long as it is called. -/
def Knows (dictionary : Dictionary) (word : Word) : Prop :=
  ∃ entry ∈ dictionary.words, Relation.ReflTransGen Word.Calls entry word

/-- Dictionaries that came about word by word, where no word calls another one that was not there
before. -/
inductive Layered : Dictionary → Prop where
  | empty : Layered {}
  | install {dictionary : Dictionary} (before : Layered dictionary) (name : String)
      {behavior : Behavior} (calls : ∀ word ∈ behavior.calls, word ∈ dictionary.words) :
      Layered (dictionary.install name behavior)

variable {dictionary : Dictionary} {word other : Word}

theorem knows_of_mem (h : word ∈ dictionary.words) : dictionary.Knows word :=
  ⟨word, h, .refl⟩

theorem Knows.calls (h : dictionary.Knows word) (hcalls : other ∈ word.calls) :
    dictionary.Knows other := by
  obtain ⟨entry, hentry, hreaches⟩ := h
  exact ⟨entry, hentry, hreaches.tail hcalls⟩

theorem knows_install {name : String} {behavior : Behavior}
    (hcalls : ∀ other ∈ behavior.calls, other ∈ dictionary.words)
    (h : (dictionary.install name behavior).Knows word) :
    word = ⟨dictionary.installed, name, behavior⟩ ∨ dictionary.Knows word := by
  obtain ⟨entry, hentry, hreaches⟩ := h
  rcases mem_words_install hentry with rfl | hentry
  · rcases hreaches.cases_head with rfl | ⟨called, hcalled, hreaches⟩
    · exact .inl rfl
    · exact .inr ⟨called, hcalls called hcalled, hreaches⟩
  · exact .inr ⟨entry, hentry, hreaches⟩

namespace Layered

theorem new : Machine.new.dictionary.Layered := by
  refine new_dictionary_induction .empty fun {_ name behavior} h _ _ hbuiltin => h.install name ?_
  cases behavior with
  | definition body => exact absurd rfl (hbuiltin body)
  | primitive _ | structural _ | readAhead _ | comment _ => exact List.forall_mem_nil _

theorem serial_lt (h : dictionary.Layered) (hword : dictionary.Knows word) :
    word.serial < dictionary.installed := by
  induction h with
  | empty =>
    obtain ⟨entry, hentry, -⟩ := hword
    cases hentry
  | install before name calls ih =>
    rcases knows_install calls hword with rfl | hword
    · exact Nat.lt_succ_self _
    · exact Nat.lt_succ_of_lt (ih hword)

theorem serial_lt_of_calls (h : dictionary.Layered) (hword : dictionary.Knows word)
    (hcalls : other ∈ word.calls) : other.serial < word.serial := by
  induction h with
  | empty =>
    obtain ⟨entry, hentry, -⟩ := hword
    cases hentry
  | install before name calls ih =>
    rcases knows_install calls hword with rfl | hword
    · exact before.serial_lt (knows_of_mem (calls other hcalls))
    · exact ih hword

theorem serial_lt_of_reaches (h : dictionary.Layered) (hword : dictionary.Knows word)
    (hreaches : word.Reaches other) : other.serial < word.serial := by
  have hknown : dictionary.Knows other ∧ other.serial < word.serial := by
    induction hreaches with
    | single hcalls => exact ⟨hword.calls hcalls, h.serial_lt_of_calls hword hcalls⟩
    | tail _ hcalls ih =>
      obtain ⟨hknown, hlt⟩ := ih
      exact ⟨hknown.calls hcalls, Nat.lt_trans (h.serial_lt_of_calls hknown hcalls) hlt⟩
  exact hknown.2

/-- Serial numbers tell all words apart that are in reach. -/
theorem eq_of_serial (h : dictionary.Layered) (hword : dictionary.Knows word)
    (hother : dictionary.Knows other) (hserial : word.serial = other.serial) : word = other := by
  induction h with
  | empty =>
    obtain ⟨entry, hentry, -⟩ := hword
    cases hentry
  | install before name calls ih =>
    rcases knows_install calls hword with rfl | hword <;>
      rcases knows_install calls hother with rfl | hother
    · rfl
    · exact absurd hserial.symm (Nat.ne_of_lt (before.serial_lt hother))
    · exact absurd hserial (Nat.ne_of_lt (before.serial_lt hword))
    · exact ih hword hother

end Layered

end Dictionary

def Context.calls : Context → List Word
  | .thenPart before | .loopPart before | .beginPart before => Token.callsAll before
  | .elsePart before tokens | .whilePart before tokens =>
    Token.callsAll before ++ Token.callsAll tokens

namespace Draft

variable {draft draft' : Draft} {limit : Nat}

/-- The words that the draft calls, in the order in which they were compiled. -/
def calls (draft : Draft) : List Word :=
  draft.contexts.reverse.flatMap Context.calls ++ Token.callsAll draft.current

/-- Shaping moves tokens into structures, and the calls stay where they are. -/
theorem calls_of_shape {s : Structural} (h : draft.shape limit s = .ok draft') :
    draft'.calls = draft.calls := by
  cases shapes_of_shape h <;> simp [calls, Context.calls, Draft.add, Token.calls]

theorem calls_of_take {token : Token} (h : draft.take limit token = .ok draft') :
    ∀ word ∈ draft'.calls, word ∈ draft.calls ∨ token = .call word := by
  intro other hother
  cases token with
  | number n =>
    cases h
    left
    simpa [calls, Draft.add, Token.calls] using hother
  | call word =>
    cases hb : word.behavior with
    | primitive _ | definition _ =>
      simp only [take, hb] at h
      cases h
      rw [calls, Draft.add, Token.callsAll_append, ← List.append_assoc] at hother
      refine (List.mem_append.mp hother).imp_right fun hlast => ?_
      rw [List.mem_singleton.mp hlast]
    | structural s =>
      simp only [take, hb] at h
      rw [calls_of_shape h] at hother
      exact .inl hother
    | readAhead r =>
      simp only [take, hb] at h
      cases h
    | comment c =>
      simp only [take, hb] at h
      cases h
      exact .inl hother
  | unresolved name | counted body step | branch ifTrue ifFalse | indefinite condition body
  | leave => cases h

theorem calls_of_body {body : List Token} (h : draft.body = .ok body) :
    Token.callsAll body = draft.calls := by
  obtain ⟨tokens, contexts⟩ := draft
  cases contexts with
  | nil =>
    cases h
    rfl
  | cons context outer => cases h

end Draft

/-- Neither the words nor a definition that is open call words that were not there before. -/
structure Machine.Layered (m : Machine) : Prop where
  dictionary : m.dictionary.Layered
  draft : m.mode = .compile → ∃ below name draft, Drafting below name draft m ∧
    ∀ word ∈ draft.calls, word ∈ m.dictionary.words

namespace Steady

variable {m m' : Machine} {bounds : Bounds} {o : Outcome Flow}

theorem interpret_layered (h : Steady m) (hlayered : m.Layered) (hmode : m.mode = .immediate)
    {word : String} (hrun : ForthMachine.dispatch bounds word m = some o) :
    o.Leaves Machine.Layered (·.dictionary.Layered) := by
  have hsame : o.machine.dictionary = m.dictionary := by
    rw [dispatch_of_immediate hmode] at hrun
    exact interpret_sameWords bounds _ hrun
  have hkept : o.machine.dictionary.Layered := hsame ▸ hlayered.dictionary
  cases o with
  | error fault m' => exact hkept
  | ok flow m' =>
    refine ⟨hkept, fun hopen => ?_⟩
    obtain ⟨rfl, -, hcolon, name, text, hnext⟩ := colon_of_opens h hmode hrun hopen
    obtain ⟨hdrafting, -⟩ := drafting_of_colon hmode hcolon hnext hrun
    exact ⟨m, name, {}, hdrafting, List.forall_mem_nil _⟩

theorem compile_layered (hlayered : m.Layered) (hmode : m.mode = .compile) (word : String) :
    Outcome.Leaves Machine.Layered (·.dictionary.Layered)
      (ForthMachine.compile (classify m.dictionary word) m) := by
  obtain ⟨below, name, draft, hdrafting, hcalls⟩ := hlayered.draft hmode
  have hdictionary := hlayered.dictionary
  rw [hdrafting.dictionary] at hdictionary hcalls ⊢
  have hcases := hdrafting.compile_cases word
  generalize ForthMachine.compile (classify below.dictionary word) m = o at hcases ⊢
  cases hcases with
  | @taken draft' m' _ take drafting _ =>
    refine ⟨drafting.dictionary ▸ hdictionary, fun _ => ⟨below, name, draft', drafting, ?_⟩⟩
    rw [drafting.dictionary]
    intro called hcalled
    rcases Draft.calls_of_take take called hcalled with hcalled | hclassify
    · exact hcalls called hcalled
    · exact Dictionary.mem_words_of_find? (find?_of_classify hclassify)
  | @skipped _ m' _ drafting _ _ _ =>
    refine ⟨drafting.dictionary ▸ hdictionary, fun _ => ⟨below, name, draft, drafting, ?_⟩⟩
    rwa [drafting.dictionary]
  | @ended body m' _ complete defined _ =>
    refine ⟨?_, fun hopen => ?_⟩
    · rw [defined.dictionary]
      refine hdictionary.install name ?_
      rwa [Behavior.calls, Draft.calls_of_body complete]
    · rw [defined.mode] at hopen
      cases hopen
  | @failed fault m' _ dictionary _ =>
    show m'.dictionary.Layered
    rwa [dictionary]

theorem dispatch_layered (h : Steady m) (hlayered : m.Layered) {word : String}
    (hrun : ForthMachine.dispatch bounds word m = some o) :
    o.Leaves Machine.Layered (·.dictionary.Layered) := by
  cases hmode : m.mode with
  | immediate => exact h.interpret_layered hlayered hmode hrun
  | compile =>
    rw [dispatch_of_compile hmode] at hrun
    cases hrun
    exact compile_layered hlayered hmode word

end Steady

theorem Machine.Layered.withText {m : Machine} (h : m.Layered) (text : List Char)
    (output : String) : Machine.Layered { m with input := text, output } := by
  refine ⟨h.dictionary, fun hmode => ?_⟩
  obtain ⟨below, name, draft, hdrafting, hcalls⟩ := h.draft hmode
  exact ⟨below, name, draft, { hdrafting with }, hcalls⟩

theorem layered_of_reachable {m : Machine} (h : Reachable m) : m.Layered := by
  induction h with
  | new => exact ⟨.new, nofun⟩
  | line passes before answered ih =>
    exact Steady.evaluate_keeps (fun text output hm => hm.withText text output)
      (fun hsteady hm hrun => hsteady.dispatch_layered hm hrun) (fun hleft => ⟨hleft, nofun⟩)
      (steady_of_reachable before) ih answered

end ForthMachine
