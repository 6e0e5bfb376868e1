import ForthMachine.Proofs.Definitions

/-!
# Open definitions

A definition is all or nothing. However many words and lines it takes, it stands on the stacks that
it found, and before it ends nothing else has changed. The word that ends it installs one word; if
a word fails, none is installed.
-/

set_option autoImplicit false

namespace ForthMachine

open Machine

/-- What the machine with a definition just opened becomes by words, and by whole lines, that leave
the definition open. -/
inductive StaysOpen (bounds : Bounds) (m₀ : Machine) : Machine → Prop where
  | opened (mode : m₀.mode = .compile) : StaysOpen bounds m₀ m₀
  | word {m₁ m₂ : Machine} {word : String} {rest : List Char} {flow : Flow}
      (before : StaysOpen bounds m₀ m₁) (read : Text.nextWord m₁.input = (some word, rest))
      (taken : dispatch bounds word { m₁ with input := rest } = some (.ok flow m₂))
      (mode : m₂.mode = .compile) : StaysOpen bounds m₀ m₂
  | line {m₁ m₂ : Machine} {text : String} (before : StaysOpen bounds m₀ m₁)
      (ended : Text.words m₁.input = [])
      (answered : (runInput bounds m₁).map answer = some (text, m₂)) (line : String) :
      StaysOpen bounds m₀ (m₂.reading line)

/-- The definition of `name` is open, and everything below it and beside it is as it was. -/
structure Held (below : Machine) (name : String) (m : Machine) : Prop where
  mode : m.mode = .compile
  compiling : m.compiling = some name
  stack : below.stack <:+ m.stack
  returns : below.returns <:+ m.returns
  dictionary : m.dictionary = below.dictionary
  exiting : m.exiting = below.exiting
  level : m.log.level = below.log.level

/-- The definition is given up, with everything on the stacks. -/
structure Abandoned (below m : Machine) : Prop where
  mode : m.mode = .immediate
  compiling : m.compiling = none
  stack : m.stack = []
  returns : m.returns = []
  dictionary : m.dictionary = below.dictionary

/-- What a word of an open definition comes to, where `m` is about to read it. -/
inductive Continues (bounds : Bounds) (below : Machine) (name : String) (m : Machine)
    (word : String) : Outcome Flow → Prop where
  | stays {m' : Machine} (held : Held below name m') (output : m'.output = m.output) :
      Continues bounds below name m word (.ok .next m')
  | closes {body : List Token} {m' : Machine}
      (ends : (classify below.dictionary word).structural? = some .semicolon)
      (defined : Defined below name body m') (output : m'.output = m.output) :
      Continues bounds below name m word (.ok .next m')
  | fails {fault : Fault} {m' m'' : Machine} (dictionary : m'.dictionary = below.dictionary)
      (output : m'.output = m.output)
      (answered : (runInput bounds m).map answer =
        some (m.output ++ " ? " ++ fault.message, m''))
      (abandoned : Abandoned below m'') : Continues bounds below name m word (.error fault m')

theorem abandoned_of_error {bounds : Bounds} {below m m' : Machine} {fault : Fault}
    (hrun : runInput bounds m = some (.error fault m'))
    (hdictionary : m'.dictionary = below.dictionary) (houtput : m'.output = m.output) :
    ∃ m'', (runInput bounds m).map answer = some (m.output ++ " ? " ++ fault.message, m'') ∧
      Abandoned below m'' := by
  refine ⟨(answer (.error fault m')).2, ?_, rfl, rfl, rfl, rfl, hdictionary⟩
  rw [hrun, ← houtput]
  rfl

namespace Drafting

variable {bounds : Bounds} {below m : Machine} {name : String} {draft : Draft}

theorem held (h : Drafting below name draft m) : Held below name m where
  mode := h.mode
  compiling := h.compiling
  stack := by
    rw [h.stack]
    exact List.suffix_append _ _
  returns := by
    rw [h.returns]
    exact List.suffix_append _ _
  dictionary := h.dictionary
  exiting := h.exiting
  level := h.level

theorem continues (h : Drafting below name draft m) {word : String} {text : List Char}
    (hnext : Text.nextWord m.input = (some word, text)) :
    ∃ o, dispatch bounds word { m with input := text } = some o ∧
      Continues bounds below name m word o := by
  refine ⟨_, h.dispatch_eq bounds word text, ?_⟩
  have hrun := h.runInput_eq_resume bounds hnext
  have hcases := (h.withInput text).compile_cases word
  generalize compile (classify below.dictionary word) { m with input := text } = o at hrun hcases ⊢
  cases hcases with
  | taken _ _ drafting quiet => exact .stays drafting.held quiet.output
  | skipped _ drafting _ output _ => exact .stays drafting.held output
  | ended ends _ defined quiet => exact .closes ends defined quiet.output
  | @failed fault m' _ dictionary quiet =>
    obtain ⟨m'', hanswered, habandoned⟩ := abandoned_of_error hrun dictionary quiet.output
    exact .fails dictionary quiet.output hanswered habandoned

theorem answer_of_no_words (h : Drafting below name draft m) (hwords : Text.words m.input = []) :
    (runInput bounds m).map answer =
      some (m.output ++ " compiled", { m with input := [], output := "" }) := by
  rw [runInput_of_nil hwords, Option.map_some]
  simp only [answer, h.mode]

end Drafting

theorem drafting_of_colon {bounds : Bounds} {m m₀ : Machine} {name : String} {text : List Char}
    {flow : Flow} (hmode : m.mode = .immediate)
    (hcolon : m.dictionary.readAhead? ":" = some .colon)
    (hnext : Text.nextWord m.input = (some name, text))
    (hopen : dispatch bounds ":" m = some (.ok flow m₀)) :
    Drafting m name {} m₀ ∧ m₀.output = m.output := by
  rw [dispatch_colon bounds hmode hcolon] at hopen
  have hresult := Option.some.inj hopen
  by_cases hroom : 0 < m.markLimit
  · obtain ⟨m', hopened, h, -, houtput, -⟩ := openDefinition_of_room
      (m := m.note ⟨.debug, "interpret", ":", none⟩) hnext hroom
    rw [Action.bind_of_ok hopened] at hresult
    cases hresult
    exact ⟨{ h with level := h.level.trans (Log.add_level _ _) }, houtput⟩
  · have hfull := openDefinition_of_full
      (m := m.note ⟨.debug, "interpret", ":", none⟩) hnext hroom
    rw [Action.bind_of_error hfull] at hresult
    cases hresult

theorem StaysOpen.drafting {bounds : Bounds} {below m₀ m₁ : Machine} {name : String}
    {draft₀ : Draft} (h : StaysOpen bounds m₀ m₁) (hstart : Drafting below name draft₀ m₀) :
    ∃ draft, Drafting below name draft m₁ := by
  -- A draft on the same stacks is carried along the words and lines.
  induction h with
  | opened mode => exact ⟨draft₀, hstart⟩
  | @word m₁ m₂ word rest flow before read taken mode ih =>
    obtain ⟨draft, hdrafting⟩ := ih
    rw [hdrafting.dispatch_eq bounds word rest] at taken
    have hcases := (hdrafting.withInput rest).compile_cases word
    rw [Option.some.inj taken] at hcases
    cases hcases with
    | @taken draft' _ _ _ drafting _ => exact ⟨draft', drafting⟩
    | skipped _ drafting _ _ _ => exact ⟨draft, drafting⟩
    | ended _ _ defined _ =>
      rw [defined.mode] at mode
      cases mode
  | line before ended answered line ih =>
    obtain ⟨draft, hdrafting⟩ := ih
    rw [hdrafting.answer_of_no_words ended] at answered
    cases answered
    exact ⟨draft, { hdrafting with }⟩

/-- Once a colon has opened a definition, every word and every end of a line leaves it open on the
same stacks, installs it and nothing else, or gives it up. -/
theorem definition_all_or_nothing {bounds : Bounds} {m m₀ : Machine} {name : String}
    {text : List Char} {flow : Flow} (hmode : m.mode = .immediate)
    (hcolon : m.dictionary.readAhead? ":" = some .colon)
    (hnext : Text.nextWord m.input = (some name, text))
    (hopen : dispatch bounds ":" m = some (.ok flow m₀)) :
    m₀.output = m.output ∧ ∀ m₁, StaysOpen bounds m₀ m₁ →
      Held m name m₁ ∧
      (Text.words m₁.input = [] → ∃ m₂,
        (runInput bounds m₁).map answer = some (m₁.output ++ " compiled", m₂)) ∧
      ∀ word rest, Text.nextWord m₁.input = (some word, rest) →
        ∃ o, dispatch bounds word { m₁ with input := rest } = some o ∧
          Continues bounds m name m₁ word o := by
  obtain ⟨hstart, houtput⟩ := drafting_of_colon hmode hcolon hnext hopen
  refine ⟨houtput, ?_⟩
  intro m₁ hstays
  obtain ⟨draft, hdrafting⟩ := hstays.drafting hstart
  refine ⟨hdrafting.held, ?_, ?_⟩
  · intro hwords
    exact ⟨_, hdrafting.answer_of_no_words hwords⟩
  · intro word rest hword
    exact hdrafting.continues hword

/-- A definition on top of values, about to go on with a word that has no branch to end. -/
theorem definition_on_values_all_or_nothing :
    ∃ m m₀ flow o, m.stack = [.value 8] ∧ m.returns = [.value 7] ∧
      dispatch { passes := 0 } ":" m = some (.ok flow m₀) ∧ Held m "W" m₀ ∧
      dispatch { passes := 0 } "THEN" { m₀ with input := [] } = some o ∧
      Continues { passes := 0 } m "W" m₀ "THEN" o := by
  let m : Machine := { Machine.new with
    stack := [.value 8], returns := [.value 7], input := " W THEN".toList }
  have hword : (dispatch { passes := 0 } ":" m).map (fun o =>
      (o.fault?, o.machine.mode, Text.nextWord o.machine.input)) =
        some (none, .compile, some "THEN", []) := by
    decide +kernel
  obtain ⟨o, hopen, hafter⟩ := Option.map_eq_some_iff.mp hword
  cases o with
  | error fault m₀ => cases congrArg Prod.fst hafter
  | ok flow m₀ =>
    obtain ⟨hmode, hthen⟩ := Prod.mk.inj (congrArg Prod.snd hafter)
    have hname : Text.nextWord m.input = (some "W", " THEN".toList) := by decide
    have hcolon : m.dictionary.readAhead? ":" = some .colon := new_colon
    obtain ⟨-, hall⟩ := definition_all_or_nothing rfl hcolon hname hopen
    obtain ⟨hheld, -, hnext⟩ := hall m₀ (.opened hmode)
    obtain ⟨o, hrun, hcontinues⟩ := hnext "THEN" [] hthen
    exact ⟨m, m₀, flow, o, rfl, rfl, hopen, hheld, hrun, hcontinues⟩

end ForthMachine
