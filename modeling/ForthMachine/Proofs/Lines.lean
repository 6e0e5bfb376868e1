import ForthMachine.Machine.Interpreter
import ForthMachine.Proofs.Runs
import ForthMachine.Proofs.Words

/-!
# Lines word by word

Whatever a word does, the text left is an end of the text there was. So a line is dispatched word
by word up to its end, and the number of its characters is never in the way. Reachable machines
are those that answering lines leads to, from a new machine.
-/

set_option autoImplicit false

namespace ForthMachine

open Machine

namespace Text

theorem nextWord_suffix (text : List Char) : (nextWord text).2 <:+ text := by
  have hblanks := List.dropWhile_suffix (l := text) isBlank
  unfold nextWord
  split
  · exact List.nil_suffix
  · rename_i c rest hdrop
    rw [hdrop] at hblanks
    exact ((List.dropWhile_suffix _).trans (List.suffix_cons c rest)).trans hblanks

theorem splitAt_suffix (stop : Char) (text : List Char) : (splitAt stop text).2 <:+ text :=
  (List.drop_suffix _ _).trans (List.dropWhile_suffix _)

end Text

/-- Text is read from its front. -/
def Reads (m m' : Machine) : Prop := m'.input <:+ m.input

theorem Reads.trans {m₁ m₂ m₃ : Machine} (h : Reads m₁ m₂) (h' : Reads m₂ m₃) : Reads m₁ m₃ :=
  List.IsSuffix.trans h' h

theorem Reads.of_input_eq {m m' : Machine} (h : m'.input = m.input) : Reads m m' :=
  show m'.input <:+ m.input from h ▸ List.suffix_refl m'.input

/-- What shaping a definition leaves alone, whatever it does to the stacks. -/
structure Quiet (m m' : Machine) : Prop where
  input : m'.input = m.input
  output : m'.output = m.output
  exiting : m'.exiting = m.exiting
  level : m'.log.level = m.log.level
  depth : m'.depth = m.depth

theorem Quiet.refl (m : Machine) : Quiet m m := ⟨rfl, rfl, rfl, rfl, rfl⟩

theorem Quiet.trans {m₁ m₂ m₃ : Machine} (h : Quiet m₁ m₂) (h' : Quiet m₂ m₃) : Quiet m₁ m₃ :=
  ⟨h'.input.trans h.input, h'.output.trans h.output, h'.exiting.trans h.exiting,
    h'.level.trans h.level, h'.depth.trans h.depth⟩

theorem Quiet.reads {m m' : Machine} (h : Quiet m m') : Reads m m' :=
  .of_input_eq h.input

namespace Action.Obeys

variable {α β : Type}

theorem andThen {first : Action α} {next : α → Action β} (hfirst : Obeys Quiet first)
    (hnext : ∀ a, Obeys Quiet (next a)) : Obeys Quiet (first >>= next) :=
  Obeys.bind Quiet @Quiet.trans hfirst hnext

theorem pure (a : α) : Obeys Quiet (Pure.pure a : Action α) := Quiet.refl

theorem fail (fault : Fault) : Obeys Quiet (Machine.fail fault : Action α) := Quiet.refl

theorem tell (level : Level) (context text : String) (detail : Option Detail) :
    Obeys Quiet (Machine.tell level context text detail) :=
  fun _ => ⟨rfl, rfl, rfl, Log.add_level _ _, rfl⟩

theorem openStructure (opener : Opener) : Obeys Quiet (ForthMachine.openStructure opener) := by
  intro m
  unfold ForthMachine.openStructure
  split <;> exact ⟨rfl, rfl, rfl, rfl, rfl⟩

theorem closeStructure (opener : Opener) (others : List Opener) :
    Obeys Quiet (ForthMachine.closeStructure opener others) := by
  intro m
  unfold ForthMachine.closeStructure
  split
  · exact Quiet.refl m
  · split
    · exact ⟨rfl, rfl, rfl, rfl, rfl⟩
    · split <;> exact Quiet.refl m

theorem compileToken (token : Token) : Obeys Quiet (ForthMachine.compileToken token) :=
  fun _ => ⟨rfl, rfl, rfl, rfl, rfl⟩

theorem popPending (opener : Opener) : Obeys Quiet (Machine.popPending opener) := by
  intro m
  unfold Machine.popPending
  rw [Outcome.machine_leaving]
  exact ⟨rfl, rfl, rfl, rfl, rfl⟩

theorem closeLoop (step : Step) : Obeys Quiet (ForthMachine.closeLoop step) :=
  (closeStructure _ _).andThen fun _ => (popPending _).andThen fun _ => compileToken _

theorem closeDefinition : Obeys Quiet ForthMachine.closeDefinition := by
  refine (closeStructure _ _).andThen fun _ => (popPending _).andThen fun body => ?_
  unfold installDefinition
  refine andThen (fun m => Quiet.refl m) fun m => ?_
  cases m.compiling with
  | none => exact fail _
  | some name =>
    refine andThen (fun m => ⟨rfl, rfl, rfl, rfl, rfl⟩) fun _ =>
      andThen (fun m => Quiet.refl m) fun m => ?_
    dsimp only
    split
    · exact (tell _ _ _ _).andThen fun _ => (tell _ _ _ _).andThen
        fun _ m => ⟨rfl, rfl, rfl, rfl, rfl⟩
    · exact (tell _ _ _ _).andThen fun _ m => ⟨rfl, rfl, rfl, rfl, rfl⟩

theorem structural (s : Structural) : Obeys Quiet s.effect := by
  cases s with
  | semicolon => exact closeDefinition
  | ifWord | doWord | beginWord => exact openStructure _
  | elseWord => exact (closeStructure _ _).andThen fun _ => openStructure _
  | thenWord =>
    refine (closeStructure _ _).andThen fun opener => ?_
    dsimp only
    split
    · exact (popPending _).andThen fun _ => (popPending _).andThen fun _ => compileToken _
    · exact (pure []).andThen fun _ => (popPending _).andThen fun _ => compileToken _
  | loopWord | plusLoop => exact closeLoop _
  | untilWord =>
    exact (closeStructure _ _).andThen fun _ => (popPending _).andThen fun _ => compileToken _
  | whileWord =>
    exact (closeStructure _ _).andThen fun _ =>
      andThen (fun _ => ⟨rfl, rfl, rfl, rfl, rfl⟩) fun _ => openStructure _
  | repeatWord =>
    exact (closeStructure _ _).andThen fun _ => (closeStructure _ _).andThen fun _ =>
      (popPending _).andThen fun _ => (popPending _).andThen fun _ => compileToken _
  | leaveWord => exact compileToken _

end Action.Obeys

/-- A word that runs at once, with nothing around it to leave. -/
def outsideLoops : Outcome Flow → Outcome Flow
  | .ok .leave m => .error .notLooping m
  | o => o

@[simp] theorem machine_outsideLoops (o : Outcome Flow) : (outsideLoops o).machine = o.machine := by
  unfold outsideLoops
  split <;> rfl

/-- The words that mean something inside a run. -/
def Behavior.Runs : Behavior → Prop
  | .primitive _ | .definition _ => True
  | _ => False

instance : DecidablePred Behavior.Runs
  | .primitive _ | .definition _ => isTrue trivial
  | .structural _ | .readAhead _ | .comment _ => isFalse id

theorem interpret_call_of_runs (bounds : Bounds) {word : Word} (h : word.behavior.Runs)
    (m : Machine) :
    interpret bounds (.call word) m = (callWord bounds word m).map outsideLoops := by
  cases hb : word.behavior with
  | primitive _ | definition _ =>
    simp only [interpret, hb]
    rcases callWord bounds word m with - | ⟨flow, m'⟩ | ⟨fault, m'⟩
    · rfl
    · cases flow <;> rfl
    · rfl
  | structural s => simp [hb, Behavior.Runs] at h
  | readAhead r => simp [hb, Behavior.Runs] at h
  | comment c => simp [hb, Behavior.Runs] at h

/-- What is done at once with a token: it is pushed, it runs, it reads on in the line, or there is
no use for it. -/
inductive Interprets (bounds : Bounds) (m : Machine) : Token → Option (Outcome Flow) → Prop where
  | pushes (n : Int64) : Interprets bounds m (.number n)
      (some (.ok .next { m with stack := .value n :: m.stack }))
  | runs {word : Word} (runs : word.behavior.Runs) :
      Interprets bounds m (.call word) ((callWord bounds word m).map outsideLoops)
  | readsAhead {word : Word} {r : ReadAhead} (behavior : word.behavior = .readAhead r) :
      Interprets bounds m (.call word)
        (some ((do tell .debug "interpret" r.name none; r.effect; return .next : Action Flow) m))
  | skips {word : Word} {c : Comment} (behavior : word.behavior = .comment c) :
      Interprets bounds m (.call word)
        (some ((do tell .debug "interpret" c.name none; c.effect; return .next : Action Flow) m))
  | compileOnly {word : Word} {s : Structural} (behavior : word.behavior = .structural s) :
      Interprets bounds m (.call word) (some (.error .compileOnly m))
  | undefined (name : String) :
      Interprets bounds m (.unresolved name) (some (.error (.undefinedWord name) m))
  | unknown (token : Token) : Interprets bounds m token (some (.error (.unknownToken token.text) m))

theorem interpret_cases (bounds : Bounds) (token : Token) (m : Machine) :
    Interprets bounds m token (interpret bounds token m) := by
  cases token with
  | number n => exact .pushes n
  | call word =>
    by_cases hruns : word.behavior.Runs
    · rw [interpret_call_of_runs bounds hruns]
      exact .runs hruns
    · cases hb : word.behavior with
      | primitive p | definition body => simp [hb, Behavior.Runs] at hruns
      | structural s =>
        simp only [interpret, hb]
        exact .compileOnly hb
      | readAhead r =>
        simp only [interpret, hb]
        exact .readsAhead hb
      | comment c =>
        simp only [interpret, hb]
        exact .skips hb
  | unresolved name => exact .undefined name
  | counted body step | branch ifTrue ifFalse | indefinite condition body | leave =>
    exact .unknown _

theorem readWord_of_nextWord {m : Machine} {word : Option String} {rest : List Char}
    (h : Text.nextWord m.input = (word, rest)) :
    readWord m = .ok word { m with input := rest } := by
  simp [readWord, h]

theorem readWord_reads : Action.Obeys Reads readWord :=
  fun m => Text.nextWord_suffix m.input

theorem openDefinition_reads : Action.Obeys Reads openDefinition := by
  refine Action.Obeys.bind Reads @Reads.trans readWord_reads fun word => ?_
  intro m
  cases word with
  | none => exact List.suffix_refl _
  | some name =>
    refine Quiet.reads (Action.Obeys.andThen (.tell _ _ _ _) (fun _ => .andThen ?_ fun _ => ?_) m)
    · exact fun m => ⟨rfl, rfl, rfl, rfl, rfl⟩
    · exact .openStructure _

theorem machine_describeNextWord (m : Machine) :
    ∃ output, Outcome.machine (describeNextWord m) =
      { m with input := (Text.nextWord m.input).2, output } := by
  rcases hnext : Text.nextWord m.input with ⟨word, rest⟩
  unfold describeNextWord
  rw [Action.bind_of_ok (readWord_of_nextWord hnext)]
  cases word with
  | none => exact ⟨m.output, rfl⟩
  | some name =>
    dsimp only
    rw [Action.bind_of_ok (by rfl)]
    dsimp only
    cases m.dictionary.find? name with
    | none => exact ⟨m.output, rfl⟩
    | some word => exact ⟨_, rfl⟩

theorem describeNextWord_reads : Action.Obeys Reads describeNextWord := by
  intro m
  obtain ⟨output, hdescribed⟩ := machine_describeNextWord m
  rw [hdescribed]
  exact Text.nextWord_suffix m.input

theorem readAhead_reads (r : ReadAhead) : Action.Obeys Reads r.effect := by
  cases r with
  | colon => exact openDefinition_reads
  | see => exact describeNextWord_reads

theorem comment_reads (c : Comment) : Action.Obeys Reads c.effect := by
  cases c with
  | paren => exact fun m => Text.splitAt_suffix ')' m.input
  | backslash => exact fun m => Text.splitAt_suffix '\n' m.input

theorem told_reads {effect : Action Unit} (h : Action.Obeys Reads effect) (context name : String) :
    Action.Obeys Reads (do tell .debug context name none; effect; return .next : Action Flow) :=
  Action.Obeys.bind Reads @Reads.trans (fun m => List.suffix_refl m.input) fun _ =>
    Action.Obeys.bind Reads @Reads.trans h fun _ m => List.suffix_refl m.input

theorem interpret_reads (bounds : Bounds) (token : Token) :
    Run.Obeys Reads (interpret bounds token) := by
  intro m o hrun
  have hcases := interpret_cases bounds token m
  generalize interpret bounds token m = result at hrun hcases
  cases hcases with
  | pushes n | compileOnly _ | undefined _ | unknown _ =>
    cases hrun
    exact List.suffix_refl _
  | runs hruns =>
    obtain ⟨o', hcall, rfl⟩ := Option.map_eq_some_iff.mp hrun
    rw [machine_outsideLoops]
    exact .of_input_eq (undisturbed_stepLaw.callWord bounds _ hcall).input
  | @readsAhead _ r _ =>
    cases hrun
    exact told_reads (readAhead_reads r) _ _ m
  | @skips _ c _ =>
    cases hrun
    exact told_reads (comment_reads c) _ _ m

theorem compile_reads (token : Token) : Action.Obeys Reads (compile token) := by
  cases token with
  | number n => exact fun m => List.suffix_refl m.input
  | call word =>
    cases hb : word.behavior with
    | primitive _ | definition _ =>
      simp only [compile, hb]
      exact fun m => List.suffix_refl m.input
    | structural s =>
      simp only [compile, hb]
      exact told_reads (fun m => (Action.Obeys.structural s m).reads) _ _
    | readAhead r =>
      simp only [compile, hb]
      exact fun m => List.suffix_refl m.input
    | comment c =>
      simp only [compile, hb]
      exact told_reads (comment_reads c) _ _
  | unresolved name | counted body step | branch ifTrue ifFalse | indefinite condition body
  | leave =>
    exact fun m => List.suffix_refl m.input

theorem dispatch_reads (bounds : Bounds) (word : String) :
    Run.Obeys Reads (dispatch bounds word) := by
  intro m o h
  unfold dispatch at h
  split at h
  · exact interpret_reads bounds _ h
  · cases h
    exact compile_reads _ m

def resume (bounds : Bounds) : Outcome Flow → Option (Outcome Flow)
  | .error fault m => some (.error fault m)
  | .ok .quit m => some (.ok .quit m)
  | .ok _ m => runInput bounds m

theorem runWords_succ (bounds : Bounds) (count : Nat) {m : Machine} {word : String}
    {rest : List Char} (h : Text.nextWord m.input = (some word, rest)) :
    runWords bounds (count + 1) m =
      match dispatch bounds word { m with input := rest } with
      | none => none
      | some (.error fault m) => some (.error fault m)
      | some (.ok .quit m) => some (.ok .quit m)
      | some (.ok _ m) => runWords bounds count m := by
  rw [runWords]
  split
  · rename_i hnone
    rw [h] at hnone
    cases hnone
  · rename_i hsome
    rw [h] at hsome
    cases hsome
    rfl

theorem runWords_of_none (bounds : Bounds) (count : Nat) {m : Machine}
    (h : Text.nextWord m.input = (none, [])) :
    runWords bounds (count + 1) m = some (.ok .next { m with input := [] }) := by
  rw [runWords]
  split
  · rename_i hnone
    rw [h] at hnone
    cases hnone
    rfl
  · rename_i hsome
    rw [h] at hsome
    cases hsome

/-- The count is only there to end the recursion: the length of the text is always enough. -/
theorem runWords_eq_runWords (bounds : Bounds) {count count' : Nat} {m : Machine}
    (h : m.input.length ≤ count) (h' : m.input.length ≤ count') :
    runWords bounds count m = runWords bounds count' m := by
  induction count generalizing count' m with
  | zero =>
    have hnil : m.input = [] := List.length_eq_zero_iff.mp (Nat.le_zero.mp h)
    cases count' with
    | zero => rfl
    | succ count' =>
      rw [runWords_of_none bounds count' (by rw [hnil]; rfl), ← hnil]
      rfl
  | succ count ih =>
    cases count' with
    | zero =>
      have hnil : m.input = [] := List.length_eq_zero_iff.mp (Nat.le_zero.mp h')
      rw [runWords_of_none bounds count (by rw [hnil]; rfl), ← hnil]
      rfl
    | succ count' =>
      rcases hnext : Text.nextWord m.input with ⟨word, rest⟩
      cases word with
      | none =>
        have hnone := Text.nextWord_of_words_nil (Text.words_of_nextWord_none hnext)
        rw [runWords_of_none bounds count hnone, runWords_of_none bounds count' hnone]
      | some word =>
        have hlt := Text.length_nextWord_lt hnext
        rw [runWords_succ bounds count hnext, runWords_succ bounds count' hnext]
        rcases hrun : dispatch bounds word { m with input := rest } with
          - | ⟨flow, m'⟩ | ⟨fault, m'⟩
        · rfl
        · have hle : m'.input.length ≤ rest.length := (dispatch_reads bounds word hrun).length_le
          cases flow with
          | quit => rfl
          | next | leave => exact ih (by omega) (by omega)
        · rfl

theorem runInput_of_nil {bounds : Bounds} {m : Machine} (h : Text.words m.input = []) :
    runInput bounds m = some (.ok .next { m with input := [] }) := by
  unfold runInput
  rw [runWords_eq_runWords bounds (Nat.le_refl _) (Nat.le_succ _),
    runWords_of_none bounds _ (Text.nextWord_of_words_nil h)]

theorem runInput_of_nextWord {bounds : Bounds} {m : Machine} {word : String} {rest : List Char}
    (h : Text.nextWord m.input = (some word, rest)) :
    runInput bounds m = (dispatch bounds word { m with input := rest }).bind (resume bounds) := by
  unfold runInput
  rw [runWords_eq_runWords bounds (Nat.le_refl _) (Nat.le_succ _), runWords_succ bounds _ h]
  have hlt := Text.length_nextWord_lt h
  rcases hrun : dispatch bounds word { m with input := rest } with - | ⟨flow, m'⟩ | ⟨fault, m'⟩
  · rfl
  · have hle : m'.input.length ≤ rest.length := (dispatch_reads bounds word hrun).length_le
    cases flow with
    | quit => rfl
    | next | leave => exact runWords_eq_runWords bounds (by omega) (Nat.le_refl _)
  · rfl

/-- The machine at the start of a line. -/
def Machine.reading (m : Machine) (line : String) : Machine :=
  { m with input := line.toList, output := "" }

theorem evaluate_of_next {bounds : Bounds} {m m' : Machine} {line : String}
    (hrun : runInput bounds (m.reading line) = some (.ok .next m')) (houtput : m'.output = "") :
    evaluate bounds m line =
      some (if m'.mode = .compile then " compiled" else " ok", { m' with output := "" }) := by
  refine (congrArg (Option.map answer) hrun).trans ?_
  cases hmode : m'.mode <;> simp [answer, houtput, hmode]

theorem evaluate_of_error {bounds : Bounds} {m m' : Machine} {line : String} {fault : Fault}
    (hrun : runInput bounds (m.reading line) = some (.error fault m')) (houtput : m'.output = "") :
    ∃ m₁, evaluate bounds m line = some (" ? " ++ fault.message, m₁) ∧
      m₁.dictionary = m'.dictionary := by
  refine ⟨(answer (.error fault m')).2, (congrArg (Option.map answer) hrun).trans ?_, rfl⟩
  simp [answer, houtput]

/-- What the evaluation of the text comes to after some of its words. -/
inductive Advances (bounds : Bounds) (m : Machine) : Machine → Prop where
  | refl : Advances bounds m m
  | word {m₁ m₂ : Machine} {word : String} {rest : List Char} {flow : Flow}
      (before : Advances bounds m m₁) (read : Text.nextWord m₁.input = (some word, rest))
      (taken : dispatch bounds word { m₁ with input := rest } = some (.ok flow m₂))
      (goesOn : flow ≠ .quit) : Advances bounds m m₂

theorem Advances.trans {bounds : Bounds} {m₁ m₂ m₃ : Machine} (h : Advances bounds m₁ m₂)
    (h' : Advances bounds m₂ m₃) : Advances bounds m₁ m₃ := by
  induction h' with
  | refl => exact h
  | word before read taken goesOn ih => exact ih.word read taken goesOn

theorem Advances.cases_first {bounds : Bounds} {m m₁ : Machine} (h : Advances bounds m m₁) :
    m₁ = m ∨ ∃ word rest flow m₂, Text.nextWord m.input = (some word, rest) ∧
      dispatch bounds word { m with input := rest } = some (.ok flow m₂) ∧ flow ≠ .quit ∧
      Advances bounds m₂ m₁ := by
  induction h with
  | refl => exact .inl rfl
  | word before read taken goesOn ih =>
    right
    rcases ih with rfl | ⟨word, rest, flow, m₂, hfirst, htaken, hflow, hadvances⟩
    · exact ⟨_, _, _, _, read, taken, goesOn, .refl⟩
    · exact ⟨word, rest, flow, m₂, hfirst, htaken, hflow, hadvances.word read taken goesOn⟩

theorem Advances.runInput_eq {bounds : Bounds} {m m₁ : Machine} (h : Advances bounds m m₁) :
    runInput bounds m = runInput bounds m₁ := by
  induction h with
  | refl => rfl
  | @word m₁ m₂ word rest flow before read taken goesOn ih =>
    rw [ih, runInput_of_nextWord read, taken]
    cases flow with
    | quit => exact absurd rfl goesOn
    | next | leave => rfl

/-- The run does not go on with the next word. -/
def Outcome.Stops : Outcome Flow → Prop
  | .ok flow _ => flow = .quit
  | .error _ _ => True

instance : DecidablePred Outcome.Stops
  | .ok flow _ => inferInstanceAs (Decidable (flow = .quit))
  | .error _ _ => isTrue trivial

theorem resume_of_stops (bounds : Bounds) {o : Outcome Flow} (h : o.Stops) :
    resume bounds o = some o := by
  cases o with
  | ok flow m =>
    obtain rfl : flow = .quit := h
    rfl
  | error fault m => rfl

/-- How the words of a line come to an end: at one that stops the run, or because there are no
more of them, or because enough of them have been counted. -/
theorem runWords_cases {bounds : Bounds} {count : Nat} {m : Machine} {o : Outcome Flow}
    (hrun : runWords bounds count m = some o) :
    ∃ m₁, Advances bounds m m₁ ∧
      ((∃ word rest, Text.nextWord m₁.input = (some word, rest) ∧
          dispatch bounds word { m₁ with input := rest } = some o ∧ o.Stops) ∨
        (Text.words m₁.input = [] ∧ o = .ok .next { m₁ with input := [] }) ∨
        (m₁.input.length + count ≤ m.input.length ∧ o = .ok .next m₁)) := by
  induction count generalizing m with
  | zero =>
    cases hrun
    exact ⟨m, .refl, .inr (.inr ⟨Nat.le_refl _, rfl⟩)⟩
  | succ count ih =>
    rcases hnext : Text.nextWord m.input with ⟨word, rest⟩
    cases word with
    | none =>
      have hwords := Text.words_of_nextWord_none hnext
      rw [runWords_of_none bounds count (Text.nextWord_of_words_nil hwords)] at hrun
      cases hrun
      exact ⟨m, .refl, .inr (.inl ⟨hwords, rfl⟩)⟩
    | some word =>
      rw [runWords_succ bounds count hnext] at hrun
      rcases hdispatch : dispatch bounds word { m with input := rest } with
        - | ⟨flow, m₁⟩ | ⟨fault, m₁⟩
      · rw [hdispatch] at hrun
        cases hrun
      · rw [hdispatch] at hrun
        have hfirst (hflow : flow ≠ .quit) : Advances bounds m m₁ :=
          Advances.refl.word hnext hdispatch hflow
        cases flow with
        | quit =>
          cases hrun
          exact ⟨m, .refl, .inl ⟨word, rest, hnext, hdispatch, rfl⟩⟩
        | next | leave =>
          obtain ⟨m₂, hadvances, hend⟩ := ih hrun
          refine ⟨m₂, (hfirst nofun).trans hadvances, hend.imp_right fun hend => ?_⟩
          refine hend.imp_right fun ⟨hlength, ho⟩ => ⟨?_, ho⟩
          have hlt := Text.length_nextWord_lt hnext
          have hle : m₁.input.length ≤ rest.length :=
            (dispatch_reads bounds word hdispatch).length_le
          omega
      · rw [hdispatch] at hrun
        cases hrun
        exact ⟨m, .refl, .inl ⟨word, rest, hnext, hdispatch, trivial⟩⟩

theorem runWords_error {bounds : Bounds} {count : Nat} {m m' : Machine} {fault : Fault}
    (hrun : runWords bounds count m = some (.error fault m')) :
    ∃ m₁ word rest, Advances bounds m m₁ ∧ Text.nextWord m₁.input = (some word, rest) ∧
      dispatch bounds word { m₁ with input := rest } = some (.error fault m') := by
  obtain ⟨m₁, hadvances, ⟨word, rest, hnext, hfailing, -⟩ | ⟨-, ho⟩ | ⟨-, ho⟩⟩ :=
    runWords_cases hrun
  · exact ⟨m₁, word, rest, hadvances, hnext, hfailing⟩
  · cases ho
  · cases ho

theorem runInput_cases {bounds : Bounds} {m : Machine} {o : Outcome Flow}
    (hrun : runInput bounds m = some o) :
    ∃ m₁, Advances bounds m m₁ ∧
      ((∃ word rest, Text.nextWord m₁.input = (some word, rest) ∧
          dispatch bounds word { m₁ with input := rest } = some o ∧ o.Stops) ∨
        (Text.words m₁.input = [] ∧ o = .ok .next { m₁ with input := [] })) := by
  obtain ⟨m₁, hadvances, hstops | hwords | ⟨hlength, rfl⟩⟩ := runWords_cases hrun
  · exact ⟨m₁, hadvances, .inl hstops⟩
  · exact ⟨m₁, hadvances, .inr hwords⟩
  · have hnil : m₁.input = [] := List.length_eq_zero_iff.mp (by omega)
    refine ⟨m₁, hadvances, .inr ⟨by rw [hnil, Text.words_nil], ?_⟩⟩
    rw [← hnil]

def Outcome.fault? {α : Type} : Outcome α → Option Fault
  | .ok _ _ => none
  | .error fault _ => some fault

/-- What holds of the machine that is left: one thing after a success, another after a fault. -/
def Outcome.Leaves {α : Type} (P Q : Machine → Prop) : Outcome α → Prop
  | .ok _ m => P m
  | .error _ m => Q m

section Keeping

variable {bounds : Bounds} {P Q : Machine → Prop}
variable (hinput : ∀ {m : Machine} (text : List Char), P m → P { m with input := text })
variable (hword : ∀ {word : String} {m : Machine} {o : Outcome Flow}, Text.IsWord word → P m →
  dispatch bounds word m = some o → o.Leaves P Q)
include hinput hword

/-- What every word of a line keeps, the line keeps; a word that fails may leave less. -/
theorem runWords_keeps {count : Nat} {m : Machine} (h : P m) {o : Outcome Flow}
    (hrun : runWords bounds count m = some o) : o.Leaves P Q := by
  induction count generalizing m with
  | zero =>
    cases hrun
    exact h
  | succ count ih =>
    rcases hnext : Text.nextWord m.input with ⟨word, rest⟩
    cases word with
    | none =>
      have hnone := Text.nextWord_of_words_nil (Text.words_of_nextWord_none hnext)
      rw [runWords_of_none bounds count hnone] at hrun
      cases hrun
      exact hinput [] h
    | some word =>
      rw [runWords_succ bounds count hnext] at hrun
      rcases hdispatch : dispatch bounds word { m with input := rest } with - | o'
      · rw [hdispatch] at hrun
        cases hrun
      · have hleft := hword (Text.isWord_of_nextWord hnext) (hinput rest h) hdispatch
        rw [hdispatch] at hrun
        rcases o' with ⟨flow, m'⟩ | ⟨fault, m'⟩
        · cases flow with
          | quit =>
            cases hrun
            exact hleft
          | next | leave => exact ih hleft hrun
        · cases hrun
          exact hleft

theorem Advances.keeps {m m' : Machine} (hadvances : Advances bounds m m') (h : P m) : P m' := by
  induction hadvances with
  | refl => exact h
  | word before read taken goesOn ih =>
    exact hword (Text.isWord_of_nextWord read) (hinput _ ih) taken

/-- What the words of a line keep, the answer keeps, if it makes up for what a fault took away. -/
theorem evaluate_keeps (houtput : ∀ {m : Machine} (output : String), P m → P { m with output })
    (hfault : ∀ {m : Machine} {fault : Fault}, Q m → P (answer (.error fault m)).2)
    {m m' : Machine} (h : P m) {line response : String}
    (hline : evaluate bounds m line = some (response, m')) : P m' := by
  obtain ⟨o, hrun, hanswer⟩ := Option.map_eq_some_iff.mp hline
  have hleft := runWords_keeps hinput hword (hinput line.toList (houtput "" h)) hrun
  have hm' : (answer o).2 = m' := congrArg Prod.snd hanswer
  rw [← hm']
  cases o with
  | ok flow m₁ => exact houtput "" hleft
  | error fault m₁ => exact hfault hleft

end Keeping

/-- What a new machine can become by answering lines. Each loop of a line takes finitely many
passes, for the line to be answered. -/
inductive Reachable : Machine → Prop where
  | new : Reachable Machine.new
  | line {m m' : Machine} {text answer : String} (passes : Nat) (before : Reachable m)
      (answered : evaluate { passes } m text = some (answer, m')) : Reachable m'

end ForthMachine
