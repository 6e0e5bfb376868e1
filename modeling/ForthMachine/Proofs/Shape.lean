import ForthMachine.Proofs.Bodies

/-!
# The shape of a machine between lines

Both stacks serve the program and the compiler. Every word of a line leaves them either with values
only, or with the two readings of one sound draft on top of values. A word that fails leaves the
dictionary sound, and the rest is cleared.
-/

set_option autoImplicit false

namespace ForthMachine

open Machine

structure Compiling (m : Machine) (below : Machine) (name : String) (draft : Draft) : Prop where
  drafting : Drafting below name draft m
  draft : draft.Sound
  values : HoldsValues below
  name : Text.IsWord name

def Machine.InMode (m : Machine) : Prop :=
  (m.mode = .immediate ∧ m.compiling = none ∧ HoldsValues m) ∨
    ∃ below name draft, Compiling m below name draft

/-- A machine between two words of a line. -/
structure Steady (m : Machine) : Prop where
  depth : m.depth = 0
  dictionary : m.dictionary.Sound
  mode : m.InMode

namespace Steady

variable {m m' : Machine} {bounds : Bounds} {o : Outcome Flow}

theorem keep (h : Steady m) (hdepth : m'.depth = m.depth)
    (hdictionary : m'.dictionary = m.dictionary) (hmode : m'.mode = m.mode)
    (hcompiling : m'.compiling = m.compiling) (hvalues : HoldsValues m → HoldsValues m')
    (hdrafting : ∀ {below name draft}, Drafting below name draft m → Drafting below name draft m') :
    Steady m' := by
  refine ⟨hdepth.trans h.depth, ?_, ?_⟩
  · rw [hdictionary]
    exact h.dictionary
  · rcases h.mode with ⟨himmediate, hnone, hheld⟩ | ⟨below, name, draft, hopen⟩
    · exact .inl ⟨hmode.trans himmediate, hcompiling.trans hnone, hvalues hheld⟩
    · exact .inr ⟨below, name, draft, { hopen with drafting := hdrafting hopen.drafting }⟩

theorem withInput (h : Steady m) (text : List Char) : Steady { m with input := text } :=
  h.keep rfl rfl rfl rfl (fun h => { h with }) (·.withInput text)

theorem note (h : Steady m) (entry : Entry) : Steady (m.note entry) :=
  h.keep rfl rfl rfl rfl (fun h => { h with }) (·.note entry)

theorem withOutput (h : Steady m) (output : String) : Steady { m with output } :=
  h.keep rfl rfl rfl rfl (fun h => { h with }) fun h => { h with }

theorem of_immediate (h : Steady m) (hmode : m.mode = .immediate) :
    m.compiling = none ∧ HoldsValues m := by
  rcases h.mode with ⟨-, hcompiling, hvalues⟩ | ⟨below, name, draft, hcompiling⟩
  · exact ⟨hcompiling, hvalues⟩
  · rw [hcompiling.drafting.mode] at hmode
    cases hmode

theorem of_compile (h : Steady m) (hmode : m.mode = .compile) :
    ∃ below name draft, Compiling m below name draft := by
  rcases h.mode with ⟨himmediate, -, -⟩ | hcompiling
  · rw [himmediate] at hmode
    cases hmode
  · exact hcompiling

end Steady

def KeepsSteady (m m' : Machine) : Prop := Steady m → Steady m'

theorem KeepsSteady.trans (m₁ m₂ m₃ : Machine) (h : KeepsSteady m₁ m₂) (h' : KeepsSteady m₂ m₃) :
    KeepsSteady m₁ m₃ :=
  fun hm => h' (h hm)

theorem told_steady {effect : Action Unit} (h : Action.Obeys KeepsSteady effect)
    (context name : String) :
    Action.Obeys KeepsSteady
      (do tell .debug context name none; effect; return .next : Action Flow) :=
  Action.Obeys.bind KeepsSteady KeepsSteady.trans (fun _ hm => hm.note _) fun _ =>
    Action.Obeys.bind KeepsSteady KeepsSteady.trans h fun _ _ hm => hm

theorem comment_steady (c : Comment) : Action.Obeys KeepsSteady c.effect := by
  cases c with
  | paren | backslash => exact fun _ hm => hm.withInput _

theorem describeNextWord_steady : Action.Obeys KeepsSteady describeNextWord := by
  intro m hm
  obtain ⟨output, hdescribed⟩ := machine_describeNextWord m
  rw [hdescribed]
  exact (hm.withInput (Text.nextWord m.input).2).withOutput output

theorem Outcome.leaves_of_machine {α : Type} {P Q : Machine → Prop} {o : Outcome α}
    (h : P o.machine) (hfault : ∀ {m}, P m → Q m) : o.Leaves P Q := by
  cases o with
  | ok a m => exact h
  | error fault m => exact hfault h

/-- What a word leaves: a steady machine, or a fault and a sound dictionary. -/
def Outcome.Settles {α : Type} : Outcome α → Prop :=
  Outcome.Leaves Steady (·.dictionary.Sound)

theorem Steady.settles {α : Type} {o : Outcome α} (h : Steady o.machine) : o.Settles :=
  Outcome.leaves_of_machine h Steady.dictionary

theorem Outcome.Settles.andNext {first : Action Unit} {m : Machine}
    (h : Outcome.Settles (first m)) :
    Outcome.Settles ((do first; return .next : Action Flow) m) := by
  cases hfirst : first m with
  | ok a m' =>
    rw [hfirst] at h
    rw [Action.bind_of_ok hfirst]
    exact h
  | error fault m' =>
    rw [hfirst] at h
    rw [Action.bind_of_error hfirst]
    exact h

namespace Steady

variable {m : Machine} {bounds : Bounds} {o : Outcome Flow}

theorem callWord (h : Steady m) (hmode : m.mode = .immediate) {word : Word}
    (hrun : ForthMachine.callWord bounds word m = some o) : Steady o.machine := by
  obtain ⟨hcompiling, hvalues⟩ := h.of_immediate hmode
  have hsame := undisturbed_stepLaw.callWord bounds word hrun
  have hvalues' := holdsValues_stepLaw.callWord bounds word hrun hvalues
  refine ⟨hsame.depth.trans h.depth, ?_, .inl ⟨hsame.mode.trans hmode, ?_, hvalues'⟩⟩
  · rw [hsame.dictionary]
    exact h.dictionary
  · exact hsame.compiling.trans hcompiling

theorem openDefinition (h : Steady m) (hmode : m.mode = .immediate) :
    Outcome.Settles (ForthMachine.openDefinition m) := by
  obtain ⟨-, hvalues⟩ := h.of_immediate hmode
  rcases hnext : Text.nextWord m.input with ⟨word, text⟩
  cases word with
  | none =>
    unfold ForthMachine.openDefinition
    rw [Action.bind_of_ok (readWord_of_nextWord hnext)]
    exact h.dictionary
  | some name =>
    by_cases hroom : 0 < m.markLimit
    · obtain ⟨m', hopen, hdrafting, -, -, hdepth⟩ := openDefinition_of_room hnext hroom
      rw [hopen]
      refine ⟨hdepth.trans h.depth, ?_, .inr ⟨m, name, {}, hdrafting, .start, hvalues, ?_⟩⟩
      · rw [hdrafting.dictionary]
        exact h.dictionary
      · exact Text.isWord_of_nextWord hnext
    · rw [openDefinition_of_full hnext hroom]
      exact h.dictionary

theorem interpret (h : Steady m) (hmode : m.mode = .immediate) (token : Token)
    (hrun : ForthMachine.interpret bounds token m = some o) : o.Settles := by
  have hcases := interpret_cases bounds token m
  generalize ForthMachine.interpret bounds token m = result at hrun hcases
  cases hcases with
  | pushes n =>
    cases hrun
    obtain ⟨hcompiling, hvalues⟩ := h.of_immediate hmode
    exact ⟨h.depth, h.dictionary, .inl ⟨hmode, hcompiling, hvalues.stack.stacked [n],
      hvalues.returns⟩⟩
  | runs hruns =>
    obtain ⟨o', hcall, rfl⟩ := Option.map_eq_some_iff.mp hrun
    apply Steady.settles
    rw [machine_outsideLoops]
    exact h.callWord hmode hcall
  | @readsAhead _ r _ =>
    cases hrun
    cases r with
    | see => exact Steady.settles (told_steady describeNextWord_steady _ _ m h)
    | colon =>
      have hopen := (h.note ⟨.debug, "interpret", ":", none⟩).openDefinition hmode
      exact hopen.andNext
  | @skips _ c _ =>
    cases hrun
    exact Steady.settles (told_steady (comment_steady c) _ _ m h)
  | compileOnly _ | undefined _ | unknown _ =>
    cases hrun
    exact h.dictionary

theorem compile (h : Steady m) (hmode : m.mode = .compile) (word : String) :
    Outcome.Settles (ForthMachine.compile (classify m.dictionary word) m) := by
  obtain ⟨below, name, draft, hdrafting, hdraft, hvalues, hname⟩ := h.of_compile hmode
  have hbelow : below.dictionary.Sound := by
    rw [← hdrafting.dictionary]
    exact h.dictionary
  rw [hdrafting.dictionary]
  have hcases := hdrafting.compile_cases word
  generalize ForthMachine.compile (classify below.dictionary word) m = o at hcases ⊢
  cases hcases with
  | @taken draft' m' _ take drafting quiet =>
    refine ⟨quiet.depth.trans h.depth, ?_, .inr ⟨below, name, draft', drafting, ?_, hvalues,
      hname⟩⟩
    · rw [drafting.dictionary]
      exact hbelow
    · exact hdraft.take hbelow take
  | @skipped c m' _ drafting _ _ depth =>
    refine ⟨depth.trans h.depth, ?_, .inr ⟨below, name, draft, drafting, hdraft, hvalues, hname⟩⟩
    rw [drafting.dictionary]
    exact hbelow
  | @ended body m' _ complete defined quiet =>
    -- The values below the draft are all that is left on the stacks.
    refine ⟨quiet.depth.trans h.depth, ?_, .inl ⟨defined.mode, defined.compiling, ?_, ?_⟩⟩
    · rw [defined.dictionary]
      exact hbelow.install hname (hdraft.body complete)
    · rw [defined.stack]
      exact hvalues.stack
    · rw [defined.returns]
      exact hvalues.returns
  | @failed fault m' _ dictionary _ =>
    show m'.dictionary.Sound
    rw [dictionary]
    exact hbelow

theorem dispatch (h : Steady m) {word : String}
    (hrun : ForthMachine.dispatch bounds word m = some o) : o.Settles := by
  cases hmode : m.mode with
  | immediate =>
    rw [dispatch_of_immediate hmode] at hrun
    exact h.interpret hmode _ hrun
  | compile =>
    rw [dispatch_of_compile hmode] at hrun
    cases hrun
    exact h.compile hmode word

theorem advances (h : Steady m) {m' : Machine} (hadvances : Advances bounds m m') : Steady m' :=
  hadvances.keeps (fun text hm => hm.withInput text) (fun _ hm hword => hm.dispatch hword) h

theorem reading (h : Steady m) (line : String) : Steady (m.reading line) :=
  (h.withOutput "").withInput line.toList

theorem cleared {m : Machine} (h : m.dictionary.Sound) (fault : Fault) :
    Steady (answer (.error fault m)).2 :=
  ⟨rfl, h, .inl ⟨rfl, rfl, .nil, .nil⟩⟩

/-- Answering a line leaves a steady machine, whether the line succeeds or fails. -/
theorem evaluate (h : Steady m) {line text : String} {m' : Machine}
    (hline : ForthMachine.evaluate bounds m line = some (text, m')) : Steady m' :=
  ForthMachine.evaluate_keeps (fun text hm => hm.withInput text)
    (fun _ hm hword => hm.dispatch hword) (fun output hm => hm.withOutput output)
    (fun hsound => cleared hsound _) h hline

theorem evaluate_keeps {P Q : Machine → Prop}
    (htext : ∀ {m : Machine} (text : List Char) (output : String), P m →
      P { m with input := text, output })
    (hword : ∀ {word : String} {m : Machine} {o : Outcome Flow}, Steady m → P m →
      ForthMachine.dispatch bounds word m = some o → o.Leaves P Q)
    (hfault : ∀ {m : Machine} {fault : Fault}, Q m → P (answer (.error fault m)).2)
    (h : Steady m) (hm : P m) {line response : String} {m' : Machine}
    (hline : ForthMachine.evaluate bounds m line = some (response, m')) : P m' := by
  have hboth : Steady m' ∧ P m' := by
    refine ForthMachine.evaluate_keeps (P := fun m => Steady m ∧ P m)
      (Q := fun m => m.dictionary.Sound ∧ Q m) ?_ ?_ ?_ ?_ ⟨h, hm⟩ hline
    · exact fun {m} text hm => ⟨hm.1.withInput text, htext text m.output hm.2⟩
    · intro word m o _ ⟨hsteady, hm⟩ hdispatch
      have hsettles := hsteady.dispatch hdispatch
      have hkeeps := hword hsteady hm hdispatch
      cases o <;> exact ⟨hsettles, hkeeps⟩
    · exact fun {m} output hm => ⟨hm.1.withOutput output, htext m.input output hm.2⟩
    · exact fun hleft => ⟨cleared hleft.1 _, hfault hleft.2⟩
  exact hboth.2

end Steady

theorem Machine.new_steady : Steady Machine.new :=
  ⟨rfl, new_dictionary_sound, .inl ⟨rfl, rfl, .nil, .nil⟩⟩

theorem steady_of_reachable {m : Machine} (h : Reachable m) : Steady m := by
  induction h with
  | new => exact Machine.new_steady
  | line passes before answered ih => exact ih.evaluate answered

theorem output_of_reachable {m : Machine} (h : Reachable m) : m.output = "" := by
  cases h with
  | new => rfl
  | line passes before answered =>
    unfold evaluate at answered
    obtain ⟨o, -, hanswer⟩ := Option.map_eq_some_iff.mp answered
    have hend := congrArg Prod.snd hanswer
    rw [← show _ = m from hend]
    cases o <;> rfl

def Opener.onData : Opener → List Opener
  | .elseWord => [.elseWord, .ifWord]
  | opener => [opener]

/-- Every mark of a `WHILE` lies on the mark of its `BEGIN`. -/
def WhilesOnBegins : List Opener → Prop
  | [] => True
  | .whileWord :: marks => marks.head? = some .beginWord ∧ WhilesOnBegins marks
  | _ :: marks => WhilesOnBegins marks

def Cell.opener? : Cell → Option Opener
  | .opened opener => some opener
  | _ => none

/-- What may lie on the data stack above the mark of the colon. -/
def Cell.InDefinition (cell : Cell) : Prop :=
  (∃ token, cell = .pending token ∧ token.Sound) ∨ ∃ opener, cell = .opened opener

/-- The stacks while a definition is open: values, the mark of the colon, and then the marks of the
open structures, on the data stack with the tokens compiled between them. All lists are top first. -/
structure DefinitionShape (m : Machine) (marks : List Opener) (cells : List Cell) : Prop where
  returns : ∃ values, m.returns = marks.map .opened ++ .opened .colon :: values ∧ AreValues values
  stack : ∃ values, m.stack = cells ++ .opened .colon :: values ∧ AreValues values
  structures : .colon ∉ marks ∧ WhilesOnBegins marks
  tokens : ∀ cell ∈ cells, cell.InDefinition
  agree : cells.filterMap Cell.opener? = marks.flatMap Opener.onData

theorem mem_pendings {tokens : List Token} {cell : Cell} :
    cell ∈ pendings tokens ↔ ∃ token ∈ tokens, cell = .pending token := by
  simp only [pendings, List.mem_reverse, List.mem_map, eq_comm]

@[simp] theorem filterMap_opener?_pendings (tokens : List Token) :
    (pendings tokens).filterMap Cell.opener? = [] := by
  apply List.filterMap_eq_nil_iff.mpr
  intro cell hcell
  obtain ⟨token, -, rfl⟩ := mem_pendings.mp hcell
  rfl

namespace Context

variable (context : Context)

theorem colon_not_mem_marks : .colon ∉ context.marks := by
  cases context <;> simp [marks]

theorem whilesOnBegins_marks_append {rest : List Opener} (h : WhilesOnBegins rest) :
    WhilesOnBegins (context.marks ++ rest) := by
  cases context with
  | thenPart _ | elsePart _ _ | loopPart _ | beginPart _ => exact h
  | whilePart _ _ => exact ⟨rfl, h⟩

theorem filterMap_opener?_cells :
    context.cells.filterMap Cell.opener? = context.marks.flatMap Opener.onData := by
  cases context <;> simp [cells, marks, Cell.opener?, Opener.onData]

end Context

theorem inDefinition_of_mem_pendings {tokens : List Token} (h : Token.AllSound tokens) {cell : Cell}
    (hcell : cell ∈ pendings tokens) : cell.InDefinition := by
  obtain ⟨token, htoken, rfl⟩ := mem_pendings.mp hcell
  exact .inl ⟨token, rfl, Token.allSound_iff.mp h token htoken⟩

theorem Context.Sound.inDefinition {context : Context} (h : context.Sound) {cell : Cell}
    (hcell : cell ∈ context.cells) : cell.InDefinition := by
  cases context with
  | thenPart before | loopPart before | beginPart before =>
    rcases List.mem_cons.mp hcell with rfl | hcell
    · exact .inr ⟨_, rfl⟩
    · exact inDefinition_of_mem_pendings h hcell
  | elsePart before tokens | whilePart before tokens =>
    rcases List.mem_cons.mp hcell with rfl | hcell
    · exact .inr ⟨_, rfl⟩
    · rcases List.mem_append.mp hcell with hcell | hcell
      · exact inDefinition_of_mem_pendings h.2 hcell
      · rcases List.mem_cons.mp hcell with rfl | hcell
        · exact .inr ⟨_, rfl⟩
        · exact inDefinition_of_mem_pendings h.1 hcell

theorem Compiling.definitionShape {m below : Machine} {name : String} {draft : Draft}
    (h : Compiling m below name draft) :
    DefinitionShape m (draft.contexts.flatMap Context.marks)
      (pendings draft.current ++ draft.contexts.flatMap Context.cells) := by
  obtain ⟨hdrafting, hdraft, hvalues, -⟩ := h
  refine ⟨⟨below.returns, ?_, hvalues.returns⟩, ⟨below.stack, ?_, hvalues.stack⟩, ⟨?_, ?_⟩, ?_, ?_⟩
  · rw [hdrafting.returns]
    simp [Draft.marks]
  · rw [hdrafting.stack]
    simp [Draft.cells]
  · intro hmem
    obtain ⟨context, -, hcolon⟩ := List.mem_flatMap.mp hmem
    exact context.colon_not_mem_marks hcolon
  · induction draft.contexts with
    | nil => trivial
    | cons context outer ih => exact context.whilesOnBegins_marks_append ih
  · intro cell hcell
    rcases List.mem_append.mp hcell with hcell | hcell
    · exact inDefinition_of_mem_pendings hdraft.current hcell
    · obtain ⟨context, hcontext, hcell⟩ := List.mem_flatMap.mp hcell
      exact (hdraft.contexts context hcontext).inDefinition hcell
  · rw [List.filterMap_append, filterMap_opener?_pendings, List.nil_append]
    induction draft.contexts with
    | nil => rfl
    | cons context outer ih =>
      simp only [List.flatMap_cons, List.filterMap_append, List.flatMap_append,
        context.filterMap_opener?_cells, ih]

structure WellShaped (m : Machine) : Prop where
  depth : m.depth = 0
  output : m.output = ""
  immediate : m.mode = .immediate →
    m.compiling = none ∧ AreValues m.stack ∧ AreValues m.returns
  compile : m.mode = .compile →
    m.compiling.isSome ∧ ∃ marks cells, DefinitionShape m marks cells
  bodies : ∀ word ∈ m.dictionary.words, ∀ body, word.behavior = .definition body →
    Token.AllSound body

/-- However many lines a new machine has answered, and whatever they were. -/
theorem wellShaped_of_reachable {m : Machine} (h : Reachable m) : WellShaped m := by
  have hsteady := steady_of_reachable h
  refine ⟨hsteady.depth, output_of_reachable h, ?_, ?_, ?_⟩
  · intro hmode
    obtain ⟨hcompiling, hvalues⟩ := hsteady.of_immediate hmode
    exact ⟨hcompiling, hvalues.stack, hvalues.returns⟩
  · intro hmode
    obtain ⟨below, name, draft, hcompiling⟩ := hsteady.of_compile hmode
    refine ⟨?_, _, _, hcompiling.definitionShape⟩
    rw [hcompiling.drafting.compiling]
    rfl
  · intro word hword body hbody
    have hsound := (hsteady.dictionary.words word hword).behavior
    rw [hbody] at hsound
    exact hsound

/-- A definition that is open between two lines, with a loop open in a branch. -/
theorem wellShaped_of_open_definition :
    ∃ m, Reachable m ∧ m.mode = .compile ∧ WellShaped m := by
  have hline : ((evaluate { passes := 0 } Machine.new ": W 1 IF BEGIN DUP WHILE 2").map
      (·.2.mode)) = some .compile := by
    decide +kernel
  obtain ⟨⟨answer, m⟩, hanswered, hmode⟩ := Option.map_eq_some_iff.mp hline
  have hreachable : Reachable m := .line 0 .new hanswered
  exact ⟨m, hreachable, hmode, wellShaped_of_reachable hreachable⟩

end ForthMachine
