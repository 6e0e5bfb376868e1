import ForthMachine.Proofs.Faults
import ForthMachine.Proofs.Shape

/-!
# Faults of lines

Every fault that ends a line has a reason in the word that was dispatched last: the word was out of
place, the definition had no use for it, or a run that it started failed for want of operands or of
room. A word that closes a structure finds everything below the marks that it expects there.
-/

set_option autoImplicit false

namespace ForthMachine

open Machine

/-- Faults of words and tokens that are where they have no meaning. -/
def Fault.Misplaced : Fault → Prop
  | .undefinedWord _ | .unknownToken _ | .compileOnly | .interpretOnly => True
  | _ => False

theorem Fault.OfRun.not_misplaced {limit : Option Nat} {nesting depth : Nat} {fault : Fault}
    (h : fault.OfRun limit nesting depth) : ¬ fault.Misplaced := by
  intro hmisplaced
  rcases h with hprimitive | ⟨rfl, -⟩
  · cases fault <;> first | exact hprimitive | exact hmisplaced
  · exact hmisplaced

/-- Why the dispatcher fails at a word. -/
inductive Rejects (bounds : Bounds) (m : Machine) (word : String) : Fault → Prop where
  | run {entry : Word} {fault : Fault} (mode : m.mode = .immediate)
      (call : classify m.dictionary word = .call entry) (runs : entry.behavior.Runs)
      (fails : fault.OfRun bounds.nesting entry.nesting m.depth) : Rejects bounds m word fault
  | leave {entry : Word} (mode : m.mode = .immediate)
      (call : classify m.dictionary word = .call entry) (runs : entry.behavior.Runs) :
      Rejects bounds m word .notLooping
  | compileOnly {entry : Word} {s : Structural} (mode : m.mode = .immediate)
      (call : classify m.dictionary word = .call entry) (shapes : entry.behavior = .structural s) :
      Rejects bounds m word .compileOnly
  | noName {entry : Word} {r : ReadAhead} (mode : m.mode = .immediate)
      (call : classify m.dictionary word = .call entry) (reads : entry.behavior = .readAhead r)
      (ended : Text.words m.input = []) : Rejects bounds m word .noNameGiven
  | noRoom {entry : Word} (mode : m.mode = .immediate)
      (call : classify m.dictionary word = .call entry) (reads : entry.behavior = .readAhead .colon)
      (full : maxDepth ≤ m.returns.length) : Rejects bounds m word .tooDeep
  | nothingToSee {entry : Word} {name : String} {rest : List Char} (mode : m.mode = .immediate)
      (call : classify m.dictionary word = .call entry) (reads : entry.behavior = .readAhead .see)
      (named : Text.nextWord m.input = (some name, rest))
      (unknown : m.dictionary.find? name = none) : Rejects bounds m word (.undefinedWord name)
  | undefined (unknown : classify m.dictionary word = .unresolved word) :
      Rejects bounds m word (.undefinedWord word)
  | interpretOnly {entry : Word} {r : ReadAhead} (mode : m.mode = .compile)
      (call : classify m.dictionary word = .call entry) (reads : entry.behavior = .readAhead r) :
      Rejects bounds m word .interpretOnly
  | noStructureFits {entry : Word} {s : Structural} {fault : Fault} (mode : m.mode = .compile)
      (call : classify m.dictionary word = .call entry) (shapes : entry.behavior = .structural s)
      (fails : fault = .tooDeep ∨ (∃ opener, fault = .unclosed opener) ∨
        ∃ opener, fault = .missing opener ∧ opener ≠ .colon) : Rejects bounds m word fault

theorem Draft.mismatch_cases (draft : Draft) {wanted : Opener} (h : wanted ≠ .colon) :
    (∃ opener, draft.mismatch wanted = .unclosed opener) ∨
      ∃ opener, draft.mismatch wanted = .missing opener ∧ opener ≠ .colon := by
  unfold Draft.mismatch
  split
  · exact .inr ⟨wanted, rfl, h⟩
  · exact .inl ⟨_, rfl⟩

theorem Draft.shape_error {draft : Draft} {limit : Nat} {s : Structural} {fault : Fault}
    (h : draft.shape limit s = .error fault) :
    fault = .tooDeep ∨ (∃ opener, fault = .unclosed opener) ∨
      ∃ opener, fault = .missing opener ∧ opener ≠ .colon := by
  have hmismatch {wanted : Opener} (hwanted : wanted ≠ .colon) := draft.mismatch_cases hwanted
  cases s with
  | semicolon =>
    simp only [shape, body] at h
    split at h
    · cases h
    · cases h
      exact .inr (.inl ⟨_, rfl⟩)
  | ifWord | doWord | beginWord =>
    simp only [shape, descend] at h
    split at h <;> cases h
    exact .inl rfl
  | whileWord =>
    simp only [shape] at h
    split at h
    · split at h <;> cases h
      exact .inl rfl
    · cases h
      exact .inr (hmismatch (by decide))
  | elseWord | thenWord | untilWord | repeatWord =>
    simp only [shape] at h
    split at h <;> cases h
    exact .inr (hmismatch (by decide))
  | loopWord | plusLoop =>
    simp only [shape, closeLoop] at h
    split at h <;> cases h
    exact .inr (hmismatch (by decide))
  | leaveWord => cases h

theorem classify_cases (dictionary : Dictionary) (word : String) :
    (∃ n, classify dictionary word = .number n) ∨
      (∃ entry, classify dictionary word = .call entry) ∨
        classify dictionary word = .unresolved word := by
  unfold classify
  split
  · exact .inl ⟨_, rfl⟩
  · split
    · exact .inr (.inl ⟨_, rfl⟩)
    · exact .inr (.inr rfl)

section Dispatch

variable {bounds : Bounds} {m m' : Machine} {word : String} {fault : Fault}

theorem Steady.compile_error (h : Steady m) (hmode : m.mode = .compile)
    (hfail : ForthMachine.compile (classify m.dictionary word) m = .error fault m') :
    Rejects bounds m word fault := by
  obtain ⟨below, name, draft, hdrafting, -, -, -⟩ := h.of_compile hmode
  have hcases := hdrafting.compile_cases word
  rw [← hdrafting.dictionary, hfail] at hcases
  cases hcases with
  | failed htake hdictionary hquiet =>
    rw [← hdrafting.dictionary] at htake
    rcases classify_cases m.dictionary word with ⟨n, hclassify⟩ | ⟨entry, hclassify⟩ | hclassify
    · rw [hclassify] at htake
      cases htake
    · rw [hclassify] at htake
      cases hb : entry.behavior with
      | primitive _ | definition _ | comment _ =>
        simp only [Draft.take, hb] at htake
        cases htake
      | readAhead r =>
        simp only [Draft.take, hb] at htake
        cases htake
        exact .interpretOnly hmode hclassify hb
      | structural s =>
        simp only [Draft.take, hb] at htake
        exact .noStructureFits hmode hclassify hb (Draft.shape_error htake)
    · rw [hclassify] at htake
      cases htake
      exact .undefined hclassify

theorem openDefinition_error (hfail : openDefinition m = .error fault m') :
    (fault = .noNameGiven ∧ Text.words m.input = []) ∨
      (fault = .tooDeep ∧ maxDepth ≤ m.returns.length) := by
  rcases hnext : Text.nextWord m.input with ⟨name, rest⟩
  cases name with
  | none =>
    left
    unfold openDefinition at hfail
    rw [Action.bind_of_ok (readWord_of_nextWord hnext)] at hfail
    cases hfail
    exact ⟨rfl, Text.words_of_nextWord_none hnext⟩
  | some name =>
    right
    rw [openDefinition_of_nextWord hnext] at hfail
    unfold openStructure at hfail
    split at hfail
    · rename_i hfull
      cases hfail
      exact ⟨rfl, hfull⟩
    · cases hfail

theorem describeNextWord_error (hfail : describeNextWord m = .error fault m') :
    (fault = .noNameGiven ∧ Text.words m.input = []) ∨
      ∃ name rest, fault = .undefinedWord name ∧ Text.nextWord m.input = (some name, rest) ∧
        m.dictionary.find? name = none := by
  rcases hnext : Text.nextWord m.input with ⟨name, rest⟩
  unfold describeNextWord at hfail
  rw [Action.bind_of_ok (readWord_of_nextWord hnext)] at hfail
  cases name with
  | none =>
    cases hfail
    exact .inl ⟨rfl, Text.words_of_nextWord_none hnext⟩
  | some name =>
    dsimp only at hfail
    rw [Action.bind_of_ok (by rfl)] at hfail
    cases hfind : m.dictionary.find? name with
    | none =>
      simp only [hfind] at hfail
      cases hfail
      exact .inr ⟨name, rest, rfl, rfl, hfind⟩
    | some entry =>
      simp only [hfind] at hfail
      cases hfail

theorem andNext_error {first : Action Unit}
    (hfail : (do first; return .next : Action Flow) m = .error fault m') :
    first m = .error fault m' := by
  cases hfirst : first m with
  | ok a m₁ =>
    rw [Action.bind_of_ok hfirst] at hfail
    cases hfail
  | error fault' m₁ =>
    rw [Action.bind_of_error hfirst] at hfail
    cases hfail
    rfl

theorem Steady.interpret_error (h : Steady m) (hmode : m.mode = .immediate)
    (hfail : ForthMachine.interpret bounds (classify m.dictionary word) m =
      some (.error fault m')) : Rejects bounds m word fault := by
  obtain ⟨-, hvalues⟩ := h.of_immediate hmode
  rcases classify_cases m.dictionary word with ⟨n, hclassify⟩ | ⟨entry, hclassify⟩ | hclassify
  · rw [hclassify] at hfail
    cases hfail
  · rw [hclassify] at hfail
    by_cases hruns : entry.behavior.Runs
    · rw [interpret_call_of_runs bounds hruns] at hfail
      obtain ⟨o, hcall, houtside⟩ := Option.map_eq_some_iff.mp hfail
      rcases o with ⟨flow, m₁⟩ | ⟨fault', m₁⟩
      · cases flow <;> cases houtside
        exact .leave hmode hclassify hruns
      · cases houtside
        obtain ⟨hsound, -, -⟩ := classify_call h.dictionary hclassify
        exact .run hmode hclassify hruns (callWord_tame bounds entry hruns hsound hvalues hcall)
    · cases hb : entry.behavior with
      | primitive p => simp [hb, Behavior.Runs] at hruns
      | definition body => simp [hb, Behavior.Runs] at hruns
      | structural s =>
        simp only [ForthMachine.interpret, hb] at hfail
        cases hfail
        exact .compileOnly hmode hclassify hb
      | readAhead r =>
        simp only [ForthMachine.interpret, hb, Option.some.injEq] at hfail
        rw [Action.bind_of_ok (by rfl)] at hfail
        have heffect := andNext_error hfail
        cases r with
        | colon =>
          rcases openDefinition_error heffect with ⟨rfl, hended⟩ | ⟨rfl, hfull⟩
          · exact .noName hmode hclassify hb hended
          · exact .noRoom hmode hclassify hb hfull
        | see =>
          rcases describeNextWord_error heffect with ⟨rfl, hended⟩ | ⟨name, rest, rfl, hnext, hfind⟩
          · exact .noName hmode hclassify hb hended
          · exact .nothingToSee hmode hclassify hb hnext hfind
      | comment c =>
        simp only [ForthMachine.interpret, hb, Option.some.injEq] at hfail
        cases c <;> cases hfail
  · rw [hclassify] at hfail
    cases hfail
    exact .undefined hclassify

theorem Steady.dispatch_error (h : Steady m)
    (hfail : ForthMachine.dispatch bounds word m = some (.error fault m')) :
    Rejects bounds m word fault := by
  cases hmode : m.mode with
  | immediate =>
    rw [dispatch_of_immediate hmode] at hfail
    exact h.interpret_error hmode hfail
  | compile =>
    rw [dispatch_of_compile hmode] at hfail
    exact h.compile_error hmode (Option.some.inj hfail)

end Dispatch

/-- What words complain of that shape a definition or read on in the line. -/
def Fault.OfCompiler : Fault → Prop
  | .undefinedWord _ | .unknownToken _ | .interpretOnly | .noNameGiven | .unclosed _ | .missing _
  | .tooDeep => True
  | _ => False

def Action.FailsToCompile {α : Type} (action : Action α) : Prop :=
  ∀ ⦃m m' : Machine⦄ ⦃fault : Fault⦄, action m = .error fault m' → fault.OfCompiler

namespace Action.FailsToCompile

variable {α β : Type}

theorem of_ok {action : Action α} (h : ∀ m, ∃ a m', action m = .ok a m') :
    FailsToCompile action := by
  intro m m' fault hfail
  obtain ⟨a, m₁, hok⟩ := h m
  rw [hok] at hfail
  cases hfail

theorem fail {fault : Fault} (h : fault.OfCompiler) :
    FailsToCompile (Machine.fail fault : Action α) := by
  rintro m m' _ ⟨⟩
  exact h

theorem bind {first : Action α} {next : α → Action β} (hfirst : FailsToCompile first)
    (hnext : ∀ a, FailsToCompile (next a)) : FailsToCompile (first >>= next) := by
  intro m m' fault hfail
  cases hrun : first m with
  | ok a m₁ =>
    rw [Action.bind_of_ok hrun] at hfail
    exact hnext a hfail
  | error fault' m₁ =>
    rw [Action.bind_of_error hrun] at hfail
    cases hfail
    exact hfirst hrun

theorem told {level : Level} {context text : String} {detail : Option Detail} {next : Action α}
    (h : FailsToCompile next) :
    FailsToCompile (do Machine.tell level context text detail; next) :=
  bind (of_ok fun _ => ⟨_, _, rfl⟩) fun _ => h

theorem andNext {first : Action Unit} (h : FailsToCompile first) :
    FailsToCompile (do first; return .next : Action Flow) :=
  h.bind fun _ => of_ok fun _ => ⟨_, _, rfl⟩

theorem openStructure (opener : Opener) :
    FailsToCompile (ForthMachine.openStructure opener) := by
  intro m m' fault hfail
  unfold ForthMachine.openStructure at hfail
  split at hfail <;> cases hfail
  trivial

theorem closeStructure (opener : Opener) (others : List Opener) :
    FailsToCompile (ForthMachine.closeStructure opener others) := by
  intro m m' fault hfail
  unfold ForthMachine.closeStructure at hfail
  split at hfail
  · cases hfail
    trivial
  · split at hfail
    · cases hfail
    · split at hfail <;> cases hfail <;> trivial

theorem compileToken (token : Token) : FailsToCompile (ForthMachine.compileToken token) :=
  of_ok fun _ => ⟨_, _, rfl⟩

theorem popPending (opener : Opener) : FailsToCompile (Machine.popPending opener) := by
  intro m m' fault hfail
  have hresult : (splitPending opener [] m.stack).1 = .error fault := FaultLaw.of_leaving hfail
  generalize ([] : List Token) = compiled, m.stack = cells at hresult
  induction cells generalizing compiled with
  | nil =>
    cases hresult
    trivial
  | cons cell cells ih =>
    cases cell with
    | pending token => exact ih _ hresult
    | value n =>
      cases hresult
      trivial
    | opened other =>
      simp only [splitPending] at hresult
      split at hresult <;> cases hresult
      trivial

theorem closeDefinition : FailsToCompile ForthMachine.closeDefinition := by
  refine (closeStructure _ _).bind fun _ => (popPending _).bind fun body => ?_
  unfold installDefinition
  refine bind (of_ok fun m => ⟨m, m, rfl⟩) fun m => ?_
  cases m.compiling with
  | none => exact fail trivial
  | some name =>
    refine bind (of_ok fun _ => ⟨_, _, rfl⟩) fun _ =>
      bind (of_ok fun m => ⟨m, m, rfl⟩) fun m => ?_
    dsimp only
    split
    · exact told (told (of_ok fun _ => ⟨_, _, rfl⟩))
    · exact told (of_ok fun _ => ⟨_, _, rfl⟩)

theorem structural (s : Structural) : FailsToCompile s.effect := by
  cases s with
  | semicolon => exact closeDefinition
  | ifWord | doWord | beginWord => exact openStructure _
  | elseWord => exact (closeStructure _ _).bind fun _ => openStructure _
  | thenWord =>
    refine (closeStructure _ _).bind fun opener => ?_
    dsimp only
    split
    · exact (popPending _).bind fun _ => (popPending _).bind fun _ => compileToken _
    · exact (popPending _).bind fun _ => compileToken _
  | loopWord | plusLoop | untilWord =>
    exact (closeStructure _ _).bind fun _ => (popPending _).bind fun _ => compileToken _
  | whileWord =>
    exact (closeStructure _ _).bind fun _ =>
      bind (of_ok fun _ => ⟨_, _, rfl⟩) fun _ => openStructure _
  | repeatWord =>
    exact (closeStructure _ _).bind fun _ => (closeStructure _ _).bind fun _ =>
      (popPending _).bind fun _ => (popPending _).bind fun _ => compileToken _
  | leaveWord => exact compileToken _

end Action.FailsToCompile

theorem Comment.effect_fails (c : Comment) : c.effect.FailsToCompile := by
  cases c with
  | paren => exact .of_ok fun _ => ⟨_, _, rfl⟩
  | backslash => exact .of_ok fun _ => ⟨_, _, rfl⟩

theorem ReadAhead.effect_fails (r : ReadAhead) : r.effect.FailsToCompile := by
  intro m m' fault hfail
  cases r with
  | colon => rcases openDefinition_error hfail with ⟨rfl, -⟩ | ⟨rfl, -⟩ <;> trivial
  | see => rcases describeNextWord_error hfail with ⟨rfl, -⟩ | ⟨name, rest, rfl, -⟩ <;> trivial

theorem compile_fails (token : Token) : (ForthMachine.compile token).FailsToCompile := by
  cases token with
  | number n => exact (Action.FailsToCompile.compileToken _).andNext
  | call word =>
    cases hb : word.behavior with
    | primitive _ | definition _ =>
      simp only [ForthMachine.compile, hb]
      exact (Action.FailsToCompile.compileToken _).andNext
    | structural s =>
      simp only [ForthMachine.compile, hb]
      exact (Action.FailsToCompile.structural s).andNext.told
    | comment c =>
      simp only [ForthMachine.compile, hb]
      exact c.effect_fails.andNext.told
    | readAhead _ =>
      simp only [ForthMachine.compile, hb]
      exact .fail trivial
  | unresolved _ | counted _ _ | branch _ _ | indefinite _ _ | leave => exact .fail trivial

namespace Structural

/-- The first part of what a word does that shapes a definition: it closes the structures that end
there, and names the marks above which it takes tokens, the topmost first. -/
def closing : Structural → Action (List Opener)
  | semicolon => do
    let _ ← closeStructure .colon []
    return [.colon]
  | elseWord => do
    let _ ← closeStructure .ifWord []
    return []
  | thenWord => do
    match ← closeStructure .ifWord [.elseWord] with
    | .elseWord => return [.elseWord, .ifWord]
    | _ => return [.ifWord]
  | loopWord | plusLoop => do
    let _ ← closeStructure .doWord []
    return [.doWord]
  | untilWord => do
    let _ ← closeStructure .beginWord []
    return [.beginWord]
  | whileWord => do
    let _ ← closeStructure .beginWord []
    return []
  | repeatWord => do
    let _ ← closeStructure .whileWord []
    let _ ← closeStructure .beginWord []
    return [.whileWord, .beginWord]
  | ifWord | doWord | beginWord | leaveWord => return []

def folding : Structural → List (List Token) → Action Unit
  | semicolon, [body] => installDefinition body
  | ifWord, _ => openStructure .ifWord
  | elseWord, _ => openStructure .elseWord
  | thenWord, [ifTrue] => compileToken (.branch ifTrue [])
  | thenWord, [ifFalse, ifTrue] => compileToken (.branch ifTrue ifFalse)
  | doWord, _ => openStructure .doWord
  | loopWord, [body] => compileToken (.counted body (.fixed 1))
  | plusLoop, [body] => compileToken (.counted body .fromStack)
  | beginWord, _ => openStructure .beginWord
  | untilWord, [body] => compileToken (untilLoop body)
  | whileWord, _ => do
    pushReturnCell (.opened .beginWord)
    openStructure .whileWord
  | repeatWord, [body, condition] => compileToken (.indefinite condition body)
  | leaveWord, _ => compileToken .leave
  | _, _ => return ()

theorem effect_eq_closing (s : Structural) : s.effect = (do
    let openers ← s.closing
    let parts ← openers.mapM popPending
    s.folding parts) := by
  cases s with
  | thenWord =>
    simp only [effect, closing, bind_assoc]
    congr
    funext opener
    cases opener <;> simp [folding]
  | semicolon => simp [effect, closing, folding, closeDefinition]
  | loopWord | plusLoop => simp [effect, closing, folding, closeLoop]
  | ifWord | elseWord | doWord | beginWord | untilWord | whileWord | repeatWord | leaveWord =>
    simp [effect, closing, folding]

end Structural

/-- The marks on the data stack of a structure that is complete but for the word that closes it, top
first. -/
def Opener.marksOnData : Opener → List Opener
  | .elseWord => [.elseWord, .ifWord]
  | .whileWord => [.whileWord, .beginWord]
  | opener => [opener]

/-- Above the marks, one below the other, there is nothing but tokens. -/
def Finds : List Opener → List Cell → Prop
  | [], _ => True
  | opener :: openers, cells =>
    ∃ tokens rest, cells = pendings tokens ++ .opened opener :: rest ∧ Finds openers rest

theorem mapM_popPending {openers : List Opener} {m : Machine} (h : Finds openers m.stack) :
    ∃ parts m', openers.mapM popPending m = .ok parts m' := by
  induction openers generalizing m with
  | nil => exact ⟨[], m, rfl⟩
  | cons opener openers ih =>
    obtain ⟨tokens, rest, hstack, hrest⟩ := h
    obtain ⟨parts, m', hparts⟩ := ih (m := { m with stack := rest }) hrest
    refine ⟨tokens :: parts, m', ?_⟩
    rw [List.mapM_cons, Action.bind_of_ok (popPending_eq hstack), Action.bind_of_ok hparts]
    rfl

section Closing

variable {below m m' : Machine} {name : String} {draft : Draft} {opener top : Opener}
variable {others : List Opener}

theorem closeStructure_ok (hclose : closeStructure opener others m = .ok top m') :
    m.topOpener? = some top ∧ top ∈ opener :: others ∧ m'.stack = m.stack := by
  unfold closeStructure at hclose
  split at hclose
  · cases hclose
  · rename_i opened htop
    split at hclose
    · rename_i hmem
      cases hclose
      exact ⟨htop, hmem, rfl⟩
    · split at hclose <;> cases hclose

theorem Drafting.finds (h : Drafting below name draft m) (htop : m.topOpener? = some top) :
    Finds top.marksOnData m.stack := by
  obtain ⟨current, contexts⟩ := draft
  rw [h.topOpener?_eq] at htop
  cases contexts with
  | nil =>
    cases htop
    refine ⟨current, below.stack, ?_, trivial⟩
    simp [h.stack, Draft.cells]
  | cons context outer =>
    cases htop
    have hstack : m.stack = pendings current ++
        (context.cells ++ (outer.flatMap Context.cells ++ .opened .colon :: below.stack)) :=
      h.stack_of_contexts rfl
    cases context with
    | thenPart before | loopPart before | beginPart before => exact ⟨_, _, hstack, trivial⟩
    | elsePart before tokens | whilePart before tokens =>
      simp only [Context.cells, List.cons_append, List.append_assoc] at hstack
      exact ⟨_, _, hstack, tokens, _, rfl, trivial⟩

/-- A word that closes its structures finds what it takes from the data stack then. -/
theorem Drafting.closing_finds (h : Drafting below name draft m) {s : Structural}
    {openers : List Opener} (hclose : s.closing m = .ok openers m') : Finds openers m'.stack := by
  have hfinds {opener top : Opener} {others : List Opener} {m₁ : Machine}
      (hfirst : closeStructure opener others m = .ok top m₁) :
      top ∈ opener :: others ∧ Finds top.marksOnData m₁.stack := by
    obtain ⟨htop, hmem, hstack⟩ := closeStructure_ok hfirst
    rw [hstack]
    exact ⟨hmem, h.finds htop⟩
  cases s with
  | ifWord | doWord | beginWord | leaveWord =>
    cases hclose
    trivial
  | elseWord | whileWord =>
    obtain ⟨top, m₁, -, hreturn⟩ := Action.bind_eq_ok hclose
    cases hreturn
    trivial
  | semicolon | loopWord | plusLoop | untilWord =>
    obtain ⟨top, m₁, hfirst, hreturn⟩ := Action.bind_eq_ok hclose
    cases hreturn
    obtain ⟨hmem, htokens⟩ := hfinds hfirst
    rwa [List.mem_singleton.mp hmem] at htokens
  | thenWord =>
    obtain ⟨top, m₁, hfirst, hreturn⟩ := Action.bind_eq_ok hclose
    obtain ⟨hmem, htokens⟩ := hfinds hfirst
    rcases List.mem_cons.mp hmem with rfl | hmem
    · cases hreturn
      exact htokens
    · obtain rfl := List.mem_singleton.mp hmem
      cases hreturn
      exact htokens
  | repeatWord =>
    obtain ⟨top, m₁, hfirst, hrest⟩ := Action.bind_eq_ok hclose
    obtain ⟨top', m₂, hsecond, hreturn⟩ := Action.bind_eq_ok hrest
    cases hreturn
    obtain ⟨hmem, htokens⟩ := hfinds hfirst
    rw [List.mem_singleton.mp hmem] at htokens
    rwa [(closeStructure_ok hsecond).2.2]

theorem Drafting.closeDefinition_error (h : Drafting below name draft m) {fault : Fault}
    (hfail : closeDefinition m = .error fault m') : ∃ opener, fault = .unclosed opener := by
  cases hbody : draft.body with
  | ok body =>
    obtain ⟨m₁, hclose, -⟩ := h.closeDefinition_eq hbody
    rw [hclose] at hfail
    cases hfail
  | error fault' =>
    have hshape : draft.shape below.markLimit .semicolon = .error fault' := by
      simp only [Draft.shape, hbody]
      rfl
    have heffect : closeDefinition m = .error fault' m := h.effect_of_shape_error hshape
    rw [heffect] at hfail
    cases hfail
    unfold Draft.body at hbody
    split at hbody <;> cases hbody
    exact ⟨_, rfl⟩

end Closing

/-- What cannot happen to a machine that is about to dispatch a word. -/
structure Guarded (bounds : Bounds) (m : Machine) : Prop where
  /-- A word that closes its structures takes all its tokens. -/
  takes : m.mode = .compile → ∀ {s : Structural} {entry : Entry} {openers : List Opener}
    {m' : Machine}, s.closing (m.note entry) = .ok openers m' →
      ∃ parts m'', openers.mapM popPending m' = .ok parts m'' ∧
        s.effect (m.note entry) = s.folding parts m''
  /-- The word that ends a definition fails only where a structure is open. -/
  ends : m.mode = .compile → ∀ {entry : Entry} {fault : Fault} {m' : Machine},
    closeDefinition (m.note entry) = .error fault m' → ∃ opener, fault = .unclosed opener
  /-- No word or token is out of place inside a run. -/
  runs : m.mode = .immediate → ∀ word ∈ m.dictionary.words, word.behavior.Runs →
    ∀ {fault : Fault} {m' : Machine}, callWord bounds word m = some (.error fault m') →
      ¬ fault.Misplaced

theorem Steady.guarded {m : Machine} (h : Steady m) (bounds : Bounds) : Guarded bounds m where
  takes hmode s entry openers m' hclose := by
    obtain ⟨below, name, draft, hcompiling⟩ := h.of_compile hmode
    obtain ⟨parts, m'', hparts⟩ :=
      mapM_popPending ((hcompiling.drafting.note entry).closing_finds hclose)
    refine ⟨parts, m'', hparts, ?_⟩
    rw [s.effect_eq_closing, Action.bind_of_ok hclose, Action.bind_of_ok hparts]
  ends hmode entry fault m' hfail := by
    obtain ⟨below, name, draft, hcompiling⟩ := h.of_compile hmode
    exact (hcompiling.drafting.note entry).closeDefinition_error hfail
  runs hmode word hword hruns fault m' hfail := by
    obtain ⟨-, hvalues⟩ := h.of_immediate hmode
    have hsound := h.dictionary.words word hword
    exact (callWord_tame bounds word hruns hsound hvalues hfail).not_misplaced

theorem Rejects.not_unknownToken {bounds : Bounds} {m : Machine} {word text : String}
    {fault : Fault} (h : Rejects bounds m word fault) : fault ≠ .unknownToken text := by
  rintro rfl
  cases h with
  | run mode call runs fails => exact fails.not_misplaced trivial
  | noStructureFits mode call shapes fails => simp at fails

/-- Whatever lines a new machine has answered, the next line fails only at a word that the
dispatcher has a reason to reject. -/
theorem internal_faults_unreachable {m : Machine} (hm : Reachable m) (line : String)
    (passes : Nat) :
    (∀ fault m', runInput { passes } (m.reading line) = some (.error fault m') →
      (∀ text, fault ≠ .unknownToken text) ∧
        ∃ m₁ word rest, Advances { passes } (m.reading line) m₁ ∧
          Text.nextWord m₁.input = (some word, rest) ∧
          Rejects { passes } { m₁ with input := rest } word fault) ∧
    (∀ m₁ text, Advances { passes } (m.reading line) m₁ →
      Guarded { passes } { m₁ with input := text }) ∧
    ∀ tokens m₁ m₂ fault, Token.AllSound tokens → HoldsValues m₁ →
      execute { passes } tokens m₁ = some (.error fault m₂) → ¬ fault.Misplaced := by
  have hsteady {m₁ : Machine} (hadvances : Advances { passes } (m.reading line) m₁) :
      Steady m₁ :=
    ((steady_of_reachable hm).reading line).advances hadvances
  refine ⟨?_, ?_, ?_⟩
  · intro fault m' hrun
    obtain ⟨m₁, word, rest, hadvances, hnext, hfail⟩ := runWords_error hrun
    have hrejects := ((hsteady hadvances).withInput rest).dispatch_error hfail
    exact ⟨fun text => hrejects.not_unknownToken, m₁, word, rest, hadvances, hnext, hrejects⟩
  · intro m₁ text hadvances
    exact ((hsteady hadvances).withInput text).guarded _
  · intro tokens m₁ m₂ fault hsound hvalues hrun
    exact ((runTokens_tame _ tokens hsound).nested hvalues hrun).not_misplaced

/-- A definition that ends inside a branch, with a value under it on the return stack. -/
theorem open_branch_rejected :
    ∃ m' m₁ word rest,
      runInput { passes := 0 } (Machine.new.reading "7 >R : W 1 IF ;") =
        some (.error (.unclosed .ifWord) m') ∧
      Advances { passes := 0 } (Machine.new.reading "7 >R : W 1 IF ;") m₁ ∧
      Text.nextWord m₁.input = (some word, rest) ∧
      Rejects { passes := 0 } { m₁ with input := rest } word (.unclosed .ifWord) := by
  have hline : (runInput { passes := 0 } (Machine.new.reading "7 >R : W 1 IF ;")).map
      Outcome.fault? = some (some (.unclosed .ifWord)) := by
    decide +kernel
  obtain ⟨o, hrun, hfault⟩ := Option.map_eq_some_iff.mp hline
  cases o with
  | ok flow m' => cases hfault
  | error fault m' =>
    obtain rfl : fault = .unclosed .ifWord := Option.some.inj hfault
    obtain ⟨-, m₁, word, rest, hadvances, hnext, hrejects⟩ :=
      (internal_faults_unreachable .new "7 >R : W 1 IF ;" 0).1 _ m' hrun
    exact ⟨m', m₁, word, rest, hrun, hadvances, hnext, hrejects⟩

end ForthMachine
