import ForthMachine.Proofs.Grammar
import ForthMachine.Proofs.OpenDefinitions

/-!
# Words that fit no open structure

Which structures of a definition are open can be told from the words behind its colon alone, by a
stack of openers that knows neither tokens nor machines. It always has the marks of the machine, and
so it foretells what is said to a word that closes a structure, or goes on with one, where another
is innermost.
-/

set_option autoImplicit false

namespace ForthMachine

open Machine

namespace Structural

def ofName? (name : String) : Option Structural :=
  all.find? (·.name == name)

theorem ofName?_name (s : Structural) : ofName? s.name = some s := by
  cases s <;> decide

theorem eq_name_of_ofName? {name : String} {s : Structural} (h : ofName? name = some s) :
    name = s.name := by
  have hname := List.find?_some h
  exact (beq_iff_eq.mp hname).symm

/-- What a word makes of the openers of the open structures, the innermost first. -/
def track : Structural → List Opener → List Opener
  | ifWord, openers => .ifWord :: openers
  | elseWord, openers => .elseWord :: openers.tail
  | doWord, openers => .doWord :: openers
  | beginWord, openers => .beginWord :: openers
  | whileWord, openers => .whileWord :: openers
  | thenWord, openers | loopWord, openers | plusLoop, openers | untilWord, openers => openers.tail
  | repeatWord, openers => openers.drop 2
  | semicolon, openers | leaveWord, openers => openers

/-- The openers that a word may find innermost, if it closes a structure or goes on with one. The
word that ends the definition may find none. -/
def partners? : Structural → Option (List Opener)
  | semicolon => some []
  | elseWord => some [.ifWord]
  | thenWord => some [.ifWord, .elseWord]
  | loopWord | plusLoop => some [.doWord]
  | untilWord | whileWord => some [.beginWord]
  | repeatWord => some [.whileWord]
  | ifWord | doWord | beginWord | leaveWord => none

/-- What is wrong with a word that comes where the structures of `openers` are open. -/
def complaint? (s : Structural) (openers : List Opener) : Option Fault :=
  match s.partners?, openers with
  | none, _ | some [], [] => none
  | some (wanted :: _), [] => some (.missing wanted)
  | some partners, top :: _ => if top ∈ partners then none else some (.unclosed top)

end Structural

def trackWord (openers : List Opener) (word : String) : List Opener :=
  match Structural.ofName? word with
  | some s => s.track openers
  | none => openers

/-- The openers of the structures that the words behind a colon leave open, the innermost first. -/
def openedBy (ws : List String) : List Opener :=
  ws.foldl trackWord []

theorem openedBy_concat (ws : List String) (word : String) :
    openedBy (ws ++ [word]) = trackWord (openedBy ws) word := by
  simp [openedBy]

namespace Draft

variable {limit : Nat} {draft draft' : Draft} {dictionary : Dictionary}

/-- The marks of the open structures, without that of the colon. -/
def openers (draft : Draft) : List Opener :=
  draft.contexts.flatMap Context.marks

theorem openers_of_shape {s : Structural} (hshape : draft.shape limit s = .ok draft') :
    draft'.openers = s.track draft.openers := by
  cases shapes_of_shape hshape <;> rfl

theorem contexts_of_take {token : Token} (htoken : token.structural? = none)
    (htake : draft.take limit token = .ok draft') : draft'.contexts = draft.contexts := by
  cases token with
  | number n =>
    cases htake
    rfl
  | call word =>
    obtain ⟨serial, name, behavior⟩ := word
    cases behavior with
    | primitive p | definition body | comment c =>
      cases htake
      rfl
    | structural s => cases htoken
    | readAhead r => cases htake
  | unresolved _ | counted _ _ | branch _ _ | indefinite _ _ | leave => cases htake

theorem openers_of_take (hsound : dictionary.Sound)
    (hheld : ∀ s : Structural, dictionary.structural? s.name = some s) {word : String}
    (htake : draft.take limit (classify dictionary word) = .ok draft') :
    draft'.openers = trackWord draft.openers word := by
  unfold trackWord
  cases hname : Structural.ofName? word with
  | some s =>
    rw [Structural.eq_name_of_ofName? hname, take_structural (hheld s)] at htake
    exact openers_of_shape htake
  | none =>
    have htoken : (classify dictionary word).structural? = none := by
      cases htoken : (classify dictionary word).structural? with
      | none => rfl
      | some s =>
        rw [eq_name_of_structural? hsound htoken, s.ofName?_name] at hname
        cases hname
    exact congrArg (List.flatMap Context.marks) (contexts_of_take htoken htake)

/-- The openers say what is wrong with a word. -/
theorem shape_of_complaint {s : Structural} {fault : Fault}
    (h : s.complaint? draft.openers = some fault) (limit : Nat) :
    draft.shape limit s = .error fault := by
  obtain ⟨tokens, contexts⟩ := draft
  cases contexts with
  | nil => cases s <;> cases h <;> rfl
  | cons context outer => cases s <;> cases context <;> cases h <;> rfl

end Draft

/-- The machine in the middle of a definition, after the words `ws` behind the name. It is what the
machine `start` has come to in reading `line`, and the definition may have begun on that line or on
one of those before. -/
inductive Inside : Nat → Machine → String → Machine → List String → Prop where
  | opened {passes : Nat} {start m₁ m : Machine} {line : String} {rest : List Char}
      (reachable : Reachable start) (advances : Advances { passes } (start.reading line) m₁)
      (closed : m₁.mode = .immediate) (read : Text.nextWord m₁.input = (some ":", rest))
      (taken : dispatch { passes } ":" { m₁ with input := rest } = some (.ok .next m))
      (mode : m.mode = .compile) : Inside passes start line m []
  | word {passes : Nat} {start m₁ m : Machine} {line word : String} {ws : List String}
      {rest : List Char} (before : Inside passes start line m₁ ws)
      (read : Text.nextWord m₁.input = (some word, rest))
      (taken : dispatch { passes } word { m₁ with input := rest } = some (.ok .next m))
      (mode : m.mode = .compile) : Inside passes start line m (ws ++ [word])
  | lineEnd {passes : Nat} {start m₁ m : Machine} {line response : String} {ws : List String}
      (before : Inside passes start line m₁ ws) (ended : Text.words m₁.input = [])
      (answered : evaluate { passes } start line = some (response, m)) (passes' : Nat)
      (line' : String) : Inside passes' m line' (m.reading line') ws

theorem nextWord_of_openDefinition {m m' : Machine} {a : Unit}
    (hopen : openDefinition m = .ok a m') :
    ∃ name text, Text.nextWord m.input = (some name, text) := by
  rcases hnext : Text.nextWord m.input with ⟨name, text⟩
  cases name with
  | some name => exact ⟨name, text, rfl⟩
  | none =>
    unfold openDefinition at hopen
    rw [Action.bind_of_ok (readWord_of_nextWord hnext)] at hopen
    cases hopen

theorem colon_of_opens {bounds : Bounds} {m m' : Machine} {word : String} {flow : Flow}
    (h : Steady m) (hmode : m.mode = .immediate)
    (hrun : dispatch bounds word m = some (.ok flow m')) (hopen : m'.mode = .compile) :
    word = ":" ∧ flow = .next ∧ m.dictionary.readAhead? ":" = some .colon ∧
      ∃ name text, Text.nextWord m.input = (some name, text) := by
  rw [dispatch_of_immediate hmode] at hrun
  have hcases := interpret_cases bounds (classify m.dictionary word) m
  generalize hclassify : classify m.dictionary word = token at hrun hcases
  generalize interpret bounds token m = result at hrun hcases
  have hsame (hstill : m'.mode = m.mode) : False := by
    rw [hstill, hmode] at hopen
    cases hopen
  cases hcases with
  | pushes n =>
    cases hrun
    exact (hsame rfl).elim
  | runs hruns =>
    obtain ⟨o, hcall, houtside⟩ := Option.map_eq_some_iff.mp hrun
    have hmachine := machine_outsideLoops o
    rw [houtside] at hmachine
    have hstill := (undisturbed_stepLaw.callWord bounds _ hcall).mode
    rw [← hmachine] at hstill
    exact (hsame hstill).elim
  | @readsAhead entry r hb =>
    have htold := Option.some.inj hrun
    rw [Action.bind_of_ok (by rfl)] at htold
    obtain ⟨_, m₂, hread, hflow⟩ := Action.bind_eq_ok htold
    cases hflow
    cases r with
    | see =>
      change describeNextWord _ = _ at hread
      obtain ⟨output, hdescribed⟩ :=
        machine_describeNextWord (m.note ⟨.debug, "interpret", ReadAhead.see.name, none⟩)
      rw [hread] at hdescribed
      have hstill := congrArg Machine.mode hdescribed
      exact (hsame hstill).elim
    | colon =>
      obtain ⟨hentry, hname, -⟩ := classify_call h.dictionary hclassify
      have hcolon := hentry.behavior
      rw [hb, hname] at hcolon
      obtain rfl : word = ":" := hcolon
      refine ⟨rfl, rfl, ?_, ?_⟩
      · rw [Dictionary.readAhead?, find?_of_classify hclassify, Option.bind_some, hb]
        rfl
      · exact nextWord_of_openDefinition (m := m.note _) hread
  | @skips entry c hb =>
    cases c <;> cases hrun <;> exact (hsame rfl).elim
  | compileOnly _ | undefined _ | unknown _ => cases hrun

namespace Inside

variable {passes : Nat} {start m : Machine} {line : String} {ws : List String}

theorem advances (h : Inside passes start line m ws) :
    Advances { passes } (start.reading line) m := by
  induction h with
  | opened reachable advances closed read taken mode => exact advances.word read taken nofun
  | word before read taken mode ih => exact ih.word read taken nofun
  | lineEnd before ended answered passes' line' ih => exact .refl

/-- The draft of the definition has the openers that the words say. -/
theorem drafting (h : Inside passes start line m ws) :
    ∃ below name draft, Drafting below name draft m ∧ below.dictionary.Sound ∧
      ((∀ s : Structural, below.dictionary.structural? s.name = some s) →
        draft.openers = openedBy ws) := by
  induction h with
  | @opened passes start m₁ m line rest reachable advances closed read taken mode =>
    have hsteady : Steady m₁ := ((steady_of_reachable reachable).reading line).advances advances
    have hopens := hsteady.withInput rest
    obtain ⟨-, -, hcolon, name, text, hnext⟩ := colon_of_opens hopens closed taken mode
    obtain ⟨hdrafting, -⟩ := drafting_of_colon (m := { m₁ with input := rest }) closed hcolon
      hnext taken
    exact ⟨_, name, {}, hdrafting, hopens.dictionary, fun _ => rfl⟩
  | @word passes start m₁ m line word ws rest before read taken mode ih =>
    obtain ⟨below, name, draft, hdrafting, hsound, hopeners⟩ := ih
    rw [hdrafting.dispatch_eq { passes } word rest] at taken
    have hcases := (hdrafting.withInput rest).compile_cases word
    rw [Option.some.inj taken] at hcases
    cases hcases with
    | @taken draft' _ _ take drafting' _ =>
      refine ⟨below, name, draft', drafting', hsound, fun hheld => ?_⟩
      rw [openedBy_concat, ← hopeners hheld]
      exact Draft.openers_of_take hsound hheld take
    | @skipped c _ comment drafting' _ _ _ =>
      refine ⟨below, name, draft, drafting', hsound, fun hheld => ?_⟩
      rw [openedBy_concat, ← hopeners hheld]
      have htake : draft.take 0 (classify below.dictionary word) = .ok draft := by
        obtain ⟨entry, hclassify, hb⟩ := Token.call_of_comment? comment
        simp only [hclassify, Draft.take, hb]
      exact Draft.openers_of_take hsound hheld htake
    | ended _ _ defined _ =>
      rw [defined.mode] at mode
      cases mode
  | @lineEnd passes start m₁ m line response ws before ended answered passes' line' ih =>
    obtain ⟨below, name, draft, hdrafting, hsound, hopeners⟩ := ih
    change (runInput { passes } (start.reading line)).map answer = _ at answered
    rw [before.advances.runInput_eq, hdrafting.answer_of_no_words ended] at answered
    cases answered
    exact ⟨below, name, draft, { hdrafting with }, hsound, hopeners⟩

theorem next {m₁ : Machine} {word : String} {rest : List Char} {flow : Flow}
    (hstart : Reachable start) (hadvances : Advances { passes } (start.reading line) m₁)
    (hinside : m₁.mode = .compile → ∃ ws, Inside passes start line m₁ ws)
    (hnext : Text.nextWord m₁.input = (some word, rest))
    (hrun : dispatch { passes } word { m₁ with input := rest } = some (.ok flow m))
    (hmode : m.mode = .compile) : flow = .next ∧ ∃ ws, Inside passes start line m ws := by
  cases hclosed : m₁.mode with
  | immediate =>
    have hsteady := ((steady_of_reachable hstart).reading line).advances hadvances
    obtain ⟨rfl, rfl, -, -⟩ := colon_of_opens (hsteady.withInput rest) hclosed hrun hmode
    exact ⟨rfl, [], .opened hstart hadvances hclosed hnext hrun hmode⟩
  | compile =>
    obtain ⟨ws, hbefore⟩ := hinside hclosed
    obtain ⟨below, name, draft, hdrafting, -⟩ := hbefore.drafting
    have hcases := (hdrafting.withInput rest).compile_cases word
    have hcompile := hrun
    rw [hdrafting.dispatch_eq { passes } word rest] at hcompile
    rw [Option.some.inj hcompile] at hcases
    have hflow : flow = .next := by cases hcases <;> rfl
    subst hflow
    exact ⟨rfl, ws ++ [word], .word hbefore hnext hrun hmode⟩

end Inside

theorem inside_of_reachable {m : Machine} (hm : Reachable m) (hmode : m.mode = .compile) :
    ∃ ws, ∀ passes line, Inside passes m line (m.reading line) ws := by
  induction hm with
  | new => cases hmode
  | @line start m line response passes before answered ih =>
    have hsofar {m₁ : Machine} (hadvances : Advances { passes } (start.reading line) m₁) :
        m₁.mode = .compile → ∃ ws, Inside passes start line m₁ ws := by
      induction hadvances with
      | refl =>
        intro hopen
        obtain ⟨ws, hinside⟩ := ih hopen
        exact ⟨ws, hinside passes line⟩
      | word hbefore read taken goesOn ihadvances =>
        intro hopen
        exact (Inside.next before hbefore ihadvances read taken hopen).2
    obtain ⟨o, hrun, hanswer⟩ := Option.map_eq_some_iff.mp answered
    have hend : (answer o).2 = m := congrArg Prod.snd hanswer
    obtain ⟨m₁, hadvances, ⟨word, rest, hnext, hstop, hstops⟩ | ⟨hwords, rfl⟩⟩ :=
      runInput_cases hrun
    · cases o with
      | error fault m₂ =>
        rw [← hend] at hmode
        cases hmode
      | ok flow m₂ =>
        obtain rfl : flow = .quit := hstops
        have hopen : m₂.mode = .compile := by
          rw [← hend] at hmode
          exact hmode
        cases (Inside.next before hadvances (hsofar hadvances) hnext hstop hopen).1
    · have hopen : m₁.mode = .compile := by
        rw [← hend] at hmode
        exact hmode
      obtain ⟨ws, hinside⟩ := hsofar hadvances hopen
      exact ⟨ws, fun passes' line' => hinside.lineEnd hwords answered passes' line'⟩

/-- What is said to a word that closes a structure, or goes on with one, where another is innermost
can be told from the words behind the colon, and every open definition has such words. It names the
structure that is open, or else the one that is missing; nothing of the definition is left. -/
theorem mismatch_names_open_structure :
    (∀ m, Reachable m → m.mode = .compile →
      ∃ ws, ∀ passes line, Inside passes m line (m.reading line) ws) ∧
    ∀ {passes : Nat} {start m : Machine} {line : String} {ws : List String},
      Inside passes start line m ws →
      (∀ s : Structural, m.dictionary.structural? s.name = some s) →
      ∀ {s : Structural} {fault : Fault} {rest : List Char},
        Text.nextWord m.input = (some s.name, rest) → s.complaint? (openedBy ws) = some fault →
        ∃ m₁ m₂, runInput { passes } (start.reading line) = some (.error fault m₁) ∧
          evaluate { passes } start line = some (m.output ++ " ? " ++ fault.message, m₂) ∧
          Abandoned m m₂ := by
  refine ⟨fun m hm hmode => inside_of_reachable hm hmode, ?_⟩
  intro passes start m line ws hinside hheld s fault rest hnext hcomplaint
  obtain ⟨below, name, draft, hdrafting, -, hopeners⟩ := hinside.drafting
  rw [hdrafting.dictionary] at hheld
  have hfault : draft.take below.markLimit (classify below.dictionary s.name) = .error fault := by
    rw [← hopeners hheld] at hcomplaint
    rw [take_structural (hheld s)]
    exact draft.shape_of_complaint hcomplaint below.markLimit
  obtain ⟨m₁, hcompile, hdictionary, hquiet⟩ :=
    (hdrafting.withInput rest).compile_of_take_error hfault
  have hrun : runInput { passes } m = some (.error fault m₁) := by
    rw [hdrafting.runInput_eq_resume { passes } hnext, hcompile]
    rfl
  obtain ⟨m₂, hanswered, habandoned⟩ :=
    abandoned_of_error hrun (hdictionary.trans hdrafting.dictionary.symm) hquiet.output
  have hsame := hinside.advances.runInput_eq
  exact ⟨m₁, m₂, hsame.trans hrun, (congrArg (Option.map answer) hsame).trans hanswered, habandoned⟩

/-- The word that ends a counted loop, inside a branch. -/
theorem loop_ends_inside_branch :
    ∃ m m₁ m₂, Inside 0 Machine.new ": W IF LOOP" m ["IF"] ∧ m.output = "" ∧
      runInput { passes := 0 } (Machine.new.reading ": W IF LOOP") =
        some (.error (.unclosed .ifWord) m₁) ∧
      evaluate { passes := 0 } Machine.new ": W IF LOOP" =
        some (m.output ++ " ? " ++ Fault.message (.unclosed .ifWord), m₂) ∧
      Abandoned m m₂ := by
  let m₀ : Machine := { Machine.new.reading ": W IF LOOP" with input := " W IF LOOP".toList }
  have hname : Text.nextWord m₀.input = (some "W", " IF LOOP".toList) := by decide
  obtain ⟨m, hopen, hdrafting, hinput, houtput, -⟩ := openDefinition_of_room
    (m := m₀.note ⟨.debug, "interpret", ":", none⟩) hname (by decide)
  have hcolon : dispatch { passes := 0 } ":" m₀ = some (.ok .next m) := by
    rw [dispatch_colon { passes := 0 } (m := m₀) rfl new_colon, Action.bind_of_ok hopen]
    rfl
  have hopened : Inside 0 Machine.new ": W IF LOOP" m [] :=
    .opened .new .refl rfl (by decide) hcolon hdrafting.mode
  have hif : Text.nextWord m.input = (some "IF", " LOOP".toList) := by
    rw [hinput]
    decide
  have hdraft := forDraft_structural (new_structural .ifWord) nofun
  have htake : Draft.take m₀.markLimit {} (classify m₀.dictionary "IF") =
      .ok ⟨[], [.thenPart []]⟩ := take_structural (new_structural .ifWord) {}
  obtain ⟨m', hcompile, hdrafting', hquiet⟩ :=
    (hdrafting.withInput " LOOP".toList).compile_of_take hdraft htake
  have hinside : Inside 0 Machine.new ": W IF LOOP" m' ["IF"] := by
    refine hopened.word hif ?_ hdrafting'.mode
    rw [hdrafting.dispatch_eq]
    exact congrArg some hcompile
  have hloop : Text.nextWord m'.input = (some "LOOP", []) := by
    rw [hquiet.input]
    change Text.nextWord " LOOP".toList = _
    decide
  have hheld : ∀ s : Structural, m'.dictionary.structural? s.name = some s := by
    rw [hdrafting'.dictionary]
    exact new_structural
  obtain ⟨m₁, m₂, hrun, hanswer, habandoned⟩ :=
    mismatch_names_open_structure.2 hinside hheld (s := .loopWord) hloop rfl
  exact ⟨m', m₁, m₂, hinside, hquiet.output.trans houtput, hrun, hanswer, habandoned⟩

end ForthMachine
