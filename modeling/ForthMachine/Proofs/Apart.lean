import ForthMachine.Proofs.Definitions
import ForthMachine.Proofs.Lockstep

/-!
# Machines that differ in their texts and logs

A machine that has printed more, and that has more text behind its unread text, does what the
machine without these texts does: nothing looks at what was printed or at the log, and text is read
from its front. Only a word that reads on can come to the end of the shorter text. There it finds no
name, or no end of its comment.
-/

set_option autoImplicit false

namespace ForthMachine

open Machine

namespace Machine

def withTexts (m : Machine) (log : Log) (output : String) (input : List Char) : Machine :=
  { m with log, output, input }

end Machine

/-- The second machine has more text in front of what it printed and behind its unread text. The
levels of the two logs are related by `S`. -/
def Apart (S : Level → Level → Prop) (printed : String) (behind : List Char) (m m' : Machine) :
    Prop :=
  ∃ log : Log, S m.log.level log.level ∧
    m' = m.withTexts log (printed ++ m.output) (m.input ++ behind)

namespace Apart

variable {S : Level → Level → Prop} {printed : String} {behind : List Char} {m m' : Machine}

theorem input (h : Apart S printed behind m m') : m'.input = m.input ++ behind := by
  obtain ⟨log, -, rfl⟩ := h
  rfl

theorem output (h : Apart S printed behind m m') : m'.output = printed ++ m.output := by
  obtain ⟨log, -, rfl⟩ := h
  rfl

theorem read {γ : Type} (h : Apart S printed behind m m') (f : Machine → γ)
    (hf : ∀ m log output input, f (m.withTexts log output input) = f m) : f m' = f m := by
  obtain ⟨log, -, rfl⟩ := h
  exact hf m _ _ _

theorem change (h : Apart S printed behind m m') (f : Machine → Machine)
    (hf : ∀ m log output input,
      f (m.withTexts log output input) = (f m).withTexts log output input) :
    Apart S printed behind (f m) (f m') := by
  obtain ⟨log, hlevel, rfl⟩ := h
  -- With its own texts in place of its texts, `f` shows that it keeps them.
  have hsame : f m = (f m).withTexts m.log m.output m.input := hf m _ _ _
  have hlog : (f m).log = m.log := (congrArg Machine.log hsame :)
  have houtput : (f m).output = m.output := (congrArg Machine.output hsame :)
  have hinput : (f m).input = m.input := (congrArg Machine.input hsame :)
  refine ⟨log, hlog ▸ hlevel, ?_⟩
  rw [hf, houtput, hinput]

theorem withInput (h : Apart S printed behind m m') (text : List Char) :
    Apart S printed behind { m with input := text } { m' with input := text ++ behind } := by
  obtain ⟨log, hlevel, rfl⟩ := h
  exact ⟨log, hlevel, rfl⟩

theorem sameInput (h : Apart S printed behind m m') (text : List Char) :
    Apart S printed [] { m with input := text } { m' with input := text } := by
  obtain ⟨log, hlevel, rfl⟩ := h
  exact ⟨log, hlevel, by simp only [withTexts, List.append_nil]⟩

theorem print (h : Apart S printed behind m m') (text : String) :
    Apart S printed behind { m with output := m.output ++ text }
      { m' with output := m'.output ++ text } := by
  obtain ⟨log, hlevel, rfl⟩ := h
  exact ⟨log, hlevel, by simp only [withTexts, String.append_assoc]⟩

theorem cleared (h : Apart S printed behind m m') :
    Apart S "" behind { m with output := "" } { m' with output := "" } := by
  obtain ⟨log, hlevel, rfl⟩ := h
  exact ⟨log, hlevel, rfl⟩

theorem note (h : Apart S printed behind m m') (entry entry' : Entry) :
    Apart S printed behind (m.note entry) (m'.note entry') := by
  obtain ⟨log, hlevel, rfl⟩ := h
  refine ⟨log.add entry', ?_, rfl⟩
  rw [Machine.note, Log.add_level, Log.add_level]
  exact hlevel

theorem noteOther (h : Apart S printed behind m m') (entry : Entry) :
    Apart S printed behind m (m'.note entry) := by
  obtain ⟨log, hlevel, rfl⟩ := h
  refine ⟨log.add entry, ?_, rfl⟩
  rw [Log.add_level]
  exact hlevel

theorem setLevel (hS : ∀ level, S level level) (h : Apart S printed behind m m') (level : Level) :
    Apart S printed behind { m with log := { m.log with level } }
      { m' with log := { m'.log with level } } := by
  obtain ⟨log, -, rfl⟩ := h
  exact ⟨{ log with level }, hS level, rfl⟩

end Apart

theorem apart_lockstep {S : Level → Level → Prop} (hS : ∀ level, S level level)
    (printed : String) (behind : List Char) (bounds : Bounds) :
    Lockstep (fun _ => True) bounds bounds (Apart S printed behind) where
  passes := rfl
  room h hroom := by
    rwa [h.read (·.depth) fun _ _ _ _ => rfl]
  stack h := h.read (·.stack) fun _ _ _ _ => rfl
  returns _ _ _ h := h.read (·.returns) fun _ _ _ _ => rfl
  names _ _ _ h := h.read (·.dictionary.names) fun _ _ _ _ => rfl
  withStack cells h := h.change ({ · with stack := cells }) fun _ _ _ _ => rfl
  withReturns _ _ _ cells h := h.change ({ · with returns := cells }) fun _ _ _ _ => rfl
  print text h := h.print text
  exit h := h.change ({ · with exiting := true }) fun _ _ _ _ => rfl
  level level h := h.setLevel hS level
  note entry entry' h := h.note entry entry'
  deeper h := h.change (fun m => { m with depth := m.depth + 1 }) fun _ _ _ _ => rfl
  back h := h.change (fun m => { m with depth := m.depth - 1 }) fun _ _ _ _ => rfl

def Action.Blind {α : Type} (action : Action α) : Prop :=
  ∀ m log output input, action (m.withTexts log output input) =
    Outcome.adjust (·.withTexts log output input) (action m)

namespace Action.Blind

theorem modify {f : Machine → Machine}
    (h : ∀ m log output input,
      f (m.withTexts log output input) = (f m).withTexts log output input) :
    Action.Blind (modify f : Action Unit) := by
  intro m log output input
  change EStateM.Result.ok () (f (m.withTexts log output input)) = _
  rw [h]
  rfl

theorem openStructure (opener : Opener) : Action.Blind (ForthMachine.openStructure opener) := by
  intro m log output input
  unfold ForthMachine.openStructure
  by_cases hfull : maxDepth ≤ m.returns.length
  · rw [if_pos hfull]
    exact if_pos hfull
  · rw [if_neg hfull]
    exact if_neg hfull

theorem closeStructure (opener : Opener) (others : List Opener) :
    Action.Blind (ForthMachine.closeStructure opener others) := by
  intro m log output input
  simp only [ForthMachine.closeStructure, topOpener?, withTexts]
  split
  · rfl
  · split
    · rfl
    · split <;> rfl

theorem popPending (opener : Opener) : Action.Blind (Machine.popPending opener) := by
  intro m log output input
  simp only [Machine.popPending, withTexts]
  cases (splitPending opener [] m.stack).1 <;> rfl

theorem compileToken (token : Token) : Action.Blind (ForthMachine.compileToken token) :=
  fun _ _ _ _ => rfl

theorem pushReturnCell (cell : Cell) : Action.Blind (Machine.pushReturnCell cell) :=
  fun _ _ _ _ => rfl

end Action.Blind

section Actions

variable {S : Level → Level → Prop} {printed : String} {behind : List Char}

theorem Action.Blind.agrees {α : Type} {action : Action α} (h : action.Blind) :
    Action.Agrees (Apart S printed behind) action := by
  rintro m _ ⟨log, hlevel, rfl⟩
  -- With its own texts in place of its texts, the action shows that it keeps them.
  have hsame : action m = Outcome.adjust (·.withTexts m.log m.output m.input) (action m) :=
    h m _ _ _
  rw [h m]
  cases hrun : action m with
  | ok a m₁ =>
    rw [hrun] at hsame
    injection hsame with _ hm₁
    have hlog : m₁.log = m.log := (congrArg Machine.log hm₁ :)
    have houtput : m₁.output = m.output := (congrArg Machine.output hm₁ :)
    have hinput : m₁.input = m.input := (congrArg Machine.input hm₁ :)
    exact .ok a ⟨log, hlog ▸ hlevel, by rw [houtput, hinput]⟩
  | error fault m₁ =>
    rw [hrun] at hsame
    injection hsame with _ hm₁
    have hlog : m₁.log = m.log := (congrArg Machine.log hm₁ :)
    have houtput : m₁.output = m.output := (congrArg Machine.output hm₁ :)
    have hinput : m₁.input = m.input := (congrArg Machine.input hm₁ :)
    exact .error fault ⟨log, hlog ▸ hlevel, by rw [houtput, hinput]⟩

theorem agrees_get {α : Type} {next : Machine → Action α}
    (hread : ∀ m log output input, next (m.withTexts log output input) = next m)
    (hnext : ∀ m, Action.Agrees (Apart S printed behind) (next m)) :
    Action.Agrees (Apart S printed behind) (get >>= next) := by
  intro m m' h
  change Outcome.Agree _ (next m m) (next m' m')
  rw [h.read next hread]
  exact hnext m m m' h

theorem agrees_tell (level : Level) (context text : String) (detail : Option Detail) :
    Action.Agrees (Apart S printed behind) (tell level context text detail) :=
  fun _ _ h => .ok () (h.note _ _)

theorem installDefinition_agrees (body : List Token) :
    Action.Agrees (Apart S printed behind) (installDefinition body) := by
  unfold installDefinition
  refine agrees_get (fun _ _ _ _ => rfl) fun m => ?_
  cases m.compiling with
  | none => exact Lockstep.fail _
  | some name =>
    refine Lockstep.bind (Action.Blind.modify fun _ _ _ _ => rfl).agrees fun _ => ?_
    refine agrees_get (fun _ _ _ _ => rfl) fun m => ?_
    have hend : Action.Agrees (Apart S printed behind) (do
        tell .info ";" "defined" (some (.text name))
        modify fun m => { m with
          dictionary := m.dictionary.install name (.definition body), mode := .immediate }) :=
      Lockstep.bind (agrees_tell _ _ _ _) fun _ => (Action.Blind.modify fun _ _ _ _ => rfl).agrees
    split
    · exact Lockstep.bind (agrees_tell _ _ _ _) fun _ => hend
    · exact hend

theorem popPending_agrees (opener : Opener) :
    Action.Agrees (Apart S printed behind) (Machine.popPending opener) :=
  (Action.Blind.popPending opener).agrees

theorem closeStructure_agrees (opener : Opener) (others : List Opener) :
    Action.Agrees (Apart S printed behind) (closeStructure opener others) :=
  (Action.Blind.closeStructure opener others).agrees

theorem compileToken_agrees (token : Token) :
    Action.Agrees (Apart S printed behind) (compileToken token) :=
  (Action.Blind.compileToken token).agrees

theorem closeLoop_agrees (step : Step) : Action.Agrees (Apart S printed behind) (closeLoop step) :=
  Lockstep.bind (closeStructure_agrees _ _) fun _ =>
    Lockstep.bind (popPending_agrees _) fun _ => compileToken_agrees _

theorem structural_agrees (s : Structural) :
    Action.Agrees (Apart S printed behind) s.effect := by
  cases s with
  | semicolon =>
    exact Lockstep.bind (closeStructure_agrees _ _) fun _ =>
      Lockstep.bind (popPending_agrees _) installDefinition_agrees
  | ifWord | doWord | beginWord => exact (Action.Blind.openStructure _).agrees
  | elseWord =>
    exact Lockstep.bind (closeStructure_agrees _ _) fun _ =>
      (Action.Blind.openStructure _).agrees
  | thenWord =>
    refine Lockstep.bind (closeStructure_agrees _ _) fun opener => ?_
    have hbranch (ifFalse : List Token) : Action.Agrees (Apart S printed behind) (do
        let ifTrue ← Machine.popPending .ifWord
        compileToken (.branch ifTrue ifFalse)) :=
      Lockstep.bind (popPending_agrees _) fun _ => compileToken_agrees _
    cases opener with
    | elseWord => exact Lockstep.bind (popPending_agrees _) hbranch
    | colon | ifWord | doWord | beginWord | whileWord => exact hbranch []
  | loopWord | plusLoop => exact closeLoop_agrees _
  | untilWord =>
    exact Lockstep.bind (closeStructure_agrees _ _) fun _ =>
      Lockstep.bind (popPending_agrees _) fun _ => compileToken_agrees _
  | whileWord =>
    exact Lockstep.bind (closeStructure_agrees _ _) fun _ =>
      Lockstep.bind (Action.Blind.pushReturnCell _).agrees fun _ =>
        (Action.Blind.openStructure _).agrees
  | repeatWord =>
    exact Lockstep.bind (closeStructure_agrees _ _) fun _ =>
      Lockstep.bind (closeStructure_agrees _ _) fun _ =>
        Lockstep.bind (popPending_agrees _) fun _ =>
          Lockstep.bind (popPending_agrees _) fun _ => compileToken_agrees _
  | leaveWord => exact compileToken_agrees _

end Actions

namespace Comment

def stop : Comment → Char
  | paren => ')'
  | backslash => '\n'

theorem skip_eq (c : Comment) (text : List Char) : c.skip text = (Text.splitAt c.stop text).2 := by
  cases c <;> rfl

end Comment

/-- A comment with text behind it ends where it ends without that text. -/
def Comment.Fits (c : Comment) (text behind : List Char) : Prop :=
  behind = [] ∨ c.stop ∈ text

theorem Comment.Fits.skip_append {c : Comment} {text behind : List Char}
    (h : c.Fits text behind) : c.skip (text ++ behind) = c.skip text ++ behind := by
  rcases h with rfl | hstop
  · rw [List.append_nil, List.append_nil]
  · rw [c.skip_eq, c.skip_eq, Text.splitAt_append_of_mem hstop]

/-- With text behind it, a line may have a name where it would lack one. -/
def LacksName (behind : List Char) (fault : Fault) : Prop :=
  behind ≠ [] ∧ fault = .noNameGiven

/-- The two come to the same end, and to machines that differ in the same texts. -/
abbrev EndsApart {α : Type} (S : Level → Level → Prop) (printed : String) (behind : List Char) :
    Option (Outcome α) → Option (Outcome α) → Prop :=
  Mirrors (LacksName behind) (fun _ : Unit => Apart S printed behind) ()

section Words

variable {S : Level → Level → Prop} {printed : String} {behind : List Char}

theorem Outcome.Agree.endsApart {α : Type} {o o' : Outcome α}
    (h : Outcome.Agree (Apart S printed behind) o o') :
    EndsApart S printed behind (some o) (some o') :=
  Outcome.Agree.mirrors (R := fun _ : Unit => Apart S printed behind) (i := ()) h

/-- Text that can stand behind a word without changing it. -/
def SetsOff (behind : List Char) : Prop :=
  ∀ c ∈ behind.head?, Text.isBlank c = true

theorem setsOff_nil : SetsOff [] := by
  intro c hc
  cases hc

theorem setsOff_cons {c : Char} (hc : Text.isBlank c = true) (text : List Char) :
    SetsOff (c :: text) := by
  intro d hd
  obtain rfl : c = d := by simpa using hd
  exact hc

theorem readName_endsApart (hbehind : SetsOff behind) {next : Option String → Action Unit}
    (hnone : next none = fail .noNameGiven)
    (hsome : ∀ name, Action.Agrees (Apart S printed behind) (next (some name)))
    {m m' : Machine} (h : Apart S printed behind m m') :
    EndsApart S printed behind (some ((readWord >>= next) m)) (some ((readWord >>= next) m')) := by
  rcases hnext : Text.nextWord m.input with ⟨word, rest⟩
  cases word with
  | none =>
    have hfails {m₁ : Machine} {text : List Char} (hnext : Text.nextWord m₁.input = (none, text)) :
        (readWord >>= next) m₁ = .error .noNameGiven { m₁ with input := text } := by
      rw [Action.bind_of_ok (readWord_of_nextWord hnext), hnone]
      rfl
    rw [hfails hnext]
    cases behind with
    | nil =>
      have hinput : m'.input = m.input := by rw [h.input, List.append_nil]
      rw [hfails (hinput ▸ hnext)]
      exact Outcome.Agree.endsApart (.error .noNameGiven (h.sameInput rest))
    | cons c behind => exact .excused ⟨List.cons_ne_nil c behind, rfl⟩ _ _
  | some name =>
    have hnext' : Text.nextWord m'.input = (some name, rest ++ behind) := by
      rw [h.input]
      exact Text.nextWord_append_of_some hnext hbehind
    rw [Action.bind_of_ok (readWord_of_nextWord hnext),
      Action.bind_of_ok (readWord_of_nextWord hnext')]
    exact (hsome name _ _ (h.withInput rest)).endsApart

theorem readAhead_endsApart (hbehind : SetsOff behind) (r : ReadAhead) {m m' : Machine}
    (h : Apart S printed behind m m') :
    EndsApart S printed behind (some (r.effect m)) (some (r.effect m')) := by
  cases r with
  | colon =>
    refine readName_endsApart hbehind rfl (fun name => ?_) h
    exact Lockstep.bind (agrees_tell _ _ _ _) fun _ =>
      Lockstep.bind (Action.Blind.modify fun _ _ _ _ => rfl).agrees fun _ =>
        (Action.Blind.openStructure _).agrees
  | see =>
    refine readName_endsApart hbehind rfl (fun name => ?_) h
    refine agrees_get (fun _ _ _ _ => rfl) fun m => ?_
    cases m.dictionary.find? name with
    | none => exact Lockstep.fail _
    | some word => exact fun _ _ h => .ok () (h.print _)

theorem comment_endsApart {c : Comment} {m m' : Machine} (hfits : c.Fits m.input behind)
    (h : Apart S printed behind m m') :
    EndsApart S printed behind (some (c.effect m)) (some (c.effect m')) := by
  rw [c.effect_eq, c.effect_eq, h.input, hfits.skip_append]
  exact .ok () (h.withInput _)

theorem told_endsApart {effect : Action Unit} {m m' : Machine} (context text : String)
    (h : ∀ entry, EndsApart S printed behind (some (effect (m.note entry)))
      (some (effect (m'.note entry)))) :
    EndsApart S printed behind
      (some ((do tell .debug context text none; effect; return .next : Action Flow) m))
      (some ((do tell .debug context text none; effect; return .next : Action Flow) m')) := by
  change EndsApart S printed behind
    (some ((effect >>= fun _ => pure Flow.next) (m.note ⟨.debug, context, text, none⟩)))
    (some ((effect >>= fun _ => pure Flow.next) (m'.note ⟨.debug, context, text, none⟩)))
  exact (h _).bind fun _ => .pure Flow.next

end Words

section Lines

variable {S : Level → Level → Prop} (hS : ∀ level, S level level) {printed : String}
  {behind : List Char} {m m' : Machine}

theorem EndsApart.outsideLoops {o o' : Option (Outcome Flow)}
    (h : EndsApart S printed behind o o') :
    EndsApart S printed behind (o.map outsideLoops) (o'.map outsideLoops) := by
  cases h with
  | excused hexcused m o => exact .excused hexcused m _
  | givenUp => exact .givenUp
  | error fault h => exact Outcome.Agree.endsApart (.error fault h)
  | ok flow h =>
    cases flow with
    | leave => exact Outcome.Agree.endsApart (.error .notLooping h)
    | next | quit => exact .ok _ h

theorem EndsApart.exact {α : Type} {o o' : Option (Outcome α)} (h : EndsApart S printed [] o o') :
    Option.Rel (Outcome.Agree (Apart S printed [])) o o' :=
  Mirrors.exact h fun _ _ _ hlacks => hlacks.1 rfl

variable (bounds : Bounds)

include hS in
theorem callWord_endsApart (word : Word) (h : Apart S printed behind m m') :
    EndsApart S printed behind (callWord bounds word m) (callWord bounds word m') := by
  have hlaw : Simulation bounds bounds (LacksName behind) (fun _ => true)
      (fun _ : Unit => Apart S printed behind) id :=
    (apart_lockstep hS printed behind bounds).whole fun h hfull =>
      .inr (by rwa [h.read (·.depth) fun _ _ _ _ => rfl])
  exact hlaw.callWord () word (Word.callsOnly_of_forall (fun _ => rfl) word) m m' h

include hS in
theorem interpret_endsApart (hbehind : SetsOff behind) {token : Token}
    (hfits : ∀ c, token.comment? = some c → c.Fits m.input behind)
    (h : Apart S printed behind m m') :
    EndsApart S printed behind (interpret bounds token m) (interpret bounds token m') := by
  cases token with
  | number n =>
    exact .ok Flow.next
      (h.change (fun m => { m with stack := .value n :: m.stack }) fun _ _ _ _ => rfl)
  | call word =>
    by_cases hruns : word.behavior.Runs
    · rw [interpret_call_of_runs bounds hruns, interpret_call_of_runs bounds hruns]
      exact (callWord_endsApart hS bounds word h).outsideLoops
    · cases hb : word.behavior with
      | primitive _ | definition _ => simp [hb, Behavior.Runs] at hruns
      | structural s =>
        simp only [interpret, hb]
        exact Outcome.Agree.endsApart (.error .compileOnly h)
      | readAhead r =>
        simp only [interpret, hb]
        exact told_endsApart _ _ fun entry => readAhead_endsApart hbehind r (h.note entry entry)
      | comment c =>
        have hc : c.Fits m.input behind := hfits c (by simp [Token.comment?, hb, Behavior.comment?])
        simp only [interpret, hb]
        exact told_endsApart _ _ fun entry => comment_endsApart hc (h.note entry entry)
  | unresolved name => exact Outcome.Agree.endsApart (.error (.undefinedWord name) h)
  | counted _ _ | branch _ _ | indefinite _ _ | leave =>
    exact Outcome.Agree.endsApart (.error _ h)

theorem compile_endsApart {token : Token}
    (hfits : ∀ c, token.comment? = some c → c.Fits m.input behind)
    (h : Apart S printed behind m m') :
    EndsApart S printed behind (some (compile token m)) (some (compile token m')) := by
  have hadd (token : Token) : Action.Agrees (Apart S printed behind)
      (do compileToken token; return .next : Action Flow) :=
    Lockstep.bind (compileToken_agrees _) fun _ => Lockstep.pure _
  cases token with
  | number n => exact (hadd (.number n) m m' h).endsApart
  | call word =>
    cases hb : word.behavior with
    | primitive _ | definition _ =>
      simp only [compile, hb]
      exact (hadd (.call word) m m' h).endsApart
    | structural s =>
      simp only [compile, hb]
      exact told_endsApart _ _ fun entry => (structural_agrees s _ _ (h.note entry entry)).endsApart
    | comment c =>
      have hc : c.Fits m.input behind := hfits c (by simp [Token.comment?, hb, Behavior.comment?])
      simp only [compile, hb]
      exact told_endsApart _ _ fun entry => comment_endsApart hc (h.note entry entry)
    | readAhead r =>
      simp only [compile, hb]
      exact Outcome.Agree.endsApart (.error .interpretOnly h)
  | unresolved name => exact Outcome.Agree.endsApart (.error (.undefinedWord name) h)
  | counted _ _ | branch _ _ | indefinite _ _ | leave =>
    exact Outcome.Agree.endsApart (.error _ h)

include hS in
theorem dispatch_endsApart (hbehind : SetsOff behind) {word : String}
    (hfits : ∀ c, (classify m.dictionary word).comment? = some c → c.Fits m.input behind)
    (h : Apart S printed behind m m') :
    EndsApart S printed behind (dispatch bounds word m) (dispatch bounds word m') := by
  unfold dispatch
  rw [h.read (·.mode) fun _ _ _ _ => rfl, h.read (·.dictionary) fun _ _ _ _ => rfl]
  cases m.mode with
  | immediate => exact interpret_endsApart hS bounds hbehind hfits h
  | compile => exact compile_endsApart hfits h

include hS in
/-- Between two words the machines differ in what was printed before, and in their logs. -/
theorem runWords_apart (count : Nat) (h : Apart S printed [] m m') :
    Option.Rel (Outcome.Agree (Apart S printed [])) (runWords bounds count m)
      (runWords bounds count m') := by
  induction count generalizing m m' with
  | zero => exact .some (.ok Flow.next h)
  | succ count ih =>
    have hinput : m'.input = m.input := by rw [h.input, List.append_nil]
    rcases hnext : Text.nextWord m.input with ⟨word, rest⟩
    cases word with
    | none =>
      have hnil := Text.nextWord_of_words_nil (Text.words_of_nextWord_none hnext)
      rw [runWords_of_none bounds count hnil, runWords_of_none bounds count (hinput ▸ hnil)]
      exact .some (.ok Flow.next (h.sameInput []))
    | some word =>
      rw [runWords_succ bounds count hnext, runWords_succ bounds count (hinput ▸ hnext)]
      have hfirst : Option.Rel (Outcome.Agree (Apart S printed []))
          (dispatch bounds word { m with input := rest })
          (dispatch bounds word { m' with input := rest }) :=
        (dispatch_endsApart hS bounds setsOff_nil (fun _ _ => .inl rfl) (h.sameInput rest)).exact
      generalize dispatch bounds word { m with input := rest } = o at hfirst ⊢
      generalize dispatch bounds word { m' with input := rest } = o' at hfirst ⊢
      cases hfirst with
      | none => exact .none
      | some hagree =>
        cases hagree with
        | error fault h => exact .some (.error fault h)
        | ok flow h =>
          cases flow with
          | quit => exact .some (.ok Flow.quit h)
          | next | leave => exact ih h

include hS in
theorem runInput_apart (h : Apart S printed [] m m') :
    Option.Rel (Outcome.Agree (Apart S printed [])) (runInput bounds m) (runInput bounds m') := by
  unfold runInput
  rw [h.input, List.append_nil]
  exact runWords_apart hS bounds _ h

/-- The answers differ in what was printed before, and that is then cleared. -/
theorem answer_apart {o o' : Outcome Flow} (h : Outcome.Agree (Apart S printed behind) o o') :
    (answer o').1 = printed ++ (answer o).1 ∧ Apart S "" behind (answer o).2 (answer o').2 := by
  cases h with
  | ok flow h =>
    refine ⟨?_, h.cleared⟩
    simp only [answer, h.output, h.read (·.mode) fun _ _ _ _ => rfl, String.append_assoc]
  | error fault h =>
    refine ⟨?_, ((h.note _ _).change abort fun _ _ _ _ => rfl).cleared⟩
    simp only [answer, h.output, String.append_assoc]

end Lines

end ForthMachine
