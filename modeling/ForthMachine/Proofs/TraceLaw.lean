import ForthMachine.Proofs.Runs
import ForthMachine.Proofs.Simulation
import ForthMachine.Proofs.Trace

/-!
# Runs with their traces

What is said of a run together with what it takes up is put together from its parts. It is enough
to look at a single token, at a pass of a loop, and at one part behind another.

So a run that ends with the flow `leave` or `quit` has an event in its trace that says so.
-/

set_option autoImplicit false

namespace ForthMachine

open Machine

def Token.isLoop : Token → Bool
  | .counted _ _ => true
  | .indefinite _ _ => true
  | _ => false

def Token.primitive? : Token → Option Primitive
  | .call ⟨_, _, .primitive p⟩ => some p
  | _ => none

theorem Token.eq_call_of_primitive? {token : Token} {p : Primitive}
    (h : token.primitive? = some p) : ∃ serial name, token = .call ⟨serial, name, .primitive p⟩ := by
  unfold Token.primitive? at h
  split at h
  · cases h
    exact ⟨_, _, rfl⟩
  · cases h

theorem returns_pop (m : Machine) : (Outcome.machine (pop m)).returns = m.returns := by
  unfold pop
  split
  · rfl
  · rw [Outcome.machine_leaving]

theorem returns_popValues (n : Nat) (m : Machine) :
    (Outcome.machine (popValues n m)).returns = m.returns := by
  unfold popValues
  split <;> rfl

theorem returns_size (step : Step) (m : Machine) :
    (Outcome.machine (step.size m)).returns = m.returns := by
  cases step with
  | fixed n => rfl
  | fromStack => exact returns_pop m

/-- A part of a run: a run of its own, a pass of a loop, or what a loop still has before it. The
last two are inside the loop, which catches the flow `leave` between them. -/
inductive Part where
  | run
  | pass
  | loop

/-- What it takes for a property to hold of every run with its trace. It is a property of parts: of
the machine that a part begins in, the events that it takes up, and its outcome. What holds of a
part holds from an earlier machine, too, if that is related and has the same return stack. -/
structure TraceLaw (bounds : Bounds) (allowed : Primitive → Bool) (R : Machine → Machine → Prop)
    (P : Part → Machine → List Event → Option (Outcome Flow) → Prop) : Prop where
  step : StepLaw R
  along : ∀ {part : Part} {m m' : Machine} {events : List Event} {o : Option (Outcome Flow)},
    R m m' → m'.returns = m.returns → P part m' events o → P part m events o
  givenUp : ∀ m : Machine, P .loop m [] none
  ok : ∀ (part : Part) (m : Machine), P part m [] (some (.ok .next m))
  error : ∀ (part : Part) (fault : Fault) (m : Machine), P part m [] (some (.error fault m))
  taken : ∀ {token : Token} {m : Machine} {events : List Event} {o : Option (Outcome Flow)},
    token.callsOnly allowed = true → token.primitive? = none → token ≠ .leave →
    P .run m events o → P .run m (⟨token, m, []⟩ :: events) o
  leave : ∀ m : Machine, P .run m [⟨.leave, m, []⟩] (some (.ok .leave m))
  primitive : ∀ (serial : Nat) (name : String) {p : Primitive} (m : Machine) (entry : Entry),
    allowed p = true →
    P .run m [⟨.call ⟨serial, name, .primitive p⟩, m, []⟩] (some (p.run (m.note entry)))
  loop : ∀ {token : Token} {m : Machine} {events : List Event},
    token.callsOnly allowed = true → token.isLoop = true →
    traceToken bounds token m = ⟨token, m, []⟩ :: events →
    P .loop m events (runToken bounds token m) →
    P .run m (traceToken bounds token m) (runToken bounds token m)
  nested : ∀ {m : Machine} {events : List Event} {o : Option (Outcome Flow)},
    P .run { m with depth := m.depth + 1 } events o →
    P .run m events (o.map (Outcome.adjust fun m => { m with depth := m.depth - 1 }))
  counted : ∀ {run : Run} {index : Int64} {m : Machine} {events : List Event}, Run.Obeys R run →
    P .run { m with returns := .value index :: m.returns } events
      (run { m with returns := .value index :: m.returns }) →
    P .pass m (events.map (.inside (.counted index))) (withIndex index run m)
  indefinite : ∀ {m : Machine} {events : List Event} {o : Option (Outcome Flow)},
    P .run m events o → P .pass m (events.map (.inside .indefinite)) o
  andThen : ∀ {m : Machine} {first : List Event} {o : Option (Outcome Flow)} {events : Trace}
    {next : Run}, P .run m first o → (∀ {o' : Outcome Flow}, o = some o' → R m o'.machine) →
    (∀ m', P .run m' (events m') (next m')) →
    P .run m (first ++ match o with | some (.ok .next m) => events m | _ => [])
      (match o with | some (.ok .next m) => next m | stopped => stopped)
  andThenInLoop : ∀ {m : Machine} {first : List Event} {o : Option (Outcome Flow)} {events : Trace}
    {next : Run}, P .pass m first o → (∀ {o' : Outcome Flow}, o = some o' → R m o'.machine) →
    (∀ m', P .loop m' (events m') (next m')) →
    P .loop m (first ++ match o with | some (.ok .next m) => events m | _ => [])
      (match o with
        | some (.ok .leave m) => some (.ok .next m)
        | some (.ok .next m) => next m
        | stopped => stopped)

namespace TraceLaw

variable {bounds : Bounds} {allowed : Primitive → Bool} {R : Machine → Machine → Prop}
  {P : Part → Machine → List Event → Option (Outcome Flow) → Prop}

section Parts

variable (law : TraceLaw bounds allowed R P)
include law

theorem behind {part : Part} {m : Machine} {result : Outcome Int64} {events : Int64 → Trace}
    {next : Int64 → Run} : R m result.machine → result.machine.returns = m.returns →
    (∀ n m', P part m' (events n m') (next n m')) →
    P part m (match result with | .error _ _ => [] | .ok n m => events n m)
      (match result with | .error fault m => some (.error fault m) | .ok n m => next n m) := by
  intro hstep hreturns hnext
  cases result with
  | ok n m' => exact law.along hstep hreturns (hnext n m')
  | error fault m' => exact law.along hstep hreturns (law.error part fault m')

theorem noted {part : Part} {m : Machine} {events : List Event} {o : Option (Outcome Flow)}
    (entry : Entry) (h : P part (m.note entry) events o) : P part m events o :=
  law.along (law.step.log m (m.note entry).log) rfl h

variable {trace first second : Trace} {run condition body : Run}

theorem nestedRun (limit : Option Nat) (hrun : ∀ m, P .run m (trace m) (run m)) (m : Machine) :
    P .run m (traceNested limit trace m) (ForthMachine.nested limit run m) := by
  unfold traceNested ForthMachine.nested
  split
  · exact law.error .run .tooDeep m
  · exact law.nested (hrun _)

theorem countedLoop (hkeeps : Run.Obeys R run) (hrun : ∀ m, P .run m (trace m) (run m))
    (step : Step) (limit : Int64) (passes : Nat) (index : Int64) (m : Machine) :
    P .loop m (traceCounted run trace step limit passes index m)
      (ForthMachine.countedLoop run step limit passes index m) := by
  induction passes generalizing index m with
  | zero =>
    simp only [traceCounted, ForthMachine.countedLoop]
    split
    · exact law.givenUp m
    · exact law.ok .loop m
  | succ passes ih =>
    simp only [traceCounted, ForthMachine.countedLoop]
    split
    · refine law.andThenInLoop (law.counted hkeeps (hrun _)) (law.step.withIndex index hkeeps)
        fun m₁ => ?_
      refine law.behind (law.step.size step m₁) (returns_size step m₁) fun size m₂ => ?_
      cases addInRange? index size with
      | none => exact law.ok .loop m₂
      | some next => exact ih next m₂
    · exact law.ok .loop m

theorem indefiniteLoop (hkeeps : Run.Obeys R condition)
    (hcondition : ∀ m, P .run m (first m) (condition m)) (hkeeps' : Run.Obeys R body)
    (hbody : ∀ m, P .run m (second m) (body m)) (passes : Nat) (m : Machine) :
    P .loop m (traceIndefinite condition body first second passes m)
      (ForthMachine.indefiniteLoop condition body passes m) := by
  induction passes generalizing m with
  | zero => exact law.givenUp m
  | succ passes ih =>
    simp only [traceIndefinite, ForthMachine.indefiniteLoop]
    refine law.andThenInLoop (law.indefinite (hcondition m)) hkeeps fun m₁ => ?_
    refine law.behind (law.step.pop m₁) (returns_pop m₁) fun goOn m₂ => ?_
    split
    · exact law.ok .loop m₂
    · exact law.andThenInLoop (law.indefinite (hbody m₂)) hkeeps' ih

end Parts

section Runs

theorem nestedTokens (law : TraceLaw bounds allowed R P) (tokens : List Token) :
    Run.Obeys R (ForthMachine.nested bounds.nesting (ForthMachine.runTokens bounds tokens)) :=
  law.step.nested _ (law.step.runTokens bounds tokens)

mutual

theorem runToken (law : TraceLaw bounds allowed R P) : ∀ token : Token,
    token.callsOnly allowed = true →
      ∀ m, P .run m (traceToken bounds token m) (ForthMachine.runToken bounds token m)
  | .number n, h, m =>
    law.taken h rfl nofun (law.along (law.step.push n m) rfl (law.ok .run _))
  | .call word, h, m => law.callWord word h m
  | .unresolved name, h, m => law.taken h rfl nofun (law.error .run (.undefinedWord name) m)
  | .counted body step, h, m => by
    refine law.loop h rfl (by simp only [traceToken]; rfl) ?_
    have hlimits := law.step.popValues 2 m
    have hreturns := returns_popValues 2 m
    simp only [ForthMachine.runToken]
    generalize popValues 2 m = result at hlimits hreturns ⊢
    cases result with
    | error fault m₁ => exact law.along hlimits hreturns (law.error .loop fault m₁)
    | ok limits m₁ =>
      exact law.along hlimits hreturns (law.countedLoop (law.nestedTokens body)
        (law.nestedRun bounds.nesting (law.runTokens body h)) step _ _ _ m₁)
  | .branch ifTrue ifFalse, h, m => by
    obtain ⟨htrue, hfalse⟩ := Bool.and_eq_true_iff.mp h
    simp only [traceToken, ForthMachine.runToken]
    refine law.taken h rfl nofun (law.behind (law.step.pop m) (returns_pop m) fun choice m₁ => ?_)
    split
    · exact law.nestedRun bounds.nesting (law.runTokens ifTrue htrue) m₁
    · exact law.nestedRun bounds.nesting (law.runTokens ifFalse hfalse) m₁
  | .indefinite condition body, h, m => by
    obtain ⟨hcondition, hbody⟩ := Bool.and_eq_true_iff.mp h
    exact law.loop h rfl (by simp only [traceToken])
      (law.indefiniteLoop (law.nestedTokens condition)
        (law.nestedRun bounds.nesting (law.runTokens condition hcondition)) (law.nestedTokens body)
        (law.nestedRun bounds.nesting (law.runTokens body hbody)) _ m)
  | .leave, _, m => law.leave m
termination_by structural token => token

theorem callWord (law : TraceLaw bounds allowed R P) : ∀ word : Word,
    word.callsOnly allowed = true →
      ∀ m, P .run m (traceToken bounds (.call word) m) (ForthMachine.callWord bounds word m)
  | ⟨serial, name, behavior⟩, h, m => law.runBehavior serial name behavior h m _
termination_by structural word => word

theorem runBehavior (law : TraceLaw bounds allowed R P) (serial : Nat) (name : String) :
    ∀ behavior : Behavior, behavior.callsOnly allowed = true → ∀ m entry,
      P .run m (⟨.call ⟨serial, name, behavior⟩, m, []⟩ ::
          traceBehavior bounds behavior (m.note entry))
        (ForthMachine.runBehavior bounds name behavior (m.note entry))
  | .primitive _, h, m, entry => law.primitive serial name m entry h
  | .definition body, h, _, entry =>
    law.taken h rfl nofun (law.noted entry (law.nestedRun bounds.nesting (law.runTokens body h) _))
  | .structural _, h, _, entry =>
    law.taken h rfl nofun (law.noted entry (law.error .run .compileOnly _))
  | .readAhead _, h, _, entry =>
    law.taken h rfl nofun (law.noted entry (law.error .run (.unknownToken name) _))
  | .comment _, h, _, entry =>
    law.taken h rfl nofun (law.noted entry (law.error .run (.unknownToken name) _))
termination_by structural behavior => behavior

theorem runTokens (law : TraceLaw bounds allowed R P) : ∀ tokens : List Token,
    Token.callsOnlyAll allowed tokens = true →
      ∀ m, P .run m (traceTokens bounds tokens m) (ForthMachine.runTokens bounds tokens m)
  | [], _, m => law.ok .run m
  | token :: tokens, h, m => by
    obtain ⟨htoken, htokens⟩ := Bool.and_eq_true_iff.mp h
    simp only [traceTokens, ForthMachine.runTokens]
    exact law.andThen (law.runToken token htoken m) (law.step.runToken bounds token)
      (law.runTokens tokens htokens)
termination_by structural tokens => tokens

end

theorem execute (law : TraceLaw bounds allowed R P) {tokens : List Token}
    (h : Token.callsOnlyAll allowed tokens = true) (m : Machine) :
    P .run m (traceExecute bounds tokens m) (ForthMachine.execute bounds tokens m) :=
  law.nestedRun bounds.nesting (law.runTokens tokens h) m

end Runs

end TraceLaw

def Behavior.IsQuit : Behavior → Prop
  | .primitive p => p = .quit ∨ p = .bye
  | _ => False

/-- The token calls one of the two primitives that end the line. -/
def Token.IsQuit : Token → Prop
  | .call word => word.behavior.IsQuit
  | _ => False

instance : DecidablePred Behavior.IsQuit
  | .primitive p => inferInstanceAs (Decidable (p = .quit ∨ p = .bye))
  | .structural _ | .readAhead _ | .comment _ | .definition _ => isFalse id

instance : DecidablePred Token.IsQuit
  | .call word => inferInstanceAs (Decidable word.behavior.IsQuit)
  | .number _ | .unresolved _ | .counted _ _ | .branch _ _ | .indefinite _ _ | .leave =>
    isFalse id

/-- The token sends a run on its way out: of the nearest loop, with none in between, or of the
line. -/
def Event.Signals (event : Event) : Flow → Prop
  | .next => False
  | .leave => event.token = .leave ∧ event.loops = []
  | .quit => event.token.IsQuit

def Signalled (trace : Trace) (run : Run) : Prop :=
  ∀ ⦃m m' : Machine⦄ ⦃flow : Flow⦄, run m = some (.ok flow m') → flow ≠ .next →
    ∃ event ∈ trace m, event.Signals flow

theorem nested_eq_ok {limit : Option Nat} {run : Run} {m m' : Machine} {flow : Flow}
    (h : nested limit run m = some (.ok flow m')) :
    ¬ limit.any (· ≤ m.depth) ∧ ∃ m₁, run { m with depth := m.depth + 1 } = some (.ok flow m₁) ∧
      m' = { m₁ with depth := m₁.depth - 1 } := by
  unfold nested at h
  split at h
  · cases h
  · rename_i hroom
    obtain ⟨o, hrun, hadjust⟩ := Option.map_eq_some_iff.mp h
    cases o with
    | ok flow' m₁ =>
      cases hadjust
      exact ⟨hroom, m₁, hrun, rfl⟩
    | error fault m₁ => cases hadjust

theorem withIndex_eq_ok {index : Int64} {run : Run} {m m' : Machine} {flow : Flow}
    (h : withIndex index run m = some (.ok flow m')) :
    ∃ n m₁, run { m with returns := .value index :: m.returns } = some (.ok flow m₁) ∧
      popReturn m₁ = .ok n m' := by
  unfold withIndex at h
  split at h
  · rename_i flow' m₁ hrun
    split at h
    · rename_i n m₂ hpop
      cases h
      exact ⟨n, m₁, hrun, hpop⟩
    · cases h
  · rename_i hstopped
    exact absurd h (hstopped flow m')

theorem Primitive.flow_eq (p : Primitive) : p.flow = .next ∨ p.flow = .quit ∧ (p = .quit ∨ p = .bye) := by
  cases p <;> simp [flow]

theorem Primitive.run_eq_ok {p : Primitive} {m m' : Machine} {flow : Flow}
    (h : p.run m = .ok flow m') : p.effect m = .ok () m' ∧ flow = p.flow := by
  obtain ⟨⟨⟩, m₁, heffect, hreturn⟩ := Action.bind_eq_ok h
  cases hreturn
  exact ⟨heffect, rfl⟩

/-- The flow is what one of the events sends the run on its way out with. A pass does not say where
it is left, since that ends the loop and nothing around it. -/
def SignalledIn (part : Part) (events : List Event) (o : Option (Outcome Flow)) : Prop :=
  ∀ ⦃flow : Flow⦄ ⦃m : Machine⦄, o = some (.ok flow m) → flow ≠ .next →
    (part = .pass → flow ≠ .leave) → ∃ event ∈ events, event.Signals flow

namespace SignalledIn

variable {part : Part} {events first : List Event} {o : Option (Outcome Flow)}

theorem ok (m : Machine) : SignalledIn part events (some (.ok .next m)) := by
  rintro flow m' ⟨⟩ hflow
  exact absurd rfl hflow

theorem behind (h : SignalledIn part events o) (first : List Event) :
    SignalledIn part (first ++ events) o := by
  intro flow m ho hflow hpart
  obtain ⟨event, hevent, hsignals⟩ := h ho hflow hpart
  exact ⟨event, List.mem_append_right first hevent, hsignals⟩

theorem before (h : SignalledIn part events o) (rest : List Event) :
    SignalledIn part (events ++ rest) o := by
  intro flow m ho hflow hpart
  obtain ⟨event, hevent, hsignals⟩ := h ho hflow hpart
  exact ⟨event, List.mem_append_left rest hevent, hsignals⟩

/-- Only `quit` gets out of a pass, and it does not matter how deep in loops it comes from. -/
theorem inside {o' : Option (Outcome Flow)} (h : SignalledIn .run events o) (loop : Loop)
    (hends : ∀ {flow m'}, o' = some (.ok flow m') → ∃ m, o = some (.ok flow m)) :
    SignalledIn .pass (events.map (.inside loop)) o' := by
  intro flow m ho hflow hleave
  obtain ⟨m', ho'⟩ := hends ho
  obtain ⟨event, hevent, hsignals⟩ := h ho' hflow nofun
  cases flow with
  | next => exact absurd rfl hflow
  | leave => exact absurd rfl (hleave rfl)
  | quit => exact ⟨event.inside loop, List.mem_map_of_mem hevent, hsignals⟩

section Sequence

variable {events : Trace} {next : Run}

theorem andThen : SignalledIn .run first o → (∀ m, SignalledIn .run (events m) (next m)) →
    SignalledIn .run (first ++ match o with | some (.ok .next m) => events m | _ => [])
      (match o with | some (.ok .next m) => next m | stopped => stopped) := by
  intro hfirst hnext
  rcases o with - | ⟨flow, m⟩ | ⟨fault, m⟩
  · exact nofun
  · cases flow with
    | next => exact (hnext m).behind first
    | leave | quit => exact hfirst.before []
  · exact nofun

theorem andThenInLoop : SignalledIn .pass first o → (∀ m, SignalledIn .loop (events m) (next m)) →
    SignalledIn .loop (first ++ match o with | some (.ok .next m) => events m | _ => [])
      (match o with
        | some (.ok .leave m) => some (.ok .next m)
        | some (.ok .next m) => next m
        | stopped => stopped) := by
  intro hfirst hnext
  rcases o with - | ⟨flow, m⟩ | ⟨fault, m⟩
  · exact nofun
  · cases flow with
    | next => exact (hnext m).behind first
    | leave => exact .ok m
    | quit =>
      intro flow m' ho hflow _
      refine hfirst.before [] ho hflow fun _ => ?_
      cases ho
      exact nofun
  · exact nofun

end Sequence

end SignalledIn

theorem signalledIn_call (serial : Nat) (name : String) (p : Primitive) (m m' : Machine) :
    SignalledIn .run [⟨.call ⟨serial, name, .primitive p⟩, m, []⟩] (some (p.run m')) := by
  intro flow m₁ hrun hflow _
  obtain ⟨-, rfl⟩ := Primitive.run_eq_ok (Option.some.inj hrun)
  rcases p.flow_eq with hnext | ⟨hquit, hp⟩
  · exact absurd hnext hflow
  · refine ⟨_, List.mem_cons_self, ?_⟩
    rw [hquit]
    exact hp

theorem signalled_traceLaw (bounds : Bounds) :
    TraceLaw bounds (fun _ => true) Undisturbed fun part _ => SignalledIn part where
  step := undisturbed_stepLaw
  along _ _ h := h
  givenUp _ := nofun
  ok _ m := .ok m
  error _ _ _ := nofun
  taken _ _ _ h := h.behind [_]
  leave _ := by
    rintro _ _ ⟨⟩ _ _
    exact ⟨_, List.mem_cons_self, rfl, rfl⟩
  primitive serial name {p} m entry _ := signalledIn_call serial name p m _
  loop _ _ htrace h flow m' ho hflow _ := htrace ▸ h.behind [_] ho hflow nofun
  nested h flow m' ho hflow hpart := by
    obtain ⟨o, ho', hadjust⟩ := Option.map_eq_some_iff.mp ho
    cases o with
    | ok flow' m₁ =>
      cases hadjust
      exact h ho' hflow hpart
    | error fault m₁ => cases hadjust
  counted _ h := h.inside _ fun ho => by
    obtain ⟨n, m₁, hinner, -⟩ := withIndex_eq_ok ho
    exact ⟨m₁, hinner⟩
  indefinite h := h.inside _ fun ho => ⟨_, ho⟩
  andThen h _ := h.andThen
  andThenInLoop h _ := h.andThenInLoop

section Runs

variable (bounds : Bounds)

theorem runToken_signalled (token : Token) :
    Signalled (traceToken bounds token) (runToken bounds token) := fun m _ _ hrun hflow =>
  (signalled_traceLaw bounds).runToken token (Token.callsOnly_of_forall (fun _ => rfl) token) m hrun
    hflow nofun

theorem execute_signalled (tokens : List Token) :
    Signalled (traceExecute bounds tokens) (execute bounds tokens) := fun m _ _ hrun hflow =>
  (signalled_traceLaw bounds).execute (Token.callsOnlyAll_of_forall (fun _ => rfl) tokens) m hrun
    hflow nofun

end Runs

end ForthMachine
