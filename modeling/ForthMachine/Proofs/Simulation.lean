import ForthMachine.Machine.Executor

/-!
# Two runs side by side

Two machines that differ only where a run does not look go through the same run, and two programs
whose parts go the same way do so, too. Inside counted loops the machines may differ otherwise than
outside. With some faults the first run may fall behind, and then nothing is said of the second.
-/

set_option autoImplicit false

namespace ForthMachine

open Machine

mutual

/-- Only such primitives are called, by the token or in the definitions that it calls. -/
def Token.callsOnly (allowed : Primitive → Bool) : Token → Bool
  | .number _ => true
  | .call word => Word.callsOnly allowed word
  | .unresolved _ => true
  | .counted body _ => Token.callsOnlyAll allowed body
  | .branch ifTrue ifFalse =>
    Token.callsOnlyAll allowed ifTrue && Token.callsOnlyAll allowed ifFalse
  | .indefinite condition body =>
    Token.callsOnlyAll allowed condition && Token.callsOnlyAll allowed body
  | .leave => true
termination_by structural token => token

def Word.callsOnly (allowed : Primitive → Bool) : Word → Bool
  | ⟨_, _, behavior⟩ => Behavior.callsOnly allowed behavior
termination_by structural word => word

def Behavior.callsOnly (allowed : Primitive → Bool) : Behavior → Bool
  | .primitive p => allowed p
  | .definition body => Token.callsOnlyAll allowed body
  | .structural _ => true
  | .readAhead _ => true
  | .comment _ => true
termination_by structural behavior => behavior

def Token.callsOnlyAll (allowed : Primitive → Bool) : List Token → Bool
  | [] => true
  | token :: tokens => Token.callsOnly allowed token && Token.callsOnlyAll allowed tokens
termination_by structural tokens => tokens

end

mutual

theorem Token.callsOnly_of_forall {allowed : Primitive → Bool} (h : ∀ p, allowed p = true) :
    ∀ token : Token, token.callsOnly allowed = true
  | .number _ | .unresolved _ | .leave => rfl
  | .call word => Word.callsOnly_of_forall h word
  | .counted body _ => Token.callsOnlyAll_of_forall h body
  | .branch ifTrue ifFalse => Bool.and_eq_true_iff.mpr
    ⟨Token.callsOnlyAll_of_forall h ifTrue, Token.callsOnlyAll_of_forall h ifFalse⟩
  | .indefinite condition body => Bool.and_eq_true_iff.mpr
    ⟨Token.callsOnlyAll_of_forall h condition, Token.callsOnlyAll_of_forall h body⟩
termination_by structural token => token

theorem Word.callsOnly_of_forall {allowed : Primitive → Bool} (h : ∀ p, allowed p = true) :
    ∀ word : Word, word.callsOnly allowed = true
  | ⟨_, _, behavior⟩ => Behavior.callsOnly_of_forall h behavior
termination_by structural word => word

theorem Behavior.callsOnly_of_forall {allowed : Primitive → Bool} (h : ∀ p, allowed p = true) :
    ∀ behavior : Behavior, behavior.callsOnly allowed = true
  | .primitive p => h p
  | .definition body => Token.callsOnlyAll_of_forall h body
  | .structural _ | .readAhead _ | .comment _ => rfl
termination_by structural behavior => behavior

theorem Token.callsOnlyAll_of_forall {allowed : Primitive → Bool} (h : ∀ p, allowed p = true) :
    ∀ tokens : List Token, Token.callsOnlyAll allowed tokens = true
  | [] => rfl
  | token :: tokens => Bool.and_eq_true_iff.mpr
    ⟨Token.callsOnly_of_forall h token, Token.callsOnlyAll_of_forall h tokens⟩
termination_by structural tokens => tokens

end

/-- The second run ends like the first one, unless the fault of the first one is excused. A fault
may come at any place, and so anywhere among the relations. -/
inductive Mirrors {ι α : Type} (excused : Fault → Prop) (R : ι → Machine → Machine → Prop)
    (i : ι) : Option (Outcome α) → Option (Outcome α) → Prop where
  | excused {fault : Fault} (h : excused fault) (m : Machine) (o : Option (Outcome α)) :
      Mirrors excused R i (some (.error fault m)) o
  | givenUp : Mirrors excused R i none none
  | ok {m m' : Machine} (a : α) (h : R i m m') :
      Mirrors excused R i (some (.ok a m)) (some (.ok a m'))
  | error {m m' : Machine} (fault : Fault) {j : ι} (h : R j m m') :
      Mirrors excused R i (some (.error fault m)) (some (.error fault m'))

section Sides

variable {ι : Type} (excused : Fault → Prop) (R : ι → Machine → Machine → Prop) (i : ι)

def Action.Mirrors {α : Type} (action action' : Action α) : Prop :=
  ∀ m m' : Machine, R i m m' →
    ForthMachine.Mirrors excused R i (some (action m)) (some (action' m'))

def Run.Mirrors (run run' : Run) : Prop :=
  ∀ m m' : Machine, R i m m' → ForthMachine.Mirrors excused R i (run m) (run' m')

end Sides

namespace Mirrors

variable {ι : Type} {excused : Fault → Prop} {R : ι → Machine → Machine → Prop} {i : ι}

theorem bind {α β : Type} {first first' : Action α} {next next' : α → Action β} {m m' : Machine}
    (hfirst : Mirrors excused R i (some (first m)) (some (first' m')))
    (hnext : ∀ a, Action.Mirrors excused R i (next a) (next' a)) :
    Mirrors excused R i (some ((first >>= next) m)) (some ((first' >>= next') m')) := by
  change Mirrors _ _ _ (some (EStateM.bind first next m)) (some (EStateM.bind first' next' m'))
  unfold EStateM.bind
  generalize first m = result at hfirst ⊢
  generalize first' m' = result' at hfirst ⊢
  cases hfirst with
  | excused hexcused m o => exact .excused hexcused m _
  | ok a h => exact hnext a _ _ h
  | error fault h => exact .error fault h

theorem leaving {α : Type} {m m' : Machine} (h : R i m m') (result : Except Fault α) :
    Mirrors excused R i (some (Machine.leaving m result)) (some (Machine.leaving m' result)) := by
  cases result with
  | ok a => exact .ok a h
  | error fault => exact .error fault h

theorem behind {next next' : Int64 → Run} {r r' : Outcome Int64} :
    Mirrors excused R i (some r) (some r') →
    (∀ n, Run.Mirrors excused R i (next n) (next' n)) →
    Mirrors excused R i
      (match r with | .error fault m => some (.error fault m) | .ok n m => next n m)
      (match r' with | .error fault m => some (.error fault m) | .ok n m => next' n m) := by
  intro h hnext
  cases h with
  | excused h m o => exact .excused h m _
  | ok n h => exact hnext n _ _ h
  | error fault h => exact .error fault h

section Sequence

variable {o o' : Option (Outcome Flow)} {next next' : Run}

theorem andThen : Mirrors excused R i o o' → Run.Mirrors excused R i next next' →
    Mirrors excused R i (match o with | some (.ok .next m) => next m | stopped => stopped)
      (match o' with | some (.ok .next m) => next' m | stopped => stopped) := by
  intro h hnext
  cases h with
  | excused h m o => exact .excused h m _
  | givenUp => exact .givenUp
  | error fault h => exact .error fault h
  | ok flow h =>
    cases flow with
    | next => exact hnext _ _ h
    | leave => exact .ok Flow.leave h
    | quit => exact .ok Flow.quit h

theorem andThenInLoop : Mirrors excused R i o o' → Run.Mirrors excused R i next next' →
    Mirrors excused R i
      (match o with
        | some (.ok .leave m) => some (.ok .next m)
        | some (.ok .next m) => next m
        | stopped => stopped)
      (match o' with
        | some (.ok .leave m) => some (.ok .next m)
        | some (.ok .next m) => next' m
        | stopped => stopped) := by
  intro h hnext
  cases h with
  | excused h m o => exact .excused h m _
  | givenUp => exact .givenUp
  | error fault h => exact .error fault h
  | ok flow h =>
    cases flow with
    | next => exact hnext _ _ h
    | leave => exact .ok Flow.next h
    | quit => exact .ok Flow.quit h

end Sequence

end Mirrors

namespace Action.Mirrors

variable {ι α β : Type} {excused : Fault → Prop} {R : ι → Machine → Machine → Prop} {i : ι}

theorem pure (a : α) :
    Action.Mirrors excused R i (Pure.pure a : Action α) (Pure.pure a : Action α) :=
  fun _ _ h => .ok a h

theorem fail (fault : Fault) :
    Action.Mirrors excused R i (Machine.fail fault : Action α) (Machine.fail fault : Action α) :=
  fun _ _ h => .error fault h

theorem bind {first first' : Action α} {next next' : α → Action β}
    (hfirst : Action.Mirrors excused R i first first')
    (hnext : ∀ a, Action.Mirrors excused R i (next a) (next' a)) :
    Action.Mirrors excused R i (first >>= next) (first' >>= next') :=
  fun m m' h => (hfirst m m' h).bind hnext

end Action.Mirrors

theorem Run.Mirrors.cons {ι : Type} {bounds bounds' : Bounds} {excused : Fault → Prop}
    {R : ι → Machine → Machine → Prop} {i : ι} {token token' : Token}
    {tokens tokens' : List Token}
    (hfirst : Run.Mirrors excused R i (runToken bounds token) (runToken bounds' token'))
    (hrest : Run.Mirrors excused R i (runTokens bounds tokens) (runTokens bounds' tokens')) :
    Run.Mirrors excused R i (runTokens bounds (token :: tokens))
      (runTokens bounds' (token' :: tokens')) := by
  intro m m' h
  simp only [runTokens]
  exact (hfirst m m' h).andThen hrest

/-- What runs are made of goes the same way in both machines. Where they are related by `R i`, they
are related by `R (up i)` once both have the index of a loop on their return stacks. -/
structure Simulation {ι : Type} (bounds bounds' : Bounds) (excused : Fault → Prop)
    (allowed : Primitive → Bool) (R : ι → Machine → Machine → Prop) (up : ι → ι) : Prop where
  passes : bounds'.passes = bounds.passes
  full : ∀ {i : ι} {m m' : Machine}, R i m m' → bounds.nesting.any (· ≤ m.depth) →
    excused .tooDeep ∨ bounds'.nesting.any (· ≤ m'.depth)
  room : ∀ {i : ι} {m m' : Machine}, R i m m' → ¬ bounds.nesting.any (· ≤ m.depth) →
    ¬ bounds'.nesting.any (· ≤ m'.depth)
  deeper : ∀ {i : ι} {m m' : Machine}, R i m m' →
    R i { m with depth := m.depth + 1 } { m' with depth := m'.depth + 1 }
  back : ∀ {i : ι} {m m' : Machine}, R i m m' →
    R i { m with depth := m.depth - 1 } { m' with depth := m'.depth - 1 }
  note : ∀ {i : ι} {m m' : Machine} (entry entry' : Entry), R i m m' →
    R i (m.note entry) (m'.note entry')
  push : ∀ {i : ι} (n : Int64), Action.Mirrors excused R i (Machine.push n) (Machine.push n)
  pop : ∀ {i : ι}, Action.Mirrors excused R i Machine.pop Machine.pop
  popValues : ∀ {i : ι} (n : Nat),
    Action.Mirrors excused R i (Machine.popValues n) (Machine.popValues n)
  primitive : ∀ {i : ι} {p : Primitive}, allowed p = true →
    Action.Mirrors excused R i p.run p.run
  pushIndex : ∀ {i : ι} {m m' : Machine} (index : Int64), R i m m' →
    R (up i) { m with returns := .value index :: m.returns }
      { m' with returns := .value index :: m'.returns }
  popIndex : ∀ {i : ι} {m m' : Machine}, R (up i) m m' →
    Mirrors excused R i (some (popReturn m)) (some (popReturn m'))

namespace Simulation

variable {ι : Type} {bounds bounds' : Bounds} {excused : Fault → Prop}
  {allowed : Primitive → Bool} {R : ι → Machine → Machine → Prop} {up : ι → ι}

section Runs

variable (law : Simulation bounds bounds' excused allowed R up) {i : ι}
include law

theorem nested {run run' : Run} (hrun : Run.Mirrors excused R i run run') :
    Run.Mirrors excused R i (ForthMachine.nested bounds.nesting run)
      (ForthMachine.nested bounds'.nesting run') := by
  intro m m' h
  unfold ForthMachine.nested
  by_cases hfull : bounds.nesting.any (· ≤ m.depth)
  · rw [if_pos hfull]
    rcases law.full h hfull with hexcused | hfull'
    · exact .excused hexcused m _
    · rw [if_pos hfull']
      exact .error .tooDeep h
  · rw [if_neg hfull, if_neg (law.room h hfull)]
    have hinner := hrun _ _ (law.deeper h)
    generalize run { m with depth := m.depth + 1 } = o at hinner ⊢
    generalize run' { m' with depth := m'.depth + 1 } = o' at hinner ⊢
    cases hinner with
    | excused hexcused m o => exact .excused hexcused _ _
    | givenUp => exact .givenUp
    | ok flow h => exact .ok flow (law.back h)
    | error fault h => exact .error fault (law.back h)

theorem withIndex (index : Int64) {run run' : Run} (hrun : Run.Mirrors excused R (up i) run run') :
    Run.Mirrors excused R i (ForthMachine.withIndex index run)
      (ForthMachine.withIndex index run') := by
  intro m m' h
  unfold ForthMachine.withIndex
  have hinner := hrun _ _ (law.pushIndex index h)
  generalize run { m with returns := .value index :: m.returns } = o at hinner ⊢
  generalize run' { m' with returns := .value index :: m'.returns } = o' at hinner ⊢
  cases hinner with
  | excused hexcused m o => exact .excused hexcused m _
  | givenUp => exact .givenUp
  | error fault h => exact .error fault h
  | @ok m₁ m₁' flow h =>
    have hpop := law.popIndex h
    dsimp only
    generalize popReturn m₁ = result at hpop ⊢
    generalize popReturn m₁' = result' at hpop ⊢
    cases hpop with
    | excused hexcused m o => exact .excused hexcused m _
    | ok a h => exact .ok flow h
    | error fault h => exact .error fault h

theorem size (step : Step) : Action.Mirrors excused R i step.size step.size := by
  cases step with
  | fixed n => exact fun _ _ h => .ok n h
  | fromStack => exact law.pop

theorem countedLoop {pass pass' : Run} (hpass : Run.Mirrors excused R (up i) pass pass')
    (step : Step) (limit : Int64) (passes : Nat) (index : Int64) :
    Run.Mirrors excused R i (ForthMachine.countedLoop pass step limit passes index)
      (ForthMachine.countedLoop pass' step limit passes index) := by
  induction passes generalizing index with
  | zero =>
    intro m m' h
    simp only [ForthMachine.countedLoop]
    split
    · exact .givenUp
    · exact .ok Flow.next h
  | succ passes ih =>
    intro m m' h
    simp only [ForthMachine.countedLoop]
    split
    · refine (law.withIndex index hpass m m' h).andThenInLoop fun m₁ m₁' h => ?_
      refine (law.size step m₁ m₁' h).behind fun size m₂ m₂' h => ?_
      cases addInRange? index size with
      | none => exact .ok Flow.next h
      | some index => exact ih index m₂ m₂' h
    · exact .ok Flow.next h

theorem indefiniteLoop {condition condition' body body' : Run}
    (hcondition : Run.Mirrors excused R i condition condition')
    (hbody : Run.Mirrors excused R i body body') (passes : Nat) :
    Run.Mirrors excused R i (ForthMachine.indefiniteLoop condition body passes)
      (ForthMachine.indefiniteLoop condition' body' passes) := by
  induction passes with
  | zero => exact fun _ _ _ => .givenUp
  | succ passes ih =>
    intro m m' h
    simp only [ForthMachine.indefiniteLoop]
    refine (hcondition m m' h).andThenInLoop fun m₁ m₁' h => ?_
    refine (law.pop m₁ m₁' h).behind fun goOn m₂ m₂' h => ?_
    split
    · exact .ok Flow.next h
    · exact (hbody m₂ m₂' h).andThenInLoop ih

theorem counted {body body' : List Token}
    (hbody : Run.Mirrors excused R (up i) (ForthMachine.runTokens bounds body)
      (ForthMachine.runTokens bounds' body')) (step : Step) :
    Run.Mirrors excused R i (ForthMachine.runToken bounds (.counted body step))
      (ForthMachine.runToken bounds' (.counted body' step)) := by
  intro m m' h
  simp only [ForthMachine.runToken]
  have hlimits := law.popValues 2 m m' h
  generalize Machine.popValues 2 m = result at hlimits ⊢
  generalize Machine.popValues 2 m' = result' at hlimits ⊢
  cases hlimits with
  | excused hexcused m o => exact .excused hexcused m _
  | error fault h => exact .error fault h
  | ok limits h =>
    dsimp only
    rw [law.passes]
    exact law.countedLoop (law.nested hbody) step _ _ _ _ _ h

theorem branch {ifTrue ifTrue' ifFalse ifFalse' : List Token}
    (htrue : Run.Mirrors excused R i (ForthMachine.runTokens bounds ifTrue)
      (ForthMachine.runTokens bounds' ifTrue'))
    (hfalse : Run.Mirrors excused R i (ForthMachine.runTokens bounds ifFalse)
      (ForthMachine.runTokens bounds' ifFalse')) :
    Run.Mirrors excused R i (ForthMachine.runToken bounds (.branch ifTrue ifFalse))
      (ForthMachine.runToken bounds' (.branch ifTrue' ifFalse')) := by
  intro m m' h
  simp only [ForthMachine.runToken]
  refine (law.pop m m' h).behind fun choice m₁ m₁' h => ?_
  split
  · exact law.nested htrue m₁ m₁' h
  · exact law.nested hfalse m₁ m₁' h

theorem indefinite {condition condition' body body' : List Token}
    (hcondition : Run.Mirrors excused R i (ForthMachine.runTokens bounds condition)
      (ForthMachine.runTokens bounds' condition'))
    (hbody : Run.Mirrors excused R i (ForthMachine.runTokens bounds body)
      (ForthMachine.runTokens bounds' body')) :
    Run.Mirrors excused R i (ForthMachine.runToken bounds (.indefinite condition body))
      (ForthMachine.runToken bounds' (.indefinite condition' body')) := by
  intro m m' h
  simp only [ForthMachine.runToken]
  rw [law.passes]
  exact law.indefiniteLoop (law.nested hcondition) (law.nested hbody) _ m m' h

end Runs

mutual

theorem runToken (law : Simulation bounds bounds' excused allowed R up) (i : ι) :
    ∀ token : Token, token.callsOnly allowed = true →
      Run.Mirrors excused R i (ForthMachine.runToken bounds token)
        (ForthMachine.runToken bounds' token)
  | .number n, _ => fun m m' h => by
    cases law.push n m m' h with
    | ok _ h => exact .ok Flow.next h
  | .call word, hcalls => callWord law i word hcalls
  | .unresolved name, _ => fun _ _ h => .error (.undefinedWord name) h
  | .counted body step, hcalls => law.counted (runTokens law (up i) body hcalls) step
  | .branch ifTrue ifFalse, hcalls => by
    obtain ⟨htrue, hfalse⟩ := Bool.and_eq_true_iff.mp hcalls
    exact law.branch (runTokens law i ifTrue htrue) (runTokens law i ifFalse hfalse)
  | .indefinite condition body, hcalls => by
    obtain ⟨hcondition, hbody⟩ := Bool.and_eq_true_iff.mp hcalls
    exact law.indefinite (runTokens law i condition hcondition) (runTokens law i body hbody)
  | .leave, _ => fun _ _ h => .ok Flow.leave h
termination_by structural token => token

theorem callWord (law : Simulation bounds bounds' excused allowed R up) (i : ι) :
    ∀ word : Word, word.callsOnly allowed = true →
      Run.Mirrors excused R i (ForthMachine.callWord bounds word)
        (ForthMachine.callWord bounds' word)
  | ⟨_, name, behavior⟩, hcalls => fun _ _ h =>
    runBehavior law i name behavior hcalls _ _ (law.note _ _ h)
termination_by structural word => word

theorem runBehavior (law : Simulation bounds bounds' excused allowed R up) (i : ι)
    (name : String) : ∀ behavior : Behavior, behavior.callsOnly allowed = true →
      Run.Mirrors excused R i (ForthMachine.runBehavior bounds name behavior)
        (ForthMachine.runBehavior bounds' name behavior)
  | .primitive _, hcalls => law.primitive hcalls
  | .definition body, hcalls => law.nested (runTokens law i body hcalls)
  | .structural _, _ => fun _ _ h => .error .compileOnly h
  | .readAhead _, _ => fun _ _ h => .error (.unknownToken name) h
  | .comment _, _ => fun _ _ h => .error (.unknownToken name) h
termination_by structural behavior => behavior

theorem runTokens (law : Simulation bounds bounds' excused allowed R up) (i : ι) :
    ∀ tokens : List Token, Token.callsOnlyAll allowed tokens = true →
      Run.Mirrors excused R i (ForthMachine.runTokens bounds tokens)
        (ForthMachine.runTokens bounds' tokens)
  | [], _ => fun _ _ h => .ok Flow.next h
  | token :: tokens, hcalls => by
    obtain ⟨htoken, htokens⟩ := Bool.and_eq_true_iff.mp hcalls
    exact (runToken law i token htoken).cons (runTokens law i tokens htokens)
termination_by structural tokens => tokens

end

end Simulation

end ForthMachine
