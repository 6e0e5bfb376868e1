import ForthMachine.Proofs.Trace

/-!
# Recorded runs

A recorder runs tokens and notes on the way what a plain run keeps to itself: the tokens that it
takes up, and where nested runs begin and end. It threads a single machine. What it notes is read
off that machine, and the outcome is what becomes of it. The outcome is that of the plain run, so
the notes are about the run itself, and the tokens taken up are those of its trace.
-/

set_option autoImplicit false

namespace ForthMachine

open Machine

inductive Observation where
  | taken (event : Event)
  /-- A nested run begins, and finds this depth. -/
  | begins (found : Nat)
  /-- A nested run ends, and finds this depth. -/
  | ends (found : Nat)

namespace Observation

def inside (loop : Loop) : Observation → Observation
  | taken event => taken (event.inside loop)
  | begins found => begins found
  | ends found => ends found

def event? : Observation → Option Event
  | taken event => some event
  | _ => none

end Observation

structure Record where
  seen : List Observation
  outcome : Option (Outcome Flow)

abbrev Recorder := Machine → Record

namespace Record

/-- The tokens taken up. -/
def events (record : Record) : List Event :=
  record.seen.filterMap Observation.event?

def ended (o : Option (Outcome Flow)) : Record :=
  ⟨[], o⟩

/-- The record of a token that machine `m` takes up. -/
def taking (token : Token) (m : Machine) (record : Record) : Record :=
  ⟨.taken ⟨token, m, []⟩ :: record.seen, record.outcome⟩

def inside (loop : Loop) (record : Record) : Record :=
  { record with seen := record.seen.map (.inside loop) }

/-- What goes on from the machine that the first part leaves. -/
def andThen (first : Record) (next : Recorder) : Record :=
  match first.outcome with
  | some (.ok .next m) => ⟨first.seen ++ (next m).seen, (next m).outcome⟩
  | stopped => ⟨first.seen, stopped⟩

/-- The same inside a loop, which catches the flow `leave`. -/
def andThenInLoop (first : Record) (next : Recorder) : Record :=
  match first.outcome with
  | some (.ok .leave m) => ⟨first.seen, some (.ok .next m)⟩
  | some (.ok .next m) => ⟨first.seen ++ (next m).seen, (next m).outcome⟩
  | stopped => ⟨first.seen, stopped⟩

/-- What goes on behind an action that takes something from a stack. -/
def behind {α : Type} (result : Outcome α) (next : α → Recorder) : Record :=
  match result with
  | .error fault m => ended (some (.error fault m))
  | .ok a m => next a m

end Record

/-- A run that there is no room for is not begun. One that is given up does not end. -/
def recordNested (limit : Option Nat) (recorder : Recorder) : Recorder := fun m =>
  if limit.any (· ≤ m.depth) then .ended (some (.error .tooDeep m))
  else
    let inner := recorder { m with depth := m.depth + 1 }
    { seen := .begins m.depth :: inner.seen ++
        (inner.outcome.map fun o => .ends o.machine.depth).toList
      outcome := inner.outcome.map (Outcome.adjust fun m => { m with depth := m.depth - 1 }) }

def recordIndex (index : Int64) (recorder : Recorder) : Recorder := fun m =>
  let pass := (recorder { m with returns := .value index :: m.returns }).inside (.counted index)
  { pass with
    outcome :=
      match pass.outcome with
      | some (.ok flow m) =>
        match popReturn m with
        | .ok _ m => some (.ok flow m)
        | .error fault m => some (.error fault m)
      | stopped => stopped }

def recordCounted (pass : Recorder) (step : Step) (limit : Int64) (passes : Nat) (index : Int64) :
    Recorder := fun m =>
  if index < limit then
    match passes with
    | 0 => .ended none
    | passes + 1 =>
      (recordIndex index pass m).andThenInLoop fun m =>
        .behind (step.size m) fun size m =>
          match addInRange? index size with
          | none => .ended (some (.ok .next m))
          | some index => recordCounted pass step limit passes index m
  else .ended (some (.ok .next m))
termination_by structural passes

def recordIndefinite (condition body : Recorder) : Nat → Recorder
  | 0, _ => .ended none
  | passes + 1, m =>
    ((condition m).inside .indefinite).andThenInLoop fun m =>
      .behind (pop m) fun goOn m =>
        if goOn = 0 then .ended (some (.ok .next m))
        else
          ((body m).inside .indefinite).andThenInLoop (recordIndefinite condition body passes)

mutual

def recordToken (bounds : Bounds) : Token → Recorder
  | .number n, m =>
    .taking (.number n) m (.ended (some (.ok .next { m with stack := .value n :: m.stack })))
  | .call word, m => .taking (.call word) m (recordCall bounds word m)
  | .unresolved name, m =>
    .taking (.unresolved name) m (.ended (some (.error (.undefinedWord name) m)))
  | .counted body step, m =>
    .taking (.counted body step) m
      (.behind (popValues 2 m) fun limits m =>
        recordCounted (recordNested bounds.nesting (recordTokens bounds body)) step
          (limits.get ⟨0, Nat.two_pos⟩) bounds.passes (limits.get ⟨1, Nat.one_lt_two⟩) m)
  | .branch ifTrue ifFalse, m =>
    .taking (.branch ifTrue ifFalse) m
      (.behind (pop m) fun choice m =>
        if choice ≠ 0 then recordNested bounds.nesting (recordTokens bounds ifTrue) m
        else recordNested bounds.nesting (recordTokens bounds ifFalse) m)
  | .indefinite condition body, m =>
    .taking (.indefinite condition body) m
      (recordIndefinite (recordNested bounds.nesting (recordTokens bounds condition))
        (recordNested bounds.nesting (recordTokens bounds body)) bounds.passes m)
  | .leave, m => .taking .leave m (.ended (some (.ok .leave m)))
termination_by structural token => token

def recordCall (bounds : Bounds) : Word → Recorder
  | ⟨_, name, behavior⟩, m =>
    recordBehavior bounds name behavior
      (m.note ⟨.debug, "call", name, some (.number m.depth)⟩)
termination_by structural word => word

def recordBehavior (bounds : Bounds) (name : String) : Behavior → Recorder
  | .primitive p, m => .ended (some (p.run m))
  | .definition body, m => recordNested bounds.nesting (recordTokens bounds body) m
  | .structural _, m => .ended (some (.error .compileOnly m))
  | .readAhead _, m => .ended (some (.error (.unknownToken name) m))
  | .comment _, m => .ended (some (.error (.unknownToken name) m))
termination_by structural behavior => behavior

def recordTokens (bounds : Bounds) : List Token → Recorder
  | [], m => .ended (some (.ok .next m))
  | token :: tokens, m => (recordToken bounds token m).andThen (recordTokens bounds tokens)
termination_by structural tokens => tokens

end

def recordExecute (bounds : Bounds) (tokens : List Token) : Recorder :=
  recordNested bounds.nesting (recordTokens bounds tokens)

/-- The record is of a run with this outcome and this trace. -/
structure Record.Of (record : Record) (o : Option (Outcome Flow)) (events : List Event) : Prop where
  outcome : record.outcome = o
  events : record.events = events

namespace Record.Of

variable {first : Record} {o : Option (Outcome Flow)} {events : List Event}

theorem ended (o : Option (Outcome Flow)) : (Record.ended o).Of o [] :=
  ⟨rfl, rfl⟩

theorem taking (h : first.Of o events) (token : Token) (m : Machine) :
    (first.taking token m).Of o (⟨token, m, []⟩ :: events) :=
  ⟨h.outcome, congrArg (List.cons (Event.mk token m [])) h.events⟩

theorem inside (h : first.Of o events) (loop : Loop) :
    (first.inside loop).Of o (events.map (.inside loop)) := by
  refine ⟨h.outcome, ?_⟩
  rw [← h.events, Record.events, Record.events, Record.inside, List.filterMap_map,
    List.map_filterMap]
  congr 1
  funext observation
  cases observation <;> rfl

theorem append (h : first.Of o events) (seen : List Observation) :
    Record.Of ⟨seen ++ first.seen, first.outcome⟩ o
      (seen.filterMap Observation.event? ++ events) := by
  refine ⟨h.outcome, ?_⟩
  rw [Record.events, List.filterMap_append]
  exact congrArg _ h.events

section Sequence

variable {recorder : Recorder} {run : Run} {trace : Trace}

theorem andThen : first.Of o events → (∀ m, (recorder m).Of (run m) (trace m)) →
    (first.andThen recorder).Of (match o with | some (.ok .next m) => run m | stopped => stopped)
      (events ++ match o with | some (.ok .next m) => trace m | _ => []) := by
  rintro ⟨rfl, rfl⟩ hnext
  unfold Record.andThen Record.events
  rcases first.outcome with - | ⟨flow, m⟩ | ⟨fault, m⟩
  · exact ⟨rfl, (List.append_nil _).symm⟩
  · cases flow with
    | next => exact (hnext m).append first.seen
    | leave | quit => exact ⟨rfl, (List.append_nil _).symm⟩
  · exact ⟨rfl, (List.append_nil _).symm⟩

theorem andThenInLoop : first.Of o events → (∀ m, (recorder m).Of (run m) (trace m)) →
    (first.andThenInLoop recorder).Of
      (match o with
        | some (.ok .leave m) => some (.ok .next m)
        | some (.ok .next m) => run m
        | stopped => stopped)
      (events ++ match o with | some (.ok .next m) => trace m | _ => []) := by
  rintro ⟨rfl, rfl⟩ hnext
  unfold Record.andThenInLoop Record.events
  rcases first.outcome with - | ⟨flow, m⟩ | ⟨fault, m⟩
  · exact ⟨rfl, (List.append_nil _).symm⟩
  · cases flow with
    | next => exact (hnext m).append first.seen
    | leave | quit => exact ⟨rfl, (List.append_nil _).symm⟩
  · exact ⟨rfl, (List.append_nil _).symm⟩

end Sequence

theorem behind {result : Outcome Int64} {recorder : Int64 → Recorder} {run : Int64 → Run}
    {trace : Int64 → Trace} : (∀ n m, (recorder n m).Of (run n m) (trace n m)) →
    (Record.behind result recorder).Of
      (match result with | .error fault m => some (.error fault m) | .ok n m => run n m)
      (match result with | .error _ _ => [] | .ok n m => trace n m) := by
  intro hnext
  cases result with
  | ok n m => exact hnext n m
  | error fault m => exact ended _

variable {recorder condition body : Recorder} {run run₁ run₂ : Run} {trace first second : Trace}

theorem nested (limit : Option Nat) (h : ∀ m, (recorder m).Of (run m) (trace m)) (m : Machine) :
    (recordNested limit recorder m).Of (ForthMachine.nested limit run m)
      (traceNested limit trace m) := by
  unfold recordNested ForthMachine.nested traceNested
  split
  · exact ended _
  · obtain ⟨houtcome, hevents⟩ := h { m with depth := m.depth + 1 }
    rw [← houtcome, ← hevents]
    refine ⟨rfl, ?_⟩
    cases hinner : (recorder { m with depth := m.depth + 1 }).outcome <;>
      simp [Record.events, List.filterMap_cons, Observation.event?, hinner]

theorem withIndex (index : Int64) (h : ∀ m, (recorder m).Of (run m) (trace m)) (m : Machine) :
    (recordIndex index recorder m).Of (ForthMachine.withIndex index run m)
      ((trace { m with returns := .value index :: m.returns }).map
        (.inside (.counted index))) := by
  obtain ⟨houtcome, hevents⟩ :=
    (h { m with returns := .value index :: m.returns }).inside (.counted index)
  refine ⟨?_, hevents⟩
  unfold recordIndex ForthMachine.withIndex
  exact houtcome ▸ rfl

theorem countedLoop (h : ∀ m, (recorder m).Of (run m) (trace m)) (step : Step) (limit : Int64)
    (passes : Nat) (index : Int64) (m : Machine) :
    (recordCounted recorder step limit passes index m).Of
      (ForthMachine.countedLoop run step limit passes index m)
      (traceCounted run trace step limit passes index m) := by
  induction passes generalizing index m with
  | zero =>
    simp only [recordCounted, ForthMachine.countedLoop, traceCounted]
    split <;> exact ended _
  | succ passes ih =>
    simp only [recordCounted, ForthMachine.countedLoop, traceCounted]
    split
    · refine (withIndex index h m).andThenInLoop fun m => behind fun size m => ?_
      cases addInRange? index size with
      | none => exact ended _
      | some index => exact ih index m
    · exact ended _

theorem indefiniteLoop (hcondition : ∀ m, (condition m).Of (run₁ m) (first m))
    (hbody : ∀ m, (body m).Of (run₂ m) (second m)) (passes : Nat) (m : Machine) :
    (recordIndefinite condition body passes m).Of (ForthMachine.indefiniteLoop run₁ run₂ passes m)
      (traceIndefinite run₁ run₂ first second passes m) := by
  induction passes generalizing m with
  | zero => exact ended _
  | succ passes ih =>
    simp only [recordIndefinite, ForthMachine.indefiniteLoop, traceIndefinite]
    refine ((hcondition m).inside .indefinite).andThenInLoop fun m => behind fun goOn m => ?_
    split
    · exact ended _
    · exact ((hbody m).inside .indefinite).andThenInLoop ih

end Record.Of

mutual

theorem recordToken_of (bounds : Bounds) : ∀ (token : Token) (m : Machine),
    (recordToken bounds token m).Of (runToken bounds token m) (traceToken bounds token m)
  | .number n, m => (Record.Of.ended _).taking (.number n) m
  | .call word, m => (recordCall_of bounds word m).taking (.call word) m
  | .unresolved name, m => (Record.Of.ended _).taking (.unresolved name) m
  | .counted body step, m => by
    simp only [recordToken, runToken, traceToken]
    refine Record.Of.taking ?_ _ m
    cases popValues 2 m with
    | ok limits m => exact .countedLoop (.nested _ (recordTokens_of bounds body)) step _ _ _ m
    | error fault m => exact .ended _
  | .branch ifTrue ifFalse, m => by
    simp only [recordToken, runToken, traceToken]
    refine Record.Of.taking (.behind fun choice m => ?_) _ m
    split
    · exact .nested _ (recordTokens_of bounds ifTrue) m
    · exact .nested _ (recordTokens_of bounds ifFalse) m
  | .indefinite condition body, m =>
    (Record.Of.indefiniteLoop (.nested _ (recordTokens_of bounds condition))
      (.nested _ (recordTokens_of bounds body)) _ m).taking _ m
  | .leave, m => (Record.Of.ended _).taking .leave m
termination_by structural token => token

theorem recordCall_of (bounds : Bounds) : ∀ (word : Word) (m : Machine),
    (recordCall bounds word m).Of (callWord bounds word m) (traceCall bounds word m)
  | ⟨_, name, behavior⟩, _ => recordBehavior_of bounds name behavior _
termination_by structural word => word

theorem recordBehavior_of (bounds : Bounds) (name : String) :
    ∀ (behavior : Behavior) (m : Machine), (recordBehavior bounds name behavior m).Of
      (runBehavior bounds name behavior m) (traceBehavior bounds behavior m)
  | .primitive _, _ => .ended _
  | .definition body, m => .nested _ (recordTokens_of bounds body) m
  | .structural _, _ => .ended _
  | .readAhead _, _ => .ended _
  | .comment _, _ => .ended _
termination_by structural behavior => behavior

theorem recordTokens_of (bounds : Bounds) : ∀ (tokens : List Token) (m : Machine),
    (recordTokens bounds tokens m).Of (runTokens bounds tokens m) (traceTokens bounds tokens m)
  | [], _ => .ended _
  | token :: tokens, m => by
    simp only [recordTokens, runTokens, traceTokens]
    exact (recordToken_of bounds token m).andThen (recordTokens_of bounds tokens)
termination_by structural tokens => tokens

end

theorem recordExecute_of (bounds : Bounds) (tokens : List Token) (m : Machine) :
    (recordExecute bounds tokens m).Of (execute bounds tokens m) (traceExecute bounds tokens m) :=
  .nested _ (recordTokens_of bounds tokens) m

end ForthMachine
