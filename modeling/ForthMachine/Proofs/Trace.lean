import ForthMachine.Machine.Interpreter

/-!
# Traces

The tokens that a run takes up, in order, each with the machine it finds and the loops around it.
The states come from the run itself; a trace only tells what was taken up on the way. It also tells
of runs that fail or are given up. A run that is recorded as it goes (`recordExecute_of`) takes up
the same tokens.
-/

set_option autoImplicit false

namespace ForthMachine

open Machine

inductive Loop where
  | counted (index : Int64)
  | indefinite
  deriving DecidableEq, Repr

/-- A token is taken up: the machine it finds, and the loops around it, innermost first. -/
structure Event where
  token : Token
  machine : Machine
  loops : List Loop

abbrev Trace := Machine → List Event

namespace Event

def inside (loop : Loop) (event : Event) : Event :=
  { event with loops := event.loops ++ [loop] }

/-- The indices of the counted loops around the token, innermost first. -/
def indices (event : Event) : List Int64 :=
  event.loops.filterMap fun
    | .counted index => some index
    | .indefinite => none

@[simp] theorem token_inside (loop : Loop) (event : Event) :
    (event.inside loop).token = event.token := rfl

@[simp] theorem machine_inside (loop : Loop) (event : Event) :
    (event.inside loop).machine = event.machine := rfl

@[simp] theorem indices_inside_counted (index : Int64) (event : Event) :
    (event.inside (.counted index)).indices = event.indices ++ [index] := by
  simp [indices, inside]

@[simp] theorem indices_inside_indefinite (event : Event) :
    (event.inside .indefinite).indices = event.indices := by
  simp [indices, inside]

end Event

def traceNested (limit : Option Nat) (trace : Trace) : Trace := fun m =>
  if limit.any (· ≤ m.depth) then [] else trace { m with depth := m.depth + 1 }

/-- One pass after the other, each with its index on the return stack. -/
def traceCounted (pass : Run) (trace : Trace) (step : Step) (limit : Int64) (passes : Nat)
    (index : Int64) : Trace := fun m =>
  match passes with
  | 0 => []
  | passes + 1 =>
    if index < limit then
      (trace { m with returns := .value index :: m.returns }).map (.inside (.counted index)) ++
        match withIndex index pass m with
        | some (.ok .next m) =>
          match step.size m with
          | .error _ _ => []
          | .ok size m =>
            match addInRange? index size with
            | none => []
            | some index => traceCounted pass trace step limit passes index m
        | _ => []
    else []
termination_by structural passes

def traceIndefinite (condition body : Run) (first second : Trace) : Nat → Trace
  | 0, _ => []
  | passes + 1, m =>
    (first m).map (.inside .indefinite) ++
      match condition m with
      | some (.ok .next m) =>
        match pop m with
        | .error _ _ => []
        | .ok goOn m =>
          if goOn = 0 then []
          else
            (second m).map (.inside .indefinite) ++
              match body m with
              | some (.ok .next m) => traceIndefinite condition body first second passes m
              | _ => []
      | _ => []

mutual

def traceToken (bounds : Bounds) : Token → Trace
  | .number n, m => [⟨.number n, m, []⟩]
  | .call word, m => ⟨.call word, m, []⟩ :: traceCall bounds word m
  | .unresolved name, m => [⟨.unresolved name, m, []⟩]
  | .counted body step, m =>
    ⟨.counted body step, m, []⟩ ::
      match popValues 2 m with
      | .error _ _ => []
      | .ok limits m =>
        traceCounted (nested bounds.nesting (runTokens bounds body))
          (traceNested bounds.nesting (traceTokens bounds body)) step
          (limits.get ⟨0, Nat.two_pos⟩) bounds.passes (limits.get ⟨1, Nat.one_lt_two⟩) m
  | .branch ifTrue ifFalse, m =>
    ⟨.branch ifTrue ifFalse, m, []⟩ ::
      match pop m with
      | .error _ _ => []
      | .ok choice m =>
        if choice ≠ 0 then traceNested bounds.nesting (traceTokens bounds ifTrue) m
        else traceNested bounds.nesting (traceTokens bounds ifFalse) m
  | .indefinite condition body, m =>
    ⟨.indefinite condition body, m, []⟩ ::
      traceIndefinite (nested bounds.nesting (runTokens bounds condition))
        (nested bounds.nesting (runTokens bounds body))
        (traceNested bounds.nesting (traceTokens bounds condition))
        (traceNested bounds.nesting (traceTokens bounds body)) bounds.passes m
  | .leave, m => [⟨.leave, m, []⟩]
termination_by structural token => token

def traceCall (bounds : Bounds) : Word → Trace
  | ⟨_, name, behavior⟩, m =>
    traceBehavior bounds behavior (m.note ⟨.debug, "call", name, some (.number m.depth)⟩)
termination_by structural word => word

def traceBehavior (bounds : Bounds) : Behavior → Trace
  | .definition body, m => traceNested bounds.nesting (traceTokens bounds body) m
  | _, _ => []
termination_by structural behavior => behavior

def traceTokens (bounds : Bounds) : List Token → Trace
  | [], _ => []
  | token :: tokens, m =>
    traceToken bounds token m ++
      match runToken bounds token m with
      | some (.ok .next m) => traceTokens bounds tokens m
      | _ => []
termination_by structural tokens => tokens

end

def traceExecute (bounds : Bounds) (tokens : List Token) : Trace :=
  traceNested bounds.nesting (traceTokens bounds tokens)

def traceInterpret (bounds : Bounds) : Token → Trace
  | .call word, m => ⟨.call word, m, []⟩ :: traceCall bounds word m
  | token, m => [⟨token, m, []⟩]

/-- A word that is compiled is not run. -/
def traceDispatch (bounds : Bounds) (word : String) : Trace := fun m =>
  match m.mode with
  | .immediate => traceInterpret bounds (classify m.dictionary word) m
  | .compile => []

def traceWords (bounds : Bounds) : (count : Nat) → Trace
  | 0, _ => []
  | count + 1, m =>
    match Text.nextWord m.input with
    | (none, _) => []
    | (some word, rest) =>
      traceDispatch bounds word { m with input := rest } ++
        match dispatch bounds word { m with input := rest } with
        | some (.ok .quit _) => []
        | some (.ok _ m) => traceWords bounds count m
        | _ => []

def traceInput (bounds : Bounds) : Trace := fun m =>
  traceWords bounds m.input.length m

theorem traceWords_of_nextWord (bounds : Bounds) (count : Nat) {m : Machine} {word : String}
    {rest : List Char} (h : Text.nextWord m.input = (some word, rest)) :
    traceWords bounds (count + 1) m =
      traceDispatch bounds word { m with input := rest } ++
        match dispatch bounds word { m with input := rest } with
        | some (.ok .quit _) => []
        | some (.ok _ m) => traceWords bounds count m
        | _ => [] := by
  rw [traceWords]
  split
  · rename_i hnone
    rw [h] at hnone
    cases hnone
  · rename_i hsome
    rw [h] at hsome
    cases hsome
    rfl

theorem traceWords_of_none (bounds : Bounds) (count : Nat) {m : Machine}
    (h : Text.nextWord m.input = (none, [])) : traceWords bounds (count + 1) m = [] := by
  rw [traceWords]
  split
  · rfl
  · rename_i hsome
    rw [h] at hsome
    cases hsome

end ForthMachine
