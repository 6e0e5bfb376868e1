import ForthMachine.Machine.Primitive

/-!
# Running tokens

A run ends with a flow or a fault, or, if a loop does not end within the passes allowed, it is
given up with no outcome at all. Lists of tokens inside other tokens and bodies of definitions are
nested runs, and the nesting of runs has a limit. Loops end with the flow `leave`; the flow `quit`
passes through everything.
-/

set_option autoImplicit false

namespace ForthMachine

open Machine

abbrev Run := Machine → Option (Outcome Flow)

/-- How far a run may go. -/
structure Bounds where
  /-- How many passes each loop may take before the run is given up. -/
  passes : Nat
  /-- How deep runs may nest; `none` is no limit. -/
  nesting : Option Nat := some maxDepth
  deriving DecidableEq, Repr

def Outcome.adjust {α : Type} (f : Machine → Machine) : Outcome α → Outcome α
  | .ok a m => .ok a (f m)
  | .error fault m => .error fault (f m)

/-- A run inside the current one. -/
def nested (limit : Option Nat) (run : Run) : Run := fun m =>
  if limit.any (· ≤ m.depth) then some (.error .tooDeep m)
  else
    (run { m with depth := m.depth + 1 }).map
      (Outcome.adjust fun m => { m with depth := m.depth - 1 })

def withIndex (index : Int64) (run : Run) : Run := fun m =>
  match run { m with returns := .value index :: m.returns } with
  | some (.ok flow m) =>
    match popReturn m with
    | .ok _ m => some (.ok flow m)
    | .error fault m => some (.error fault m)
  | stopped => stopped

def addInRange? (a b : Int64) : Option Int64 :=
  let sum := a.toInt + b.toInt
  if Text.Numeral.least ≤ sum ∧ sum ≤ Text.Numeral.greatest then some (Int64.ofInt sum) else none

def Step.size : Step → Action Int64
  | .fixed n => pure n
  | .fromStack => pop

/-- Runs `pass` for `index` and the indices after it, as long as they are below `limit`. An index
that would leave the range of numbers has passed every limit. -/
def countedLoop (pass : Run) (step : Step) (limit : Int64) (passes : Nat) (index : Int64) :
    Run := fun m =>
    if index < limit then
      match passes with
      | 0 => none
      | passes + 1 =>
        match withIndex index pass m with
        | some (.ok .leave m) => some (.ok .next m)
        | some (.ok .next m) =>
          match step.size m with
          | .error fault m => some (.error fault m)
          | .ok size m =>
            match addInRange? index size with
            | none => some (.ok .next m)
            | some index => countedLoop pass step limit passes index m
        | stopped => stopped
    else some (.ok .next m)
termination_by structural passes

/-- Runs `condition` and `body` in turn until `condition` leaves the flag zero. -/
def indefiniteLoop (condition body : Run) : Nat → Run
  | 0, _ => none
  | passes + 1, m =>
    match condition m with
    | some (.ok .leave m) => some (.ok .next m)
    | some (.ok .next m) =>
      match pop m with
      | .error fault m => some (.error fault m)
      | .ok goOn m =>
        if goOn = 0 then some (.ok .next m)
        else
          match body m with
          | some (.ok .leave m) => some (.ok .next m)
          | some (.ok .next m) => indefiniteLoop condition body passes m
          | stopped => stopped
    | stopped => stopped

mutual

def runToken (bounds : Bounds) : Token → Run
  | .number n, m => some (.ok .next { m with stack := .value n :: m.stack })
  | .call word, m => callWord bounds word m
  | .unresolved name, m => some (.error (.undefinedWord name) m)
  | .counted body step, m =>
    match popValues 2 m with
    | .error fault m => some (.error fault m)
    | .ok limits m =>
      countedLoop (nested bounds.nesting (runTokens bounds body)) step limits[0]
        bounds.passes limits[1] m
  | .branch ifTrue ifFalse, m =>
    match pop m with
    | .error fault m => some (.error fault m)
    | .ok choice m =>
      if choice ≠ 0 then nested bounds.nesting (runTokens bounds ifTrue) m
      else nested bounds.nesting (runTokens bounds ifFalse) m
  | .indefinite condition body, m =>
    indefiniteLoop (nested bounds.nesting (runTokens bounds condition))
      (nested bounds.nesting (runTokens bounds body)) bounds.passes m
  | .leave, m => some (.ok .leave m)
termination_by structural token => token

/-- Runs a primitive or a definition. The other words have no meaning inside a run. -/
def callWord (bounds : Bounds) : Word → Run
  | ⟨_, name, behavior⟩, m =>
    runBehavior bounds name behavior
      (m.note ⟨.debug, "call", name, some (.number m.depth)⟩)
termination_by structural word => word

def runBehavior (bounds : Bounds) (name : String) : Behavior → Run
  | .primitive p, m => some (p.run m)
  | .definition body, m => nested bounds.nesting (runTokens bounds body) m
  | .structural _, m => some (.error .compileOnly m)
  | .readAhead _, m => some (.error (.unknownToken name) m)
  | .comment _, m => some (.error (.unknownToken name) m)
termination_by structural behavior => behavior

/-- Runs tokens in order, up to the first that does not end with the flow `next`. -/
def runTokens (bounds : Bounds) : List Token → Run
  | [], m => some (.ok .next m)
  | token :: tokens, m =>
    match runToken bounds token m with
    | some (.ok .next m) => runTokens bounds tokens m
    | stopped => stopped
termination_by structural tokens => tokens

end

def execute (bounds : Bounds) (tokens : List Token) : Run :=
  nested bounds.nesting (runTokens bounds tokens)

end ForthMachine
