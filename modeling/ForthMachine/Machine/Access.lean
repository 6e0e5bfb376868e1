import ForthMachine.Machine.Basic
import ForthMachine.Text.Words

/-!
# Access to the parts of a machine

An access to a stack that fails leaves the stacks alone, with one exception: a cell that is popped
is gone, even if it turns out to hold no value.
-/

set_option autoImplicit false

namespace ForthMachine.Machine

/-- The result, or the fault, with the machine `m` left. -/
def leaving {α : Type} (m : Machine) : Except Fault α → Outcome α
  | .ok a => .ok a m
  | .error fault => .error fault m

def fail {α : Type} (fault : Fault) : Action α := fun m =>
  .error fault m

def pushCell (cell : Cell) : Action Unit := fun m =>
  .ok () { m with stack := cell :: m.stack }

def push (n : Int64) : Action Unit :=
  pushCell (.value n)

def pop : Action Int64 := fun m =>
  match m.stack with
  | [] => .error .stackUnderflow m
  | cell :: rest => leaving { m with stack := rest } cell.number

theorem pop_of_nil {m : Machine} (h : m.stack = []) : pop m = .error .stackUnderflow m := by
  simp [pop, h]

theorem pop_of_value {m : Machine} {n : Int64} {rest : List Cell}
    (h : m.stack = .value n :: rest) : pop m = .ok n { m with stack := rest } := by
  simp [pop, h, leaving]

/-- The value under `n` others. -/
def peek (n : Nat) : Action Int64 := fun m =>
  match m.stack[n]? with
  | none => .error .stackUnderflow m
  | some cell => leaving m cell.number

def need (n : Nat) : Action Unit := fun m =>
  if m.stack.length < n then .error .stackUnderflow m else .ok () m

/-- The values of the top `n` cells, deepest first. -/
def topValues : (n : Nat) → List Cell → Except Fault (Vector Int64 n)
  | 0, _ => .ok #v[]
  | _ + 1, [] => .error .stackUnderflow
  | n + 1, cell :: cells =>
    match topValues n cells with
    | .error fault => .error fault
    | .ok deeper =>
      match cell.number with
      | .error fault => .error fault
      | .ok top => .ok (deeper.push top)

theorem topValues_of_length_lt {n : Nat} {cells : List Cell} (h : cells.length < n) :
    topValues n cells = .error .stackUnderflow := by
  induction cells generalizing n with
  | nil =>
    cases n with
    | zero => simp at h
    | succ n => rfl
  | cons cell cells ih =>
    cases n with
    | zero => simp at h
    | succ n => simp [topValues, ih (Nat.lt_of_succ_lt_succ h)]

def popValues (n : Nat) : Action (Vector Int64 n) := fun m =>
  match topValues n m.stack with
  | .error fault => .error fault m
  | .ok values => .ok values { m with stack := m.stack.drop n }

/-- Puts values on a stack, the last one on top. -/
def stacked (values : List Int64) (cells : List Cell) : List Cell :=
  values.foldl (fun cells n => .value n :: cells) cells

/-- Replaces the top `n` values by the ones that `f` makes of them. The deepest of them has the
index zero. -/
def transform (n : Nat) (f : (Fin n → Int64) → Except Fault (List Int64)) : Action Unit := fun m =>
  match topValues n m.stack with
  | .error fault => .error fault m
  | .ok values =>
    match f values.get with
    | .error fault => .error fault m
    | .ok results => .ok () { m with stack := stacked results (m.stack.drop n) }

/-- Pops until the stack is empty. -/
def popAll : Action Unit := fun m =>
  match m.stack.dropWhile (·.number?.isSome) with
  | [] => .ok () { m with stack := [] }
  | cell :: rest => .error (.unknownToken cell.text) { m with stack := rest }

/-- Takes the tokens above the mark of `opener`, and the mark. The tokens come in the order in
which they were compiled, in front of `compiled`. -/
def splitPending (opener : Opener) (compiled : List Token) :
    List Cell → Except Fault (List Token) × List Cell
  | [] => (.error (.missing opener), [])
  | .pending token :: cells => splitPending opener (token :: compiled) cells
  | .opened other :: cells =>
    (if other = opener then .ok compiled else .error (.unclosed other), cells)
  | .value n :: cells => (.error (.unknownToken (Cell.value n).text), cells)

/-- Tokens that were compiled above a mark are all taken, in order. -/
theorem splitPending_append (opener : Opener) (tokens compiled : List Token) (cells : List Cell) :
    splitPending opener compiled ((tokens.map Cell.pending).reverse ++ .opened opener :: cells) =
      (.ok (tokens ++ compiled), cells) := by
  rw [← List.map_reverse]
  generalize hr : tokens.reverse = reversed
  rw [← List.reverse_reverse tokens, hr]
  clear hr
  induction reversed generalizing compiled with
  | nil => simp [splitPending]
  | cons token rest ih => simp [splitPending, ih]

def popPending (opener : Opener) : Action (List Token) := fun m =>
  let (result, rest) := splitPending opener [] m.stack
  leaving { m with stack := rest } result

def pushReturnCell (cell : Cell) : Action Unit := fun m =>
  .ok () { m with returns := cell :: m.returns }

def pushReturn (n : Int64) : Action Unit :=
  pushReturnCell (.value n)

def popReturn : Action Int64 := fun m =>
  match m.returns with
  | [] => .error .returnStackUnderflow m
  | cell :: rest => leaving { m with returns := rest } cell.number

def peekReturn (n : Nat) : Action Int64 := fun m =>
  match m.returns[n]? with
  | none => .error .returnStackUnderflow m
  | some cell => leaving m cell.number

/-- The innermost open structure, if its mark is the top of the return stack. -/
def topOpener? (m : Machine) : Option Opener :=
  match m.returns with
  | .opened opener :: _ => some opener
  | _ => none

/-- Takes the mark of the innermost open structure away. -/
def popOpener : Action (Option Opener) := fun m =>
  match m.returns with
  | .opened opener :: rest => .ok (some opener) { m with returns := rest }
  | _ => .ok none m

def print (text : String) : Action Unit := fun m =>
  .ok () { m with output := m.output ++ text }

def note (m : Machine) (entry : Entry) : Machine :=
  { m with log := m.log.add entry }

def tell (level : Level) (context text : String) (detail : Option Detail) : Action Unit := fun m =>
  .ok () (m.note ⟨level, context, text, detail⟩)

def readWord : Action (Option String) := fun m =>
  let (word, rest) := Text.nextWord m.input
  .ok word { m with input := rest }

end ForthMachine.Machine
