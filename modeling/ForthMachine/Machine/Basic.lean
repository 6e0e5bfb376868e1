import ForthMachine.Dictionary
import ForthMachine.Log

/-!
# The machine

A machine has a data stack and a return stack, both with the top cell first. Between lines they
hold values. While a definition is being compiled the data stack also gathers its tokens, and both
stacks carry a mark for each structure still open.
-/

set_option autoImplicit false

namespace ForthMachine

inductive Cell where
  | value (n : Int64)
  | pending (token : Token)
  | opened (opener : Opener)

namespace Cell

def text : Cell → String
  | value n => Text.Numeral.write n
  | pending token => token.text
  | opened opener => opener.text

/-- The number in a cell. A cell that holds something else is a fault. -/
def number : Cell → Except Fault Int64
  | value n => .ok n
  | cell => .error (.unknownToken cell.text)

def number? : Cell → Option Int64
  | value n => some n
  | _ => none

@[simp] theorem number_value (n : Int64) : (value n).number = .ok n := rfl

@[simp] theorem number?_value (n : Int64) : (value n).number? = some n := rfl

end Cell

inductive Mode where
  | immediate | compile
  deriving DecidableEq, Repr

structure Machine where
  stack : List Cell := []
  returns : List Cell := []
  dictionary : Dictionary := {}
  /-- What is left of the current line. -/
  input : List Char := []
  mode : Mode := .immediate
  /-- The name of the definition being compiled. -/
  compiling : Option String := none
  /-- The text printed by the current line. -/
  output : String := ""
  /-- Set for good by the word that ends the session. -/
  exiting : Bool := false
  log : Log := {}
  /-- How many runs of tokens are under way, each inside the one before. -/
  depth : Nat := 0

/-- How deep structures, and runs of tokens, may nest. -/
def maxDepth : Nat := 256

/-- What an action or a run came to: a result or a fault, and the machine it left. -/
abbrev Outcome (α : Type) := EStateM.Result Fault Machine α

def Outcome.machine {α : Type} : Outcome α → Machine
  | .ok _ m => m
  | .error _ m => m

@[simp] theorem Outcome.machine_ok {α : Type} (a : α) (m : Machine) :
    Outcome.machine (.ok a m : Outcome α) = m := rfl

@[simp] theorem Outcome.machine_error {α : Type} (fault : Fault) (m : Machine) :
    Outcome.machine (.error fault m : Outcome α) = m := rfl

/-- A step of the machine that may fail. What it did before it failed stays done. -/
abbrev Action (α : Type) := EStateM Fault Machine α

theorem Action.bind_of_ok {α β : Type} {first : Action α} {next : α → Action β} {m m' : Machine}
    {a : α} (h : first m = .ok a m') : (first >>= next) m = next a m' := by
  simp only [bind, EStateM.bind, h]

theorem Action.bind_of_error {α β : Type} {first : Action α} {next : α → Action β}
    {m m' : Machine} {fault : Fault} (h : first m = .error fault m') :
    (first >>= next) m = .error fault m' := by
  simp only [bind, EStateM.bind, h]

theorem Action.bind_eq_ok {α β : Type} {first : Action α} {next : α → Action β} {m m' : Machine}
    {b : β} (h : (first >>= next) m = .ok b m') :
    ∃ a m₁, first m = .ok a m₁ ∧ next a m₁ = .ok b m' := by
  cases hfirst : first m with
  | ok a m₁ =>
    rw [Action.bind_of_ok hfirst] at h
    exact ⟨a, m₁, rfl, h⟩
  | error fault m₁ =>
    rw [Action.bind_of_error hfirst] at h
    cases h

/-- The truth values: all bits set, and none. -/
def flag (b : Bool) : Int64 :=
  if b then -1 else 0

namespace Machine

/-- The values on the data stack, bottom first. -/
def values (m : Machine) : List Int64 :=
  (m.stack.filterMap Cell.number?).reverse

def coldStart (m : Machine) : Machine :=
  { m with dictionary := m.dictionary.installBuiltins, mode := .immediate }

def new : Machine :=
  coldStart {}

def clearStacks (m : Machine) : Machine :=
  { m with stack := [], returns := [] }

/-- Clears what a failed line left behind. The words, the level of the log and the unread text
stay. -/
def abort (m : Machine) : Machine :=
  { m.clearStacks with compiling := none, depth := 0, mode := .immediate }

end Machine

end ForthMachine
