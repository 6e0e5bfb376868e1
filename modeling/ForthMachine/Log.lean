import ForthMachine.Fault
import ForthMachine.Text.Lines

/-!
# The message log

What the machine says about itself goes to a log and never into an answer. A message has a level,
and the log takes it if its own level is at least that.
-/

set_option autoImplicit false

namespace ForthMachine

inductive Level where
  | error | warning | info | debug
  deriving DecidableEq, Repr

namespace Level

/-- The level with a number; numbers out of range stand for the nearest level. -/
def ofNumber (n : Int64) : Level :=
  if n ≤ 0 then error
  else if n = 1 then warning
  else if n = 2 then info
  else debug

def rank : Level → Nat
  | error => 0
  | warning => 1
  | info => 2
  | debug => 3

def tag : Level → String
  | error => "ERROR"
  | warning => "WARNING"
  | info => "INFO"
  | debug => "DEBUG"

def text : Level → String
  | error => "Error"
  | warning => "Warning"
  | info => "Info"
  | debug => "Debug"

end Level

inductive Detail where
  | text (s : String)
  | number (n : Nat)
  | level (l : Level)
  | fault (f : Fault)
  deriving DecidableEq, Repr

def Detail.write : Detail → String
  | .text s => Text.quote s
  | .number n => n.repr
  | .level l => l.text
  | .fault f => f.logText

structure Entry where
  level : Level
  context : String
  text : String
  detail : Option Detail := none
  deriving DecidableEq, Repr

def Entry.write (entry : Entry) : String :=
  let head := entry.level.tag ++ ": " ++ entry.context ++ ": " ++ entry.text
  match entry.detail with
  | some detail => head ++ ": " ++ detail.write
  | none => head

structure Log where
  level : Level := .warning
  entries : Array Entry := #[]
  deriving DecidableEq, Repr

namespace Log

def takes (log : Log) (level : Level) : Bool :=
  level.rank ≤ log.level.rank

def add (log : Log) (entry : Entry) : Log :=
  if log.takes entry.level then { log with entries := log.entries.push entry } else log

/-- The messages as they are written, one behind the other. -/
def write (log : Log) : String :=
  String.join (log.entries.toList.map fun entry => entry.write ++ "\n")

/-- The lines of the messages as they are written. A name or text with newlines in it spreads its
message over several lines. -/
def lines (log : Log) : List String :=
  Text.lines log.write.toList

@[simp] theorem add_level (log : Log) (entry : Entry) : (log.add entry).level = log.level := by
  unfold add; split <;> rfl

end Log

end ForthMachine
