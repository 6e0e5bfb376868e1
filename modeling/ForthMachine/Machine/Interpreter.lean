import ForthMachine.Machine.Compiler
import ForthMachine.Machine.Executor

/-!
# Evaluating a line

The words of a line are taken one by one. What a word means is decided when it is reached, and so
is what to do with it: in immediate mode it runs, in compile mode it joins the open definition.
The answer to a line is the text that it printed and how it ended.
-/

set_option autoImplicit false

namespace ForthMachine

open Machine

/-- What a word means now. A numeral is a number, whatever the dictionary holds. -/
def classify (dictionary : Dictionary) (word : String) : Token :=
  match Text.Numeral.parse word with
  | .ok n => .number n
  | .error _ =>
    match dictionary.find? word with
    | some entry => .call entry
    | none => .unresolved word

def Behavior.usage? : Behavior → Option String
  | .primitive p => some (p.name ++ " " ++ p.usage)
  | .structural s => some (s.name ++ " " ++ s.usage)
  | .readAhead r => some (r.name ++ " " ++ r.usage)
  | .comment c => some (c.name ++ " " ++ c.usage)
  | .definition _ => none

/-- A definition in source form, or the description of a built-in word. -/
def Word.describe (word : Word) : String :=
  match word.behavior with
  | .definition body => ": " ++ word.name ++ " " ++ Token.listing body ++ "; "
  | builtin => "builtin: " ++ builtin.usage?.getD "" ++ " "

def describeNextWord : Action Unit := do
  match ← readWord with
  | none => fail .noNameGiven
  | some name =>
    match (← get).dictionary.find? name with
    | none => fail (.undefinedWord name)
    | some word => Machine.print word.describe

def ReadAhead.effect : ReadAhead → Action Unit
  | colon => openDefinition
  | see => describeNextWord

def Comment.effect : Comment → Action Unit
  | paren => modify fun m => { m with input := (Text.splitAt ')' m.input).2 }
  | backslash => modify fun m => { m with input := (Text.splitLine m.input).2 }

/-- What a built-in word does, in whatever mode the machine is. -/
def Behavior.action? : Behavior → Option (Action Flow)
  | .primitive p => some p.run
  | .structural s => some do s.effect; return .next
  | .readAhead r => some do r.effect; return .next
  | .comment c => some do c.effect; return .next
  | .definition _ => none

/-- Runs a token at once. Outside of every loop there is nothing to leave. -/
def interpret (bounds : Bounds) : Token → Run
  | .number n, m => some (.ok .next { m with stack := .value n :: m.stack })
  | .call word, m =>
    match word.behavior with
    | .primitive _ | .definition _ =>
      match callWord bounds word m with
      | some (.ok .leave m) => some (.error .notLooping m)
      | stopped => stopped
    | .structural _ => some (.error .compileOnly m)
    | .readAhead r =>
      some ((do tell .debug "interpret" r.name none; r.effect; return .next : Action Flow) m)
    | .comment c =>
      some ((do tell .debug "interpret" c.name none; c.effect; return .next : Action Flow) m)
  | .unresolved name, m => some (.error (.undefinedWord name) m)
  | token, m => some (.error (.unknownToken token.text) m)

/-- Adds a token to the open definition, or runs the word that shapes it. -/
def compile : Token → Action Flow
  | .number n => do
    compileToken (.number n)
    return .next
  | .call word =>
    match word.behavior with
    | .primitive _ | .definition _ => do
      compileToken (.call word)
      return .next
    | .structural s => do
      tell .debug "compile" s.name none
      s.effect
      return .next
    | .comment c => do
      tell .debug "compile" c.name none
      c.effect
      return .next
    | .readAhead _ => fail .interpretOnly
  | .unresolved name => fail (.undefinedWord name)
  | token => fail (.unknownToken token.text)

def dispatch (bounds : Bounds) (word : String) : Run := fun m =>
  let token := classify m.dictionary word
  match m.mode with
  | .immediate => interpret bounds token m
  | .compile => some (compile token m)

/-- Dispatches at most `count` words of the input. -/
def runWords (bounds : Bounds) : (count : Nat) → Run
  | 0, m => some (.ok .next m)
  | count + 1, m =>
    match Text.nextWord m.input with
    | (none, rest) => some (.ok .next { m with input := rest })
    | (some word, rest) =>
      match dispatch bounds word { m with input := rest } with
      | none => none
      | some (.error fault m) => some (.error fault m)
      | some (.ok .quit m) => some (.ok .quit m)
      | some (.ok _ m) => runWords bounds count m

/-- Dispatches the words of the input up to its end, the first fault, or the flow `quit`. A word
has at least one character, so there are no more words than characters. -/
def runInput (bounds : Bounds) : Run := fun m =>
  runWords bounds m.input.length m

/-- The answer to a line, and the machine ready for the next one. A fault clears what the line
left behind. -/
def answer : Outcome Flow → String × Machine
  | .ok flow m =>
    let ending :=
      match flow, m.mode with
      | .quit, _ => ""
      | _, .compile => " compiled"
      | _, .immediate => " ok"
    (m.output ++ ending, { m with output := "" })
  | .error fault m =>
    (m.output ++ " ? " ++ fault.message,
      { (m.note ⟨.info, "eval", "error", some (.fault fault)⟩).abort with output := "" })

/-- Evaluates a line, which may have line breaks in it, and answers. -/
def evaluate (bounds : Bounds) (m : Machine) (line : String) : Option (String × Machine) :=
  (runInput bounds { m with input := line.toList, output := "" }).map answer

end ForthMachine
