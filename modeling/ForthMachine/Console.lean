import ForthMachine.Editor.Terminal
import ForthMachine.LineSource
import ForthMachine.Machine.Interpreter
import ForthMachine.Options

/-!
# Feeding lines to the machine

Lines come from a file, a pipe or the line editor, and the answers go to a sink that may refuse
them. Every line is evaluated, whatever happens to its answer, until the lines end or a line ends
the session.
-/

set_option autoImplicit false

namespace ForthMachine

inductive Source where
  | lines (source : LineSource)
  | terminal (terminal : Terminal)
  deriving DecidableEq, Repr

/-- What came of asking a source for a line: the line if there is one, what the screen showed
meanwhile, and the message to log. -/
structure Fetched where
  line : Option String
  shown : String := ""
  complaint : Option Entry := none
  deriving DecidableEq, Repr

namespace Source

def next : Source → Fetched × Source
  | lines source =>
    match source.next with
    | (.line text, rest) => ({ line := some text }, lines rest)
    | (.finished, rest) => ({ line := none }, lines rest)
    | (.failed fault, rest) =>
      ({ line := none, complaint := some (readingFailed fault) }, lines rest)
  | terminal t =>
    let (line, shown, rest) := t.next
    ({ line, shown }, terminal rest)

def number : Source → Nat
  | lines source => source.number
  | terminal _ => 0

/-- A bound on the lines to come. -/
def size : Source → Nat
  | lines source => source.size
  | terminal t => t.keys.length

theorem size_next_lt {source : Source} (h : source.next.1.line.isSome) :
    source.next.2.size < source.size := by
  cases source with
  | lines source =>
    simp only [next] at h ⊢
    rcases hn : source.next with ⟨reading, rest⟩
    cases reading with
    | line text => simpa [hn, size] using LineSource.size_next_lt hn
    | finished => simp [hn] at h
    | failed reason => simp [hn] at h
  | terminal t =>
    simp only [next] at h ⊢
    exact Terminal.length_next_lt h

end Source

/-- Where answers go. Writing and flushing may fail, with a reason. -/
structure Sink (σ : Type) where
  draw : String → σ → σ
  write : String → σ → Except String Unit × σ
  flush : σ → Except String Unit × σ

/-- The text written, and how many writes are still accepted if their number is limited. -/
structure Page where
  text : String := ""
  writesLeft : Option Nat := none
  deriving DecidableEq, Repr

/-- A sink in memory, which is closed when no more writes are accepted. -/
def Page.sink : Sink Page where
  draw text page := { page with text := page.text ++ text }
  write text page :=
    match page.writesLeft with
    | some 0 => (.error "closed", page)
    | left => (.ok (), { text := page.text ++ text, writesLeft := left.map (· - 1) })
  flush page := (.ok (), page)

def occursIn (pattern : List Char) : List Char → Bool
  | [] => pattern.isEmpty
  | c :: text => pattern.isPrefixOf (c :: text) || occursIn pattern text

def reportsFault (response : String) : Bool :=
  occursIn " ? ".toList response.toList

/-- What is written for an answer: all answers if they are echoed, and otherwise only faults, with
the numbers of their lines. -/
def report? (echo : Bool) (number : Nat) (response : String) : Option String :=
  if echo then some (response ++ "\n")
  else if reportsFault response then some ("line " ++ number.repr ++ ":" ++ response ++ "\n")
  else none

def deliver {σ : Type} (sink : Sink σ) (report : Option String) (out : σ) :
    Except String Unit × σ :=
  match report with
  | none => sink.flush out
  | some text =>
    match sink.write text out with
    | (.ok _, out) => sink.flush out
    | (.error reason, out) => (.error reason, out)

def writingFailed (reason : String) : Entry where
  level := .error
  context := "run_lines"
  text := "write error"
  detail := some (.text reason)

def noteFailure (m : Machine) : Except String Unit → Machine
  | .ok _ => m
  | .error reason => m.note (writingFailed reason)

/-- Evaluates the lines of a source and delivers the answers. It stops behind the line that ends
the session; `none` is a line that did not end within the bounds. -/
def runLines {σ : Type} (bounds : Bounds) (sink : Sink σ) (echo : Bool) (m : Machine)
    (source : Source) (out : σ) : Option (Machine × Source × σ) :=
  let fetched := source.next.1
  let rest := source.next.2
  let out := sink.draw fetched.shown out
  let m := fetched.complaint.elim m m.note
  match _h : fetched.line with
  | none => some (m, rest, out)
  | some line =>
    match evaluate bounds m line with
    | none => none
    | some (response, m) =>
      let (delivered, out) := deliver sink (report? echo rest.number response) out
      let m := noteFailure m delivered
      if m.exiting then some (m, rest, out) else runLines bounds sink echo m rest out
termination_by source.size
decreasing_by exact Source.size_next_lt (by simp [_h, fetched])

def boot (level : Level) : Machine :=
  { Machine.new with log := { level } }

/-- Evaluates the lines of a file, if it can be opened, and reports the faults. -/
def runFile {σ : Type} (bounds : Bounds) (sink : Sink σ) (echo : Bool) (m : Machine)
    (file : Except OpenFault FileContent) (out : σ) : Option (Machine × Option Source × σ) :=
  match LineSource.ofFile file with
  | .error fault => some (m.note (openingFailed fault), none, out)
  | .ok source =>
    (runLines bounds sink echo m (.lines source) out).map fun (m, rest, out) => (m, some rest, out)

end ForthMachine
