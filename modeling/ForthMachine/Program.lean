import ForthMachine.Console
import ForthMachine.Editor.KeySequence

/-!
# The program

The command line gives the options. A file is loaded first, if one is given, and then the console
is opened: the line editor on a terminal, and otherwise plain lines.
-/

set_option autoImplicit false

namespace ForthMachine

/-- What the program finds around it. -/
structure Surroundings where
  /-- What a path leads to. -/
  file : String → Except OpenFault FileContent
  input : List UInt8
  /-- Whether the standard input is a terminal, whose bytes stand for keys. -/
  terminal : Bool := false

structure Transcript where
  output : String
  messages : String
  status : Nat
  deriving DecidableEq, Repr

def welcome : String :=
  "Welcome to fm. Version 0.1.0. Type BYE or Ctrl-D to quit.\n"

def farewell : String :=
  "Finished\n"

def startUp (bounds : Bounds) (options : Options) (file : String → Except OpenFault FileContent) :
    Option (Machine × Page) :=
  let m := boot options.level
  match options.file with
  | none => some (m, {})
  | some name =>
    let m := m.note ⟨.info, "load_file", "Loading file", some (.text name)⟩
    (runFile bounds Page.sink false m (file name) {}).map fun (m, _, page) => (m, page)

def console (options : Options) (surroundings : Surroundings) : Source :=
  if surroundings.terminal && !options.plain then
    .terminal { keys := Key.ofBytes surroundings.input }
  else .lines { content := .bytes surroundings.input }

def showsBanner (options : Options) : Source → Bool
  | .terminal _ => !options.quiet
  | .lines _ => false

def session (bounds : Bounds) (options : Options) (surroundings : Surroundings) :
    Option (Machine × Page) := do
  let (m, page) ← startUp bounds options surroundings.file
  if m.exiting then return (m, page)
  let source := console options surroundings
  let banner := showsBanner options source
  let page := if banner then { page with text := page.text ++ welcome } else page
  let (m, _, page) ← runLines bounds Page.sink true m source page
  return (m, if banner then { page with text := page.text ++ farewell } else page)

def refusal : Options.Stop → Transcript
  | .help => { output := Options.usage ++ "\n", messages := "", status := 0 }
  | stop =>
    { output := ""
      messages := stop.message ++ "\nRun fm --help for more information.\n"
      status := 1 }

def program (bounds : Bounds) (arguments : List String) (surroundings : Surroundings) :
    Option Transcript :=
  match Options.parse arguments with
  | .error stop => some (refusal stop)
  | .ok options =>
    (session bounds options surroundings).map fun (m, page) =>
      { output := page.text, messages := m.log.write, status := 0 }

end ForthMachine
