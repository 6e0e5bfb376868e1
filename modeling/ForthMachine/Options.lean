import ForthMachine.Log
import ForthMachine.Text.Numeral

/-!
# The command line

Arguments are read from left to right, and the first one that cannot be used ends the reading.
An option takes the argument behind it for its value, whatever that looks like.
-/

set_option autoImplicit false

namespace ForthMachine

structure Options where
  /-- A file to evaluate before the console opens. -/
  file : Option String := none
  /-- Read plain lines, without the line editor. -/
  plain : Bool := false
  /-- The number of the message level, if one is given. -/
  debugLevel : Option Int64 := none
  /-- Leave out the banner. -/
  quiet : Bool := false
  deriving DecidableEq, Repr

namespace Options

def levelNumber (options : Options) : Int64 :=
  options.debugLevel.getD 1

def level (options : Options) : Level :=
  Level.ofNumber options.levelNumber

inductive ValueFault where
  | duplicate
  | numeral (fault : Text.Numeral.Fault)
  deriving DecidableEq, Repr

def ValueFault.message : ValueFault → String
  | .duplicate => "duplicate values provided"
  | .numeral fault => fault.message

inductive Stop where
  | help
  | trailing
  | unrecognized (argument : String)
  | noValue (option : String)
  | badValue (option value : String) (fault : ValueFault)
  deriving DecidableEq, Repr

def usage : String :=
  "Usage: fm [-f <file>] [-p] [-d <debug-level>] [-q]\n" ++
  "\n" ++
  "command line arguments for fm.\n" ++
  "\n" ++
  "Options:\n" ++
  "  -f, --file        evaluate a source file before the prompt.\n" ++
  "  -p, --plain       read plain lines from stdin, without the line editor.\n" ++
  "  -d, --debug-level message level: 0 error, 1 warning, 2 info, 3 debug.\n" ++
  "  -q, --quiet       don't print the banner.\n" ++
  "  --help, help      display usage information\n"

def Stop.message : Stop → String
  | .help => usage
  | .trailing => "Trailing arguments are not allowed after `help`."
  | .unrecognized argument => "Unrecognized argument: " ++ argument ++ "\n"
  | .noValue option => "No value provided for option '" ++ option ++ "'.\n"
  | .badValue option value fault =>
    "Error parsing option '" ++ option ++ "' with value '" ++ value ++ "': " ++
      fault.message ++ "\n"

/-- What an argument in front of `--` asks for. -/
inductive Switch where
  | file | plain | debugLevel | quiet
  deriving DecidableEq, Repr

def Switch.find? (argument : String) : Option Switch :=
  if argument = "-f" ∨ argument = "--file" then some .file
  else if argument = "-p" ∨ argument = "--plain" then some .plain
  else if argument = "-d" ∨ argument = "--debug-level" then some .debugLevel
  else if argument = "-q" ∨ argument = "--quiet" then some .quiet
  else none

def setFile (options : Options) (value : String) : Except ValueFault Options :=
  match options.file with
  | some _ => .error .duplicate
  | none => .ok { options with file := some value }

def setDebugLevel (options : Options) (value : String) : Except ValueFault Options :=
  match options.debugLevel with
  | some _ => .error .duplicate
  | none =>
    match Text.Numeral.parse value with
    | .error fault => .error (.numeral fault)
    | .ok n => .ok { options with debugLevel := some n }

def setValue (argument value : String) (result : Except ValueFault Options) :
    Except Stop Options :=
  match result with
  | .ok options => .ok options
  | .error fault => .error (.badValue argument value fault)

/-- Reads arguments into `options`. `help` tells that help was asked for, and `ended` that no
argument is an option any more. -/
def parseFrom (help ended : Bool) (options : Options) : List String → Except Stop Options
  | [] => if help then .error .help else .ok options
  | argument :: rest =>
    if ended then .error (.unrecognized argument)
    else if argument = "--help" ∨ argument = "help" then parseFrom true false options rest
    else if argument = "--" then parseFrom help true options rest
    else if "-".isPrefixOf argument then
      if help then .error .trailing
      else
        match Switch.find? argument with
        | none => .error (.unrecognized argument)
        | some .plain => parseFrom help ended { options with plain := true } rest
        | some .quiet => parseFrom help ended { options with quiet := true } rest
        | some .file =>
          match rest with
          | [] => .error (.noValue argument)
          | value :: rest => do
            parseFrom help ended (← setValue argument value (options.setFile value)) rest
        | some .debugLevel =>
          match rest with
          | [] => .error (.noValue argument)
          | value :: rest => do
            parseFrom help ended (← setValue argument value (options.setDebugLevel value)) rest
    else .error (.unrecognized argument)

def parse (arguments : List String) : Except Stop Options :=
  parseFrom false false {} arguments

end Options

end ForthMachine
