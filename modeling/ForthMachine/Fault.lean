import ForthMachine.Token.Text
import ForthMachine.Text.Quoted

/-!
# Faults

What can go wrong in a line. A fault is told to the user by its message; the log shows its kind
and what it carries.
-/

set_option autoImplicit false

namespace ForthMachine

inductive Fault where
  | stackUnderflow
  | returnStackUnderflow
  | undefinedWord (name : String)
  /-- A cell or token in a place that has no use for it. -/
  | unknownToken (text : String)
  | compileOnly
  | interpretOnly
  | noNameGiven
  | unclosed (opener : Opener)
  | missing (opener : Opener)
  | notLooping
  | divisionByZero
  | invalidChar (code : Int64)
  | tooDeep
  deriving DecidableEq, Repr

def Opener.kind : Opener → String
  | .colon => "Colon"
  | .ifWord => "If"
  | .elseWord => "Else"
  | .doWord => "Do"
  | .beginWord => "Begin"
  | .whileWord => "While"

namespace Fault

def message : Fault → String
  | stackUnderflow => "stack underflow"
  | returnStackUnderflow => "return stack underflow"
  | undefinedWord name => "undefined word: " ++ name
  | unknownToken text => "unknown token type: " ++ text
  | compileOnly => "compile-only word"
  | interpretOnly => "interpret-only word"
  | noNameGiven => "no name given"
  | unclosed opener => "unclosed " ++ opener.text
  | missing opener => "missing " ++ opener.text
  | notLooping => "not looping"
  | divisionByZero => "division by zero"
  | invalidChar code => "invalid character: " ++ Text.Numeral.write code
  | tooDeep => "nesting too deep"

def kind : Fault → String
  | stackUnderflow => "StackUnderflow"
  | returnStackUnderflow => "ReturnStackUnderflow"
  | undefinedWord _ => "UndefinedWord"
  | unknownToken _ => "UnknownToken"
  | compileOnly => "CompileOnly"
  | interpretOnly => "InterpretOnly"
  | noNameGiven => "NoNameGiven"
  | unclosed _ => "Unclosed"
  | missing _ => "Missing"
  | notLooping => "NotLooping"
  | divisionByZero => "DivisionByZero"
  | invalidChar _ => "InvalidChar"
  | tooDeep => "TooDeep"

def subject? : Fault → Option String
  | undefinedWord name => some (Text.quote name)
  | unknownToken text => some (Text.quote text)
  | unclosed opener => some opener.kind
  | missing opener => some opener.kind
  | invalidChar code => some (Text.Numeral.write code)
  | _ => none

/-- The kind, and the subject in parentheses. -/
def logText (fault : Fault) : String :=
  match fault.subject? with
  | some subject => fault.kind ++ "(" ++ subject ++ ")"
  | none => fault.kind

end Fault

end ForthMachine
