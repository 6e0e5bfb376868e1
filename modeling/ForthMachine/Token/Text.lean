import ForthMachine.Token.Basic
import ForthMachine.Text.Numeral

/-!
# Source text of tokens

Tokens are written the way they are compiled: a tree is written with the words that open, divide
and close it. A loop that runs until a flag is true was compiled to a loop while its opposite is
true, and is written as that.
-/

set_option autoImplicit false

namespace ForthMachine

def Opener.text : Opener → String
  | .colon => ":"
  | .ifWord => "IF"
  | .elseWord => "ELSE"
  | .doWord => "DO"
  | .beginWord => "BEGIN"
  | .whileWord => "WHILE"

def Step.closer : Step → String
  | .fixed _ => "LOOP"
  | .fromStack => "+LOOP"

mutual

def Token.text : Token → String
  | .number n => Text.Numeral.write n
  | .call word => word.name
  | .unresolved name => name
  | .counted body step => "DO " ++ Token.listing body ++ step.closer
  | .branch ifTrue [] => "IF " ++ Token.listing ifTrue ++ "THEN"
  | .branch ifTrue ifFalse =>
    "IF " ++ Token.listing ifTrue ++ "ELSE " ++ Token.listing ifFalse ++ "THEN"
  | .indefinite condition body =>
    "BEGIN " ++ Token.listing condition ++ "WHILE " ++ Token.listing body ++ "REPEAT"
  | .leave => "LEAVE"
termination_by structural t => t

/-- Tokens in order, a space behind each. -/
def Token.listing : List Token → String
  | [] => ""
  | token :: tokens => Token.text token ++ " " ++ Token.listing tokens
termination_by structural ts => ts

end

end ForthMachine
