import ForthMachine.Vocabulary

/-!
# Tokens

The body of a definition is a list of token trees. A call holds the word it calls, body and all,
so that a definition keeps its meaning when a name is defined again. Every word gets a serial
number when it is installed, which tells two words of one name apart.
-/

set_option autoImplicit false

namespace ForthMachine

/-- What is added to the index of a counted loop after a pass. -/
inductive Step where
  | fixed (n : Int64)
  | fromStack
  deriving DecidableEq, Repr

/-- How a run of tokens ended that did not fail: at its end, on the way out of the nearest loop,
or on the way out of the line. -/
inductive Flow where
  | next | leave | quit
  deriving DecidableEq, Repr

/-- The words that open a structure, as marks of the structures still open. -/
inductive Opener where
  | colon | ifWord | elseWord | doWord | beginWord | whileWord
  deriving DecidableEq, Repr

mutual

inductive Token where
  | number (n : Int64)
  | call (word : Word)
  | unresolved (name : String)
  | counted (body : List Token) (step : Step)
  | branch (ifTrue ifFalse : List Token)
  | indefinite (condition body : List Token)
  | leave

structure Word where
  serial : Nat
  name : String
  behavior : Behavior

inductive Behavior where
  | primitive (p : Primitive)
  | structural (s : Structural)
  | readAhead (r : ReadAhead)
  | comment (c : Comment)
  | definition (body : List Token)

end

mutual

/-- Equality of tokens, where two calls are equal if they call the same word. -/
def Token.same : Token → Token → Bool
  | .number a, .number b => a == b
  | .call v, .call w => v.serial == w.serial
  | .unresolved a, .unresolved b => a == b
  | .counted body step, .counted body' step' => Token.sameList body body' && step == step'
  | .branch t f, .branch t' f' => Token.sameList t t' && Token.sameList f f'
  | .indefinite c body, .indefinite c' body' => Token.sameList c c' && Token.sameList body body'
  | .leave, .leave => true
  | _, _ => false
termination_by structural t => t

def Token.sameList : List Token → List Token → Bool
  | [], [] => true
  | t :: ts, t' :: ts' => Token.same t t' && Token.sameList ts ts'
  | _, _ => false
termination_by structural ts => ts

end

end ForthMachine
