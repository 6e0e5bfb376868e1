import ForthMachine.FlooredDivision
import ForthMachine.Machine.Access

/-!
# What the primitives do

Most primitives replace a few values on top of the data stack, and fail without any change if they
find fewer. None of them runs tokens, and only two end the line.
-/

set_option autoImplicit false

namespace ForthMachine

open Machine

def divide (a b : Int64) : Except Fault (Int64 × Int64) :=
  if b = 0 then .error .divisionByZero else .ok (floorDivMod a b)

def charOfCode? (code : Int64) : Option Char :=
  let n := code.toInt
  if 0 ≤ n ∧ n.toNat.isValidChar then some (Char.ofNat n.toNat) else none

def binary (f : Int64 → Int64 → Int64) : Action Unit :=
  transform 2 fun v => .ok [f (v 0) (v 1)]

def comparison (f : Int64 → Int64 → Bool) : Action Unit :=
  binary fun a b => flag (f a b)

def unary (f : Int64 → Int64) : Action Unit := do
  push (f (← pop))

def rearrange (n : Nat) (f : (Fin n → Int64) → List Int64) : Action Unit :=
  transform n fun v => .ok (f v)

/-- How far the screen scrolls to be clear. -/
def pageLines : Nat := 100

namespace Primitive

def effect : Primitive → Action Unit
  | add => binary (· + ·)
  | sub => binary (· - ·)
  | mul => binary (· * ·)
  | div => transform 2 fun v => (divide (v 0) (v 1)).map fun qr => [qr.1]
  | mod => transform 2 fun v => (divide (v 0) (v 1)).map fun qr => [qr.2]
  | divMod => do
    need 2
    let b ← peek 0
    let a ← peek 1
    match divide a b with
    | .error fault => fail fault
    | .ok (q, r) => rearrange 2 fun _ => [r, q]
  | invert => unary (~~~ ·)
  | bitAnd => binary (· &&& ·)
  | bitOr => binary (· ||| ·)
  | greater => comparison fun a b => a > b
  | greaterEqual => comparison fun a b => a ≥ b
  | less => comparison fun a b => a < b
  | lessEqual => comparison fun a b => a ≤ b
  | equal => comparison fun a b => a = b
  | equals => comparison fun a b => a = b
  | unequal => comparison fun a b => a ≠ b
  | isZero => unary fun a => flag (a = 0)
  | isNegative => unary fun a => flag (a < 0)
  | pushTrue => push (flag true)
  | pushFalse => push (flag false)
  | swap => rearrange 2 fun v => [v 1, v 0]
  | dup => rearrange 1 fun v => [v 0, v 0]
  | copySecond => do push (← peek 1)
  | rot => rearrange 3 fun v => [v 1, v 2, v 0]
  | drop => do let _ ← pop
  | tuck => rearrange 2 fun v => [v 1, v 0, v 1]
  | dup2 => rearrange 2 fun v => [v 0, v 1, v 0, v 1]
  | swap2 => rearrange 4 fun v => [v 2, v 3, v 0, v 1]
  | copySecondPair => do
    let a ← peek 3
    let b ← peek 2
    push a
    push b
  | depth => fun m => push (Int64.ofNat m.stack.length) m
  | clear => popAll
  | clearAll => popAll
  | toReturn => do pushReturn (← pop)
  | fromReturn => do push (← popReturn)
  | copyReturn => do push (← peekReturn 0)
  | index => do push (← peekReturn 0)
  | outerIndex => do push (← peekReturn 1)
  | .print => do Machine.print (Text.Numeral.write (← pop) ++ " ")
  | printStack => fun m =>
    Machine.print ("[" ++ ", ".intercalate (m.values.map Text.Numeral.write) ++ "] ") m
  | emit => do
    let code ← peek 0
    match charOfCode? code with
    | none => fail (.invalidChar code)
    | some c =>
      let _ ← pop
      Machine.print c.toString
  | newline => Machine.print "\n"
  | page => Machine.print (String.ofList (List.replicate pageLines '\n'))
  | words => fun m => Machine.print (String.join (m.dictionary.names.map (· ++ " "))) m
  | quit => pure ()
  | bye => modify fun m => { m with exiting := true }
  | setLevel => do
    let level := Level.ofNumber (← pop)
    modify fun m => { m with log := { m.log with level } }
    tell .info "DBG" "message level" (some (.level level))

/-- Whether the line goes on after the primitive. -/
def flow : Primitive → Flow
  | quit => .quit
  | bye => .quit
  | _ => .next

def run (p : Primitive) : Action Flow := do
  p.effect
  return p.flow

end Primitive

end ForthMachine
