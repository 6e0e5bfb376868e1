import ForthMachine.Machine.Primitive

/-!
# What the primitives are made of

Every primitive is put together from a few accesses to the machine. What holds of the accesses, and
of one action behind another, holds of the primitives.
-/

set_option autoImplicit false

namespace ForthMachine

open Machine

/-- What a primitive can complain of, where the stacks hold nothing but values. -/
def Fault.OfPrimitive : Fault → Prop
  | .stackUnderflow | .returnStackUnderflow | .divisionByZero | .invalidChar _ => True
  | _ => False

/-- What an action may use besides the cells on top of the data stack, the output and the log. -/
inductive Access where
  | wholeStack | returns | names
  deriving DecidableEq, Repr

/-- Actions that are put together from accesses to the stacks, the output and the log. -/
inductive Action.Built (may : Access → Prop) : {α : Type} → Action α → Prop where
  | pure {α : Type} (a : α) : Built may (Pure.pure a : Action α)
  | fail {α : Type} {fault : Fault} (h : fault.OfPrimitive) :
      Built may (Machine.fail fault : Action α)
  | bind {α β : Type} {first : Action α} {next : α → Action β} (hfirst : Built may first)
      (hnext : ∀ a, Built may (next a)) : Built may (first >>= next)
  | push (n : Int64) : Built may (Machine.push n)
  | pop : Built may Machine.pop
  | peek (n : Nat) : Built may (Machine.peek n)
  | need (n : Nat) : Built may (Machine.need n)
  | transform (n : Nat) {f : (Fin n → Int64) → Except Fault (List Int64)}
      (h : ∀ {values fault}, f values = .error fault → fault.OfPrimitive) :
      Built may (Machine.transform n f)
  | popAll (h : may .wholeStack) : Built may Machine.popAll
  | pushReturn (h : may .returns) (n : Int64) : Built may (Machine.pushReturn n)
  | popReturn (h : may .returns) : Built may Machine.popReturn
  | peekReturn (h : may .returns) (n : Nat) : Built may (Machine.peekReturn n)
  | print (text : String) : Built may (Machine.print text)
  | tell (level : Level) (context text : String) (detail : Option Detail) :
      Built may (Machine.tell level context text detail)
  | exit : Built may (modify fun m => { m with exiting := true })
  | setLevel (level : Level) :
      Built may (modify fun m => { m with log := { m.log with level } })
  | withStack {α : Type} {action : List Cell → Action α} (h : may .wholeStack)
      (haction : ∀ cells, Built may (action cells)) : Built may fun m => action m.stack m
  | withNames {α : Type} {action : List String → Action α} (h : may .names)
      (haction : ∀ names, Built may (action names)) :
      Built may fun m => action m.dictionary.names m

theorem divide_error {a b : Int64} {fault : Fault} (h : divide a b = .error fault) :
    fault.OfPrimitive := by
  unfold divide at h
  split at h <;> cases h
  trivial

section

variable {may : Access → Prop}

theorem Action.Built.rearrange (n : Nat) (f : (Fin n → Int64) → List Int64) :
    Built may (ForthMachine.rearrange n f) :=
  .transform n nofun

theorem Action.Built.binary (f : Int64 → Int64 → Int64) : Built may (ForthMachine.binary f) :=
  .transform 2 nofun

theorem Action.Built.divided (f : Int64 × Int64 → List Int64) :
    Built may (Machine.transform 2 fun v => (divide (v 0) (v 1)).map f) := by
  apply Action.Built.transform
  intro values fault h
  cases hdivide : divide (values 0) (values 1) with
  | ok qr =>
    rw [hdivide] at h
    cases h
  | error fault' =>
    rw [hdivide] at h
    cases h
    exact divide_error hdivide

end

def Primitive.access? : Primitive → Option Access
  | depth | clear | clearAll | printStack => some .wholeStack
  | toReturn | fromReturn | copyReturn | index | outerIndex => some .returns
  | words => some .names
  | _ => none

theorem Primitive.effect_built (p : Primitive) : p.effect.Built (p.access? = some ·) := by
  cases p with
  | add | sub | mul | bitAnd | bitOr => exact .binary _
  | div | mod => exact .divided _
  | greater | greaterEqual | less | lessEqual | equal | equals | unequal =>
    unfold effect comparison
    exact .binary _
  | swap | dup | rot | tuck | dup2 | swap2 => exact .rearrange _ _
  | invert | isZero | isNegative => exact .bind .pop fun n => .push _
  | pushTrue | pushFalse => exact .push _
  | divMod =>
    refine .bind (.need 2) fun _ => .bind (.peek 0) fun b => .bind (.peek 1) fun a => ?_
    cases hdivide : divide a b with
    | error fault => exact .fail (divide_error hdivide)
    | ok qr => exact .rearrange 2 _
  | copySecond => exact .bind (.peek 1) fun n => .push n
  | copySecondPair =>
    exact .bind (.peek 3) fun a => .bind (.peek 2) fun b => .bind (.push a) fun _ => .push b
  | drop => exact .bind .pop fun _ => .pure ()
  | depth => exact .withStack (by rfl) fun cells => .push (Int64.ofNat cells.length)
  | clear | clearAll => exact .popAll (by rfl)
  | toReturn => exact .bind .pop fun n => .pushReturn (by rfl) n
  | fromReturn => exact .bind (.popReturn (by rfl)) fun n => .push n
  | copyReturn | index => exact .bind (.peekReturn (by rfl) 0) fun n => .push n
  | outerIndex => exact .bind (.peekReturn (by rfl) 1) fun n => .push n
  | print => exact .bind .pop fun n => .print _
  | printStack =>
    exact .withStack (by rfl) fun cells => .print ("[" ++ ", ".intercalate
      ((cells.filterMap (·.number?)).reverse.map Text.Numeral.write) ++ "] ")
  | newline | page => exact .print _
  | words => exact .withNames (by rfl) fun names => .print (String.join (names.map (· ++ " ")))
  | emit =>
    refine .bind (.peek 0) fun code => ?_
    split
    · exact .fail trivial
    · exact .bind .pop fun _ => .print _
  | quit => exact .pure ()
  | bye => exact .exit
  | setLevel => exact .bind .pop fun n => .bind (.setLevel _) fun _ => .tell _ _ _ _

theorem Primitive.run_built (p : Primitive) : p.run.Built (p.access? = some ·) :=
  .bind p.effect_built fun _ => .pure p.flow

end ForthMachine
