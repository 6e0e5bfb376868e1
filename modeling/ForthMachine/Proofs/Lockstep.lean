import ForthMachine.Proofs.Primitives
import ForthMachine.Proofs.Simulation

/-!
# Two runs in lockstep

Two machines that agree on everything a run looks at go through the same run. One of them may have
less room for nested runs, and then its run may be cut off before the other one ends.
-/

set_option autoImplicit false

namespace ForthMachine

open Machine

/-- The changes that primitives and loops are made of, made in two machines at a time. What some
primitives use besides may be different in the machines, if those are not called. Whenever the
first machine has room for a nested run, the second one has. -/
structure Lockstep (may : Access → Prop) (bounds bounds' : Bounds)
    (R : Machine → Machine → Prop) : Prop where
  passes : bounds'.passes = bounds.passes
  room : ∀ {m m' : Machine}, R m m' → ¬ bounds.nesting.any (· ≤ m.depth) →
    ¬ bounds'.nesting.any (· ≤ m'.depth)
  stack : ∀ {m m' : Machine}, R m m' → m'.stack = m.stack
  returns : may .returns → ∀ {m m' : Machine}, R m m' → m'.returns = m.returns
  names : may .names → ∀ {m m' : Machine}, R m m' → m'.dictionary.names = m.dictionary.names
  withStack : ∀ {m m' : Machine} (cells : List Cell), R m m' →
    R { m with stack := cells } { m' with stack := cells }
  withReturns : may .returns → ∀ {m m' : Machine} (cells : List Cell), R m m' →
    R { m with returns := cells } { m' with returns := cells }
  print : ∀ {m m' : Machine} (text : String), R m m' →
    R { m with output := m.output ++ text } { m' with output := m'.output ++ text }
  exit : ∀ {m m' : Machine}, R m m' → R { m with exiting := true } { m' with exiting := true }
  level : ∀ {m m' : Machine} (level : Level), R m m' →
    R { m with log := { m.log with level } } { m' with log := { m'.log with level } }
  note : ∀ {m m' : Machine} (entry entry' : Entry), R m m' → R (m.note entry) (m'.note entry')
  deeper : ∀ {m m' : Machine}, R m m' →
    R { m with depth := m.depth + 1 } { m' with depth := m'.depth + 1 }
  back : ∀ {m m' : Machine}, R m m' →
    R { m with depth := m.depth - 1 } { m' with depth := m'.depth - 1 }

/-- The same result or the same fault, and machines that are related. -/
inductive Outcome.Agree {α : Type} (R : Machine → Machine → Prop) :
    Outcome α → Outcome α → Prop where
  | ok {m m' : Machine} (a : α) (h : R m m') : Agree R (.ok a m) (.ok a m')
  | error {m m' : Machine} (fault : Fault) (h : R m m') : Agree R (.error fault m) (.error fault m')

def Action.Agrees {α : Type} (R : Machine → Machine → Prop) (action : Action α) : Prop :=
  ∀ m m' : Machine, R m m' → Outcome.Agree R (action m) (action m')

theorem Outcome.Agree.mirrors {ι α : Type} {excused : Fault → Prop}
    {R : ι → Machine → Machine → Prop} {i : ι} {o o' : Outcome α} (h : Outcome.Agree (R i) o o') :
    Mirrors excused R i (some o) (some o') := by
  cases h with
  | ok a h => exact .ok a h
  | error fault h => exact .error fault h

theorem rel_mono {α β : Type} {R S : α → β → Prop} (himp : ∀ a b, R a b → S a b) {o : Option α}
    {o' : Option β} (h : Option.Rel R o o') : Option.Rel S o o' := by
  cases h with
  | none => exact .none
  | some h => exact .some (himp _ _ h)

theorem Outcome.Agree.mono {α : Type} {R S : Machine → Machine → Prop} {o o' : Outcome α}
    (h : Outcome.Agree R o o') (himp : ∀ {m m'}, R m m' → S m m') : Outcome.Agree S o o' := by
  cases h with
  | ok a h => exact .ok a (himp h)
  | error fault h => exact .error fault (himp h)

theorem Outcome.Agree.of_mirrors {α : Type} {R : Machine → Machine → Prop} {o o' : Outcome α}
    (h : Mirrors (fun _ => False) (fun _ : Unit => R) () (some o) (some o')) :
    Outcome.Agree R o o' := by
  cases h with
  | excused h => exact h.elim
  | ok a h => exact .ok a h
  | error fault h => exact .error fault h

/-- The second run ends like the first one, unless the first one nested too deep. -/
inductive Follows (R : Machine → Machine → Prop) :
    Option (Outcome Flow) → Option (Outcome Flow) → Prop where
  | cut (m : Machine) (o : Option (Outcome Flow)) : Follows R (some (.error .tooDeep m)) o
  | stuck : Follows R none none
  | agree {o o' : Outcome Flow} (h : Outcome.Agree R o o') : Follows R (some o) (some o')

def Run.Follows (R : Machine → Machine → Prop) (run run' : Run) : Prop :=
  ∀ m m' : Machine, R m m' → ForthMachine.Follows R (run m) (run' m')

theorem Follows.of_mirrors {R : Machine → Machine → Prop} {o o' : Option (Outcome Flow)}
    (h : Mirrors (· = .tooDeep) (fun _ : Unit => R) () o o') : Follows R o o' := by
  cases h with
  | excused h m =>
    subst h
    exact .cut m _
  | givenUp => exact .stuck
  | ok flow h => exact .agree (.ok flow h)
  | error fault h => exact .agree (.error fault h)

/-- Where the first run does not end with an excused fault, the two come to the same end. -/
theorem Mirrors.exact {α : Type} {excused : Fault → Prop} {R : Machine → Machine → Prop}
    {o o' : Option (Outcome α)} (h : Mirrors excused (fun _ : Unit => R) () o o')
    (hfault : ∀ fault m, o = some (.error fault m) → ¬ excused fault) :
    Option.Rel (Outcome.Agree R) o o' := by
  cases h with
  | excused h m => exact absurd h (hfault _ m rfl)
  | givenUp => exact .none
  | ok a h => exact .some (.ok a h)
  | error fault h => exact .some (.error fault h)

namespace Lockstep

variable {may : Access → Prop} {bounds bounds' : Bounds} {R : Machine → Machine → Prop}
  (law : Lockstep may bounds bounds' R)

section Actions

variable {α β : Type}

theorem pure (a : α) : Action.Agrees R (Pure.pure a : Action α) :=
  fun _ _ h => .ok a h

theorem fail (fault : Fault) : Action.Agrees R (Machine.fail fault : Action α) :=
  fun _ _ h => .error fault h

theorem leaving {m m' : Machine} (h : R m m') (result : Except Fault α) :
    Outcome.Agree R (Machine.leaving m result) (Machine.leaving m' result) :=
  .of_mirrors (Mirrors.leaving (R := fun _ : Unit => R) (i := ()) h result)

theorem bind {first : Action α} {next : α → Action β} (hfirst : Action.Agrees R first)
    (hnext : ∀ a, Action.Agrees R (next a)) : Action.Agrees R (first >>= next) := by
  intro m m' h
  have hfirst' : Mirrors (fun _ => False) (fun _ : Unit => R) () (some (first m))
      (some (first m')) := (hfirst m m' h).mirrors
  exact .of_mirrors (hfirst'.bind fun a m m' h => (hnext a m m' h).mirrors)

include law

theorem push (n : Int64) : Action.Agrees R (Machine.push n) := by
  intro m m' h
  unfold Machine.push pushCell
  rw [law.stack h]
  exact .ok () (law.withStack _ h)

theorem pop : Action.Agrees R Machine.pop := by
  intro m m' h
  unfold Machine.pop
  rw [law.stack h]
  split
  · exact .error _ h
  · exact leaving (law.withStack _ h) _

theorem peek (n : Nat) : Action.Agrees R (Machine.peek n) := by
  intro m m' h
  unfold Machine.peek
  rw [law.stack h]
  split
  · exact .error _ h
  · exact leaving h _

theorem need (n : Nat) : Action.Agrees R (Machine.need n) := by
  intro m m' h
  unfold Machine.need
  rw [law.stack h]
  split
  · exact .error _ h
  · exact .ok () h

theorem popValues (n : Nat) : Action.Agrees R (Machine.popValues n) := by
  intro m m' h
  unfold Machine.popValues
  rw [law.stack h]
  split
  · exact .error _ h
  · exact .ok _ (law.withStack _ h)

theorem transform (n : Nat) (f : (Fin n → Int64) → Except Fault (List Int64)) :
    Action.Agrees R (Machine.transform n f) := by
  intro m m' h
  unfold Machine.transform
  rw [law.stack h]
  split
  · exact .error _ h
  · split
    · exact .error _ h
    · exact .ok () (law.withStack _ h)

theorem popAll : Action.Agrees R Machine.popAll := by
  intro m m' h
  unfold Machine.popAll
  rw [law.stack h]
  split
  · exact .ok () (law.withStack _ h)
  · exact .error _ (law.withStack _ h)

theorem pushReturn (hmay : may .returns) (n : Int64) :
    Action.Agrees R (Machine.pushReturn n) := by
  intro m m' h
  unfold Machine.pushReturn pushReturnCell
  rw [law.returns hmay h]
  exact .ok () (law.withReturns hmay _ h)

theorem popReturn (hmay : may .returns) : Action.Agrees R Machine.popReturn := by
  intro m m' h
  unfold Machine.popReturn
  rw [law.returns hmay h]
  split
  · exact .error _ h
  · exact leaving (law.withReturns hmay _ h) _

theorem peekReturn (hmay : may .returns) (n : Nat) : Action.Agrees R (Machine.peekReturn n) := by
  intro m m' h
  unfold Machine.peekReturn
  rw [law.returns hmay h]
  split
  · exact .error _ h
  · exact leaving h _

theorem built {uses : Access → Prop} {action : Action α} (h : action.Built uses)
    (hmay : ∀ {access}, uses access → may access) : Action.Agrees R action := by
  induction h with
  | pure a => exact pure a
  | @fail _ fault _ => exact fail fault
  | bind _ _ first next => exact bind first next
  | push n => exact law.push n
  | pop => exact law.pop
  | peek n => exact law.peek n
  | need n => exact law.need n
  | @transform n f _ => exact law.transform n f
  | popAll _ => exact law.popAll
  | pushReturn huses n => exact law.pushReturn (hmay huses) n
  | popReturn huses => exact law.popReturn (hmay huses)
  | peekReturn huses n => exact law.peekReturn (hmay huses) n
  | print text => exact fun _ _ h => .ok () (law.print text h)
  | tell level context text detail => exact fun _ _ h => .ok () (law.note _ _ h)
  | exit => exact fun _ _ h => .ok () (law.exit h)
  | setLevel level => exact fun _ _ h => .ok () (law.level level h)
  | @withStack _ action _ _ same =>
    intro m m' h
    change Outcome.Agree R (action m.stack m) (action m'.stack m')
    rw [law.stack h]
    exact same m.stack m m' h
  | @withNames _ action huses _ same =>
    intro m m' h
    change Outcome.Agree R (action m.dictionary.names m) (action m'.dictionary.names m')
    rw [law.names (hmay huses) h]
    exact same m.dictionary.names m m' h

theorem primitive {p : Primitive} (hmay : ∀ {access}, p.access? = some access → may access) :
    Action.Agrees R p.run :=
  law.built p.run_built hmay

end Actions

/-- A family of relations, each of them kept in step. The first run is excused where it is cut off,
or else the second one has to be cut off there, too. -/
theorem simulation {ι : Type} [Inhabited ι] {R : ι → Machine → Machine → Prop}
    (law : ∀ i, Lockstep may bounds bounds' (R i)) {excused : Fault → Prop}
    (full : ∀ {i : ι} {m m' : Machine}, R i m m' → bounds.nesting.any (· ≤ m.depth) →
      excused .tooDeep ∨ bounds'.nesting.any (· ≤ m'.depth))
    {allowed : Primitive → Bool}
    (hmay : ∀ {p access}, allowed p = true → p.access? = some access → may access) {up : ι → ι}
    (pushIndex : ∀ {i : ι} {m m' : Machine} (index : Int64), R i m m' →
      R (up i) { m with returns := .value index :: m.returns }
        { m' with returns := .value index :: m'.returns })
    (popIndex : ∀ {i : ι} {m m' : Machine}, R (up i) m m' →
      Mirrors excused R i (some (Machine.popReturn m)) (some (Machine.popReturn m'))) :
    Simulation bounds bounds' excused allowed R up where
  passes := (law default).passes
  full := full
  room := (law _).room
  deeper := (law _).deeper
  back := (law _).back
  note := (law _).note
  push n _ _ h := ((law _).push n _ _ h).mirrors
  pop _ _ h := ((law _).pop _ _ h).mirrors
  popValues n _ _ h := ((law _).popValues n _ _ h).mirrors
  primitive hallowed _ _ h := ((law _).primitive (hmay hallowed) _ _ h).mirrors
  pushIndex := pushIndex
  popIndex := popIndex

theorem onReturns (law : Lockstep may bounds bounds' R) (hreturns : may .returns)
    {excused : Fault → Prop}
    (full : ∀ {m m' : Machine}, R m m' → bounds.nesting.any (· ≤ m.depth) →
      excused .tooDeep ∨ bounds'.nesting.any (· ≤ m'.depth))
    {allowed : Primitive → Bool}
    (hmay : ∀ {p access}, allowed p = true → p.access? = some access → may access) :
    Simulation bounds bounds' excused allowed (fun _ : Unit => R) id :=
  simulation (fun _ => law) full hmay
    (fun {_ m m'} index h => by
      rw [law.returns hreturns h]
      exact law.withReturns hreturns _ h)
    fun h => (law.popReturn hreturns _ _ h).mirrors

theorem whole (law : Lockstep (fun _ => True) bounds bounds' R) {excused : Fault → Prop}
    (full : ∀ {m m' : Machine}, R m m' → bounds.nesting.any (· ≤ m.depth) →
      excused .tooDeep ∨ bounds'.nesting.any (· ≤ m'.depth)) :
    Simulation bounds bounds' excused (fun _ => true) (fun _ : Unit => R) id :=
  law.onReturns trivial full fun _ _ => trivial

theorem cutting (law : Lockstep (fun _ => True) bounds bounds' R) :
    Simulation bounds bounds' (· = .tooDeep) (fun _ => true) (fun _ : Unit => R) id :=
  law.whole fun _ _ => .inl rfl

theorem runToken (law : Lockstep (fun _ => True) bounds bounds' R) (token : Token) :
    Run.Follows R (ForthMachine.runToken bounds token) (ForthMachine.runToken bounds' token) :=
  fun m m' h => .of_mirrors
    (law.cutting.runToken () token (Token.callsOnly_of_forall (fun _ => rfl) token) m m' h)

theorem execute (law : Lockstep (fun _ => True) bounds bounds' R) (tokens : List Token) :
    Run.Follows R (ForthMachine.execute bounds tokens) (ForthMachine.execute bounds' tokens) :=
  fun m m' h => .of_mirrors (law.cutting.nested
    (law.cutting.runTokens () tokens (Token.callsOnlyAll_of_forall (fun _ => rfl) tokens)) m m' h)

end Lockstep

end ForthMachine
