import ForthMachine.Proofs.Calls

/-!
# Cells under a run

A run does not reach below the cells that it uses. With other cells under those on either stack it
does the same, and leaves the others where they are, unless it runs out of cells without them. Only
the primitives that look at the whole data stack are different.
-/

set_option autoImplicit false

namespace ForthMachine

open Machine

/-- The machine with more cells under those on its stacks. -/
def Machine.over (m : Machine) (below under : List Cell) : Machine :=
  { m with stack := m.stack ++ below, returns := m.returns ++ under }

/-- What does not come up if there are enough cells. -/
def Fault.Underflow (fault : Fault) : Prop :=
  fault = .stackUnderflow ∨ fault = .returnStackUnderflow

/-- The second machine has more cells under those of the first, and its log may be different. -/
def Over (below under : List Cell) (m m' : Machine) : Prop :=
  ∃ log : Log, log.level = m.log.level ∧ m' = { m.over below under with log }

namespace Over

variable {below under : List Cell} {m m' : Machine}

theorem stack (h : Over below under m m') : m'.stack = m.stack ++ below := by
  obtain ⟨log, -, rfl⟩ := h
  rfl

theorem returns (h : Over below under m m') : m'.returns = m.returns ++ under := by
  obtain ⟨log, -, rfl⟩ := h
  rfl

theorem read {γ : Type} (h : Over below under m m') (f : Machine → γ)
    (hf : ∀ m log, f { m.over below under with log } = f m) : f m' = f m := by
  obtain ⟨log, -, rfl⟩ := h
  exact hf m log

theorem change (h : Over below under m m') (f : Machine → Machine)
    (hf : ∀ m log, f { m.over below under with log } = { (f m).over below under with log })
    (hlog : ∀ m, (f m).log = m.log) : Over below under (f m) (f m') := by
  obtain ⟨log, hlevel, rfl⟩ := h
  exact ⟨log, by rwa [hlog], hf m log⟩

theorem withStack (h : Over below under m m') (cells : List Cell) :
    Over below under { m with stack := cells } { m' with stack := cells ++ below } := by
  obtain ⟨log, hlevel, rfl⟩ := h
  exact ⟨log, hlevel, rfl⟩

theorem withReturns (h : Over below under m m') (cells : List Cell) :
    Over below under { m with returns := cells } { m' with returns := cells ++ under } := by
  obtain ⟨log, hlevel, rfl⟩ := h
  exact ⟨log, hlevel, rfl⟩

theorem note (h : Over below under m m') (entry entry' : Entry) :
    Over below under (m.note entry) (m'.note entry') := by
  obtain ⟨log, hlevel, rfl⟩ := h
  refine ⟨log.add entry', ?_, rfl⟩
  rw [Machine.note, Log.add_level, Log.add_level]
  exact hlevel

theorem setLevel (h : Over below under m m') (level : Level) :
    Over below under { m with log := { m.log with level } }
      { m' with log := { m'.log with level } } := by
  obtain ⟨log, -, rfl⟩ := h
  exact ⟨{ log with level }, rfl, rfl⟩

theorem leaving {α : Type} (h : Over below under m m') (result : Except Fault α) :
    Mirrors Fault.Underflow (fun _ : Unit => Over below under) ()
      (some (m.leaving result)) (some (m'.leaving result)) :=
  Mirrors.leaving (R := fun _ : Unit => Over below under) (i := ()) h result

theorem sameState (h : Over below under m m') : SameState (m.over below under) m' := by
  obtain ⟨log, hlevel, rfl⟩ := h
  exact ⟨rfl, rfl, rfl, rfl, rfl, rfl, rfl, hlevel⟩

end Over

/-- The action does the same over more cells, unless it runs out of cells without them. -/
def Action.Local {α : Type} (below under : List Cell) (action : Action α) : Prop :=
  Action.Mirrors Fault.Underflow (fun _ : Unit => Over below under) () action action

theorem topValues_append {n : Nat} {cells : List Cell} (h : n ≤ cells.length)
    (below : List Cell) : topValues n (cells ++ below) = topValues n cells := by
  induction cells generalizing n with
  | nil =>
    obtain rfl : n = 0 := Nat.le_zero.mp h
    cases below <;> rfl
  | cons cell cells ih =>
    cases n with
    | zero => rfl
    | succ n => simp only [List.cons_append, topValues, ih (Nat.le_of_succ_le_succ h)]

theorem topValues_cases (n : Nat) (cells below : List Cell) :
    topValues n cells = .error .stackUnderflow ∨
      n ≤ cells.length ∧ topValues n (cells ++ below) = topValues n cells := by
  by_cases hshort : cells.length < n
  · exact .inl (topValues_of_length_lt hshort)
  · exact .inr ⟨Nat.le_of_not_lt hshort, topValues_append (Nat.le_of_not_lt hshort) below⟩

theorem stacked_append (values : List Int64) (cells below : List Cell) :
    stacked values (cells ++ below) = stacked values cells ++ below := by
  induction values generalizing cells with
  | nil => rfl
  | cons n values ih => exact ih (.value n :: cells)

namespace Action.Local

variable {α : Type} {below under : List Cell}

theorem push (n : Int64) : Action.Local below under (Machine.push n) := by
  intro m m' h
  unfold Machine.push pushCell
  rw [h.stack]
  exact .ok () (h.withStack _)

theorem pop : Action.Local below under Machine.pop := by
  intro m m' h
  unfold Machine.pop
  rw [h.stack]
  cases m.stack with
  | nil => exact .excused (.inl rfl) m _
  | cons cell cells => exact (h.withStack cells).leaving cell.number

theorem peek (n : Nat) : Action.Local below under (Machine.peek n) := by
  intro m m' h
  unfold Machine.peek
  rw [h.stack]
  cases hcell : m.stack[n]? with
  | none => exact .excused (.inl rfl) m _
  | some cell =>
    obtain ⟨hlt, -⟩ := List.getElem?_eq_some_iff.mp hcell
    rw [List.getElem?_append_left hlt, hcell]
    exact h.leaving cell.number

theorem need (n : Nat) : Action.Local below under (Machine.need n) := by
  intro m m' h
  unfold Machine.need
  rw [h.stack]
  by_cases hshort : m.stack.length < n
  · rw [if_pos hshort]
    exact .excused (.inl rfl) m _
  · have hshort' : ¬ (m.stack ++ below).length < n := by
      rw [List.length_append]
      omega
    rw [if_neg hshort, if_neg hshort']
    exact .ok () h

theorem popValues (n : Nat) : Action.Local below under (Machine.popValues n) := by
  intro m m' h
  unfold Machine.popValues
  rw [h.stack]
  rcases topValues_cases n m.stack below with hshort | ⟨hle, hsame⟩
  · rw [hshort]
    exact .excused (.inl rfl) m _
  · rw [hsame, List.drop_append_of_le_length hle]
    cases topValues n m.stack with
    | error fault => exact .error (j := ()) fault h
    | ok values => exact .ok values (h.withStack _)

theorem transform (n : Nat) (f : (Fin n → Int64) → Except Fault (List Int64)) :
    Action.Local below under (Machine.transform n f) := by
  intro m m' h
  unfold Machine.transform
  rw [h.stack]
  rcases topValues_cases n m.stack below with hshort | ⟨hle, hsame⟩
  · rw [hshort]
    exact .excused (.inl rfl) m _
  · rw [hsame, List.drop_append_of_le_length hle]
    cases topValues n m.stack with
    | error fault => exact .error (j := ()) fault h
    | ok values =>
      dsimp only
      cases f values.get with
      | error fault => exact .error (j := ()) fault h
      | ok results =>
        dsimp only
        rw [stacked_append]
        exact .ok () (h.withStack _)

theorem pushReturn (n : Int64) : Action.Local below under (Machine.pushReturn n) := by
  intro m m' h
  unfold Machine.pushReturn pushReturnCell
  rw [h.returns]
  exact .ok () (h.withReturns _)

theorem popReturn : Action.Local below under Machine.popReturn := by
  intro m m' h
  unfold Machine.popReturn
  rw [h.returns]
  cases m.returns with
  | nil => exact .excused (.inr rfl) m _
  | cons cell cells => exact (h.withReturns cells).leaving cell.number

theorem peekReturn (n : Nat) : Action.Local below under (Machine.peekReturn n) := by
  intro m m' h
  unfold Machine.peekReturn
  rw [h.returns]
  cases hcell : m.returns[n]? with
  | none => exact .excused (.inr rfl) m _
  | some cell =>
    obtain ⟨hlt, -⟩ := List.getElem?_eq_some_iff.mp hcell
    rw [List.getElem?_append_left hlt, hcell]
    exact h.leaving cell.number

/-- Actions that are put together from accesses are local, if none is to the whole stack. -/
theorem built {uses : Access → Prop} {action : Action α} (h : action.Built uses)
    (hpart : ¬ uses .wholeStack) : Action.Local below under action := by
  induction h with
  | pure a => exact Action.Mirrors.pure a
  | @fail _ fault _ => exact Action.Mirrors.fail fault
  | bind _ _ first next => exact Action.Mirrors.bind first next
  | push n => exact push n
  | pop => exact pop
  | peek n => exact peek n
  | need n => exact need n
  | @transform n f _ => exact transform n f
  | popAll huses => exact absurd huses hpart
  | pushReturn _ n => exact pushReturn n
  | popReturn _ => exact popReturn
  | peekReturn _ n => exact peekReturn n
  | print text =>
    intro m m' h
    exact .ok () (h.change (fun m => { m with output := m.output ++ text }) (fun _ _ => rfl)
      fun _ => rfl)
  | tell level context text detail => exact fun m m' h => .ok () (h.note _ _)
  | exit =>
    intro m m' h
    exact .ok () (h.change (fun m => { m with exiting := true }) (fun _ _ => rfl) fun _ => rfl)
  | setLevel level => exact fun m m' h => .ok () (h.setLevel level)
  | withStack huses _ _ => exact absurd huses hpart
  | @withNames _ action _ _ same =>
    intro m m' h
    change ForthMachine.Mirrors _ _ _ (some (action m.dictionary.names m))
      (some (action m'.dictionary.names m'))
    rw [h.read (·.dictionary.names) fun _ _ => rfl]
    exact same m.dictionary.names m m' h

end Action.Local

/-- The primitives that look at every cell of the data stack. -/
def Primitive.onWholeStack : List Primitive := [.depth, .clear, .clearAll, .printStack]

theorem Primitive.run_local {p : Primitive} (h : p ∉ Primitive.onWholeStack)
    (below under : List Cell) : Action.Local below under p.run := by
  refine .built p.run_built ?_
  cases p <;> simp_all [onWholeStack, access?]

theorem over_simulation (bounds : Bounds) (below under : List Cell) :
    Simulation bounds bounds Fault.Underflow (fun p => decide (p ∉ Primitive.onWholeStack))
      (fun _ : Unit => Over below under) id where
  passes := rfl
  full h hfull := .inr (by rwa [h.read (·.depth) fun _ _ => rfl])
  room h hroom := by rwa [h.read (·.depth) fun _ _ => rfl]
  deeper h := h.change (fun m => { m with depth := m.depth + 1 }) (fun _ _ => rfl) fun _ => rfl
  back h := h.change (fun m => { m with depth := m.depth - 1 }) (fun _ _ => rfl) fun _ => rfl
  note entry entry' h := h.note entry entry'
  push n := Action.Local.push n
  pop := Action.Local.pop
  popValues n := Action.Local.popValues n
  primitive hallowed := Primitive.run_local (of_decide_eq_true hallowed) below under
  pushIndex index h := by
    rw [h.returns]
    exact h.withReturns _
  popIndex h := Action.Local.popReturn _ _ h

/-- Where tokens do not come to an underflow, they run in the same way over other cells, and leave
them in their place. -/
theorem execution_is_local (bounds : Bounds) {tokens : List Token}
    (hcalls : Token.callsOnlyAll (fun p => decide (p ∉ Primitive.onWholeStack)) tokens = true)
    {m : Machine} (hroom : ∀ fault m', execute bounds tokens m = some (.error fault m') →
      ¬ fault.Underflow) (below under : List Cell) :
    Option.Rel (Outcome.Agree fun m₁ m₁' => SameState (m₁.over below under) m₁')
      (execute bounds tokens m) (execute bounds tokens (m.over below under)) := by
  have hover : Over below under m (m.over below under) := ⟨m.log, rfl, rfl⟩
  have hlaw := over_simulation bounds below under
  have hruns : Option.Rel (Outcome.Agree (Over below under)) (execute bounds tokens m)
      (execute bounds tokens (m.over below under)) :=
    (hlaw.nested (hlaw.runTokens () tokens hcalls) m _ hover).exact hroom
  generalize execute bounds tokens m = o at hruns ⊢
  generalize execute bounds tokens (m.over below under) = o' at hruns ⊢
  cases hruns with
  | none => exact .none
  | some hagree => exact .some (hagree.mono Over.sameState)

/-- A loop whose third pass divides by zero: `3 0 DO 12 2 I - / . LOOP`. -/
def dividingLoop : List Token :=
  [.number 3, .number 0, .counted
    [.number 12, .number 2, .call ⟨0, "I", .primitive .index⟩, .call ⟨1, "-", .primitive .sub⟩,
      .call ⟨2, "/", .primitive .div⟩, .call ⟨3, ".", .primitive .print⟩] (.fixed 1)]

/-- The index and the operands are on the stacks when the loop fails. -/
theorem dividingLoop_is_local :
    ∃ m₁ m₁', execute { passes := 3 } dividingLoop { stack := [.value 5], returns := [.value 7] } =
        some (.error .divisionByZero m₁) ∧
      execute { passes := 3 } dividingLoop
        (Machine.over { stack := [.value 5], returns := [.value 7] } [.value 8] [.value 9]) =
          some (.error .divisionByZero m₁') ∧
      SameState (m₁.over [.value 8] [.value 9]) m₁' ∧ m₁.values = [5, 12, 0] ∧
      m₁.output = "6 12 " := by
  have hrun : (execute { passes := 3 } dividingLoop
      { stack := [.value 5], returns := [.value 7] }).map
        (fun o => (o.fault?, o.machine.values, o.machine.output)) =
          some (some .divisionByZero, [5, 12, 0], "6 12 ") := by
    decide +kernel
  obtain ⟨o, ho, hend⟩ := Option.map_eq_some_iff.mp hrun
  obtain ⟨hfault, hleft⟩ := Prod.mk.inj hend
  obtain ⟨hvalues, houtput⟩ := Prod.mk.inj hleft
  cases o with
  | ok flow m₁ => exact absurd hfault nofun
  | error fault m₁ =>
    obtain rfl : fault = .divisionByZero := Option.some.inj hfault
    have hcalls : Token.callsOnlyAll (fun p => decide (p ∉ Primitive.onWholeStack)) dividingLoop =
        true := by
      decide +kernel
    have hroom : ∀ fault m', execute { passes := 3 } dividingLoop
        { stack := [.value 5], returns := [.value 7] } = some (.error fault m') →
          ¬ fault.Underflow := by
      intro fault m' h
      rw [ho] at h
      cases h
      exact nofun
    have hlocal := execution_is_local _ hcalls hroom [.value 8] [.value 9]
    rw [ho] at hlocal
    generalize execute { passes := 3 } dividingLoop
      (Machine.over { stack := [.value 5], returns := [.value 7] } [.value 8] [.value 9]) = o'
        at hlocal ⊢
    cases hlocal with
    | some hagree =>
      cases hagree with
      | error _ hsame => exact ⟨m₁, _, ho, rfl, hsame, hvalues, houtput⟩

end ForthMachine
