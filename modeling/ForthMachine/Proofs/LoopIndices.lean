import ForthMachine.Proofs.Records
import ForthMachine.Proofs.Unrolling

/-!
# The indices on the return stack

A counted loop keeps its index on the return stack for the length of a pass, whichever way the pass
ends. So a run that moves no cells between the stacks finds the indices of the loops under way on
top of what was there, the innermost first, and that is where `I` and `J` look for them. It leaves
the return stack as it found it, or, if it fails, with indices that nothing takes away any more.
-/

set_option autoImplicit false

namespace ForthMachine

open Machine

def Primitive.keepsReturns (p : Primitive) : Bool :=
  p ≠ .toReturn ∧ p ≠ .fromReturn

theorem Primitive.reads_of_keepsReturns {p : Primitive} (h : p.keepsReturns = true)
    (haccess : p.access? = some .returns) : p = .copyReturn ∨ p = .index ∨ p = .outerIndex := by
  cases p <;> simp [keepsReturns, access?] at h haccess ⊢

/-- The return stack of the first machine is known, and nothing looks at it. -/
theorem unread_lockstep (cells : List Cell) :
    Lockstep (· ≠ .returns) { passes := 0, nesting := none } { passes := 0, nesting := none }
      fun m m' => m.returns = cells ∧ m'.stack = m.stack ∧
        m'.dictionary.names = m.dictionary.names where
  passes := rfl
  room _ hroom := hroom
  stack h := h.2.1
  returns hmay := absurd rfl hmay
  names _ _ _ h := h.2.2
  withStack _ h := ⟨h.1, rfl, h.2.2⟩
  withReturns hmay := absurd rfl hmay
  print _ h := h
  exit h := h
  level _ h := h
  note _ _ h := h
  deeper h := h
  back h := h

theorem returns_peekReturn (n : Nat) (m : Machine) :
    (Outcome.machine (peekReturn n m)).returns = m.returns := by
  unfold peekReturn
  split
  · rfl
  · rw [Outcome.machine_leaving]

theorem returns_pushReturned (n : Nat) (m : Machine) :
    (Outcome.machine (pushReturned n m)).returns = m.returns := by
  have hpeek := returns_peekReturn n m
  rw [pushReturned_eq]
  generalize peekReturn n m = result at hpeek ⊢
  cases result with
  | ok value m' => exact hpeek
  | error fault m' => exact hpeek

theorem Primitive.returns_run {p : Primitive} (h : p.keepsReturns = true) (m : Machine) :
    (Outcome.machine (p.run m)).returns = m.returns := by
  by_cases haccess : p.access? = some .returns
  · rcases p.reads_of_keepsReturns h haccess with rfl | rfl | rfl
    · exact returns_pushReturned 0 m
    · exact returns_pushReturned 0 m
    · exact returns_pushReturned 1 m
  · -- The run is compared with itself, and no access can tell what is on the return stack.
    have hmay {access : Access} (haccess' : p.access? = some access) : access ≠ .returns := by
      rintro rfl
      exact haccess haccess'
    have hrun := (unread_lockstep m.returns).primitive hmay m m ⟨rfl, rfl, rfl⟩
    generalize p.run m = o at hrun ⊢
    cases hrun with
    | ok flow h => exact h.1
    | error fault h => exact h.1

/-- The token moves no cells, and is taken up with the indices of the loops around it on top of
these cells. -/
structure Event.Over (cells : List Cell) (event : Event) : Prop where
  keeps : event.token.callsOnly Primitive.keepsReturns = true
  returns : event.machine.returns = event.indices.map .value ++ cells

theorem Event.Over.inside {cells : List Cell} {event : Event} {index : Int64}
    (h : event.Over (.value index :: cells)) : (event.inside (.counted index)).Over cells where
  keeps := h.keeps
  returns := by
    rw [Event.indices_inside_counted, List.map_append, List.append_assoc]
    exact h.returns

theorem Event.Over.inside_indefinite {cells : List Cell} {event : Event} (h : event.Over cells) :
    (event.inside .indefinite).Over cells where
  keeps := h.keeps
  returns := by
    rw [Event.indices_inside_indefinite]
    exact h.returns

/-- Events over these cells, and an end that has them back. With a fault there may be indices left
on top of them. -/
structure Tracks (cells : List Cell) (events : List Event) (o : Option (Outcome Flow)) : Prop where
  points : ∀ event ∈ events, event.Over cells
  ends : ∀ {flow m}, o = some (.ok flow m) → m.returns = cells
  fails : ∀ {fault m}, o = some (.error fault m) →
    ∃ indices : List Int64, m.returns = indices.map .value ++ cells

namespace Tracks

variable {cells : List Cell} {events first : List Event} {o : Option (Outcome Flow)}

theorem givenUp : Tracks cells [] none :=
  ⟨nofun, nofun, nofun⟩

theorem ok {m : Machine} (flow : Flow) (h : m.returns = cells) :
    Tracks cells [] (some (.ok flow m)) where
  points := nofun
  ends := by
    rintro _ _ ⟨⟩
    exact h
  fails := nofun

theorem error {m : Machine} (fault : Fault) (h : m.returns = cells) :
    Tracks cells [] (some (.error fault m)) where
  points := nofun
  ends := nofun
  fails := by
    rintro _ _ ⟨⟩
    exact ⟨[], h⟩

theorem of_machine {o : Outcome Flow} (h : o.machine.returns = cells) :
    Tracks cells [] (some o) := by
  cases o with
  | ok flow m => exact ok flow h
  | error fault m => exact error fault h

theorem cons {event : Event} (hevent : event.Over cells) (h : Tracks cells events o) :
    Tracks cells (event :: events) o :=
  ⟨List.forall_mem_cons.mpr ⟨hevent, h.points⟩, h.ends, h.fails⟩

theorem stopped (h : Tracks cells events o) : Tracks cells [] o :=
  ⟨nofun, h.ends, h.fails⟩

theorem append {rest : List Event} {o' : Option (Outcome Flow)} (hfirst : Tracks cells first o)
    (hrest : Tracks cells rest o') : Tracks cells (first ++ rest) o' :=
  ⟨List.forall_mem_append.mpr ⟨hfirst.points, hrest.points⟩, hrest.ends, hrest.fails⟩

section Sequence

variable {events : Trace} {next : Run}

theorem andThen : Tracks cells first o → (∀ m, Tracks m.returns (events m) (next m)) →
    Tracks cells (first ++ match o with | some (.ok .next m) => events m | _ => [])
      (match o with | some (.ok .next m) => next m | stopped => stopped) := by
  intro hfirst hnext
  rcases o with - | ⟨flow, m⟩ | ⟨fault, m⟩
  · exact hfirst.append givenUp
  · cases flow with
    | next => exact hfirst.append (hfirst.ends rfl ▸ hnext m)
    | leave | quit => exact hfirst.append hfirst.stopped
  · exact hfirst.append hfirst.stopped

theorem andThenInLoop : Tracks cells first o → (∀ m, Tracks m.returns (events m) (next m)) →
    Tracks cells (first ++ match o with | some (.ok .next m) => events m | _ => [])
      (match o with
        | some (.ok .leave m) => some (.ok .next m)
        | some (.ok .next m) => next m
        | stopped => stopped) := by
  intro hfirst hnext
  rcases o with - | ⟨flow, m⟩ | ⟨fault, m⟩
  · exact hfirst.append givenUp
  · cases flow with
    | next => exact hfirst.append (hfirst.ends rfl ▸ hnext m)
    | leave => exact hfirst.append (ok Flow.next (hfirst.ends rfl))
    | quit => exact hfirst.append hfirst.stopped
  · exact hfirst.append hfirst.stopped

end Sequence

/-- The index is on top again when the pass ends, and a fault leaves it where it is. -/
theorem withIndex {index : Int64} {run : Run} {m : Machine}
    (h : Tracks (.value index :: m.returns) events
      (run { m with returns := .value index :: m.returns })) :
    Tracks m.returns (events.map (.inside (.counted index)))
      (ForthMachine.withIndex index run m) := by
  have hover : ∀ event ∈ events.map (Event.inside (.counted index)), event.Over m.returns :=
    List.forall_mem_map.mpr fun event hevent => (h.points event hevent).inside
  unfold ForthMachine.withIndex
  generalize run { m with returns := .value index :: m.returns } = o at h ⊢
  rcases o with - | ⟨flow, m₁⟩ | ⟨fault, m₁⟩
  · exact ⟨hover, nofun, nofun⟩
  · have hpop := popReturn_of_value (h.ends rfl)
    dsimp only
    rw [hpop]
    exact ⟨hover, (ok flow rfl).ends, nofun⟩
  · obtain ⟨indices, hreturns⟩ := h.fails rfl
    refine ⟨hover, nofun, ?_⟩
    rintro _ _ ⟨⟩
    exact ⟨indices ++ [index], by simp [hreturns]⟩

theorem inside_indefinite (h : Tracks cells events o) :
    Tracks cells (events.map (.inside .indefinite)) o :=
  ⟨List.forall_mem_map.mpr fun event hevent => (h.points event hevent).inside_indefinite,
    h.ends, h.fails⟩

theorem setDepth (h : Tracks cells events o) (depth : Nat → Nat) :
    Tracks cells events (o.map (Outcome.adjust fun m => { m with depth := depth m.depth })) := by
  rcases o with - | ⟨flow, m⟩ | ⟨fault, m⟩
  · exact h
  · refine ⟨h.points, ?_, nofun⟩
    rintro _ _ ⟨⟩
    exact (h.ends rfl :)
  · refine ⟨h.points, nofun, ?_⟩
    rintro _ _ ⟨⟩
    exact (h.fails rfl :)

end Tracks

section Runs

variable (bounds : Bounds)

theorem tracks_traceLaw : TraceLaw bounds Primitive.keepsReturns Undisturbed
    fun _ m events o => Tracks m.returns events o where
  step := undisturbed_stepLaw
  along _ hreturns h := hreturns ▸ h
  givenUp _ := .givenUp
  ok _ _ := .ok Flow.next rfl
  error _ fault _ := .error fault rfl
  taken hcalls _ _ h := h.cons ⟨hcalls, rfl⟩
  leave _ := .cons ⟨rfl, rfl⟩ (.ok Flow.leave rfl)
  primitive _ _ {p} _ _ hcalls := .cons ⟨hcalls, rfl⟩ (.of_machine (p.returns_run hcalls _))
  loop hcalls _ htrace h := htrace ▸ .cons ⟨hcalls, rfl⟩ h
  nested h := h.setDepth (· - 1)
  counted _ h := h.withIndex
  indefinite h := h.inside_indefinite
  andThen h _ := h.andThen
  andThenInLoop h _ := h.andThenInLoop

theorem execute_tracks {tokens : List Token}
    (h : Token.callsOnlyAll Primitive.keepsReturns tokens = true) (m : Machine) :
    Tracks m.returns (traceExecute bounds tokens m) (execute bounds tokens m) :=
  (tracks_traceLaw bounds).execute h m

end Runs

/-- The token puts a loop index on the data stack, and does nothing else to the stacks. -/
def Event.Pushes (bounds : Bounds) (event : Event) (index : Int64) : Prop :=
  ∃ m, runToken bounds event.token event.machine = some (.ok .next m) ∧
    m.stack = .value index :: event.machine.stack ∧ m.returns = event.machine.returns

theorem Event.Over.getElem? {cells : List Cell} {event : Event} (h : event.Over cells) {n : Nat}
    {index : Int64} (hindex : event.indices[n]? = some index) :
    event.machine.returns[n]? = some (.value index) := by
  obtain ⟨hn, -⟩ := List.getElem?_eq_some_iff.mp hindex
  rw [h.returns, List.getElem?_append_left (by rwa [List.length_map]), List.getElem?_map, hindex]
  rfl

theorem pushes_index (bounds : Bounds) {event : Event}
    (htoken : event.token.primitive? = some .index) {index : Int64}
    (hcell : event.machine.returns[0]? = some (.value index)) : event.Pushes bounds index := by
  obtain ⟨serial, name, htoken⟩ := Token.eq_call_of_primitive? htoken
  unfold Event.Pushes
  rw [htoken, runToken_index]
  exact ⟨_, congrArg some (pushReturned_of_value hcell), rfl, rfl⟩

theorem pushes_outerIndex (bounds : Bounds) {event : Event}
    (htoken : event.token.primitive? = some .outerIndex) {index : Int64}
    (hcell : event.machine.returns[1]? = some (.value index)) : event.Pushes bounds index := by
  obtain ⟨serial, name, htoken⟩ := Token.eq_call_of_primitive? htoken
  unfold Event.Pushes
  rw [htoken, runToken_outerIndex]
  exact ⟨_, congrArg some (pushReturned_of_value hcell), rfl, rfl⟩

/-- A run that calls neither `>R` nor `R>` leaves the return stack as it was, or with indices of
loops on top if it fails. Whenever it takes up a token, the indices of the loops under way are on
top, the innermost first, and the token leaves them there. So `I` and `J` find them. The tokens are
those of a record that comes to the same outcome as the run. -/
theorem return_stack_holds_indices (bounds : Bounds) {tokens : List Token}
    (hcalls : Token.callsOnlyAll Primitive.keepsReturns tokens = true) (m : Machine) :
    (recordExecute bounds tokens m).outcome = execute bounds tokens m ∧
    (∀ flow m', execute bounds tokens m = some (.ok flow m') → m'.returns = m.returns) ∧
    (∀ fault m', execute bounds tokens m = some (.error fault m') →
      ∃ indices : List Int64, m'.returns = indices.map .value ++ m.returns) ∧
    ∀ event ∈ (recordExecute bounds tokens m).events,
      event.machine.returns = event.indices.map .value ++ m.returns ∧
      (∀ flow next, runToken bounds event.token event.machine = some (.ok flow next) →
        next.returns = event.machine.returns) ∧
      (event.token.primitive? = some .index → ∀ i outer, event.indices = i :: outer →
        event.Pushes bounds i) ∧
      (event.token.primitive? = some .outerIndex → ∀ i j outer, event.indices = i :: j :: outer →
        event.Pushes bounds j) := by
  have htracks := execute_tracks bounds hcalls m
  obtain ⟨houtcome, hevents⟩ := recordExecute_of bounds tokens m
  rw [hevents]
  refine ⟨houtcome, fun flow m' => htracks.ends, fun fault m' => htracks.fails,
    fun event hevent => ?_⟩
  have hover := htracks.points event hevent
  have htoken := (tracks_traceLaw bounds).runToken event.token hover.keeps event.machine
  refine ⟨hover.returns, fun flow next => htoken.ends, ?_, ?_⟩
  · intro hcall i outer hindices
    have hinnermost : event.indices[0]? = some i := by rw [hindices]; rfl
    exact pushes_index bounds hcall (hover.getElem? hinnermost)
  · intro hcall i j outer hindices
    have hnext : event.indices[1]? = some j := by rw [hindices]; rfl
    exact pushes_outerIndex bounds hcall (hover.getElem? hnext)

def Outcome.flow? : Outcome Flow → Option Flow
  | .ok flow _ => some flow
  | .error _ _ => none

theorem Outcome.eq_ok_of_flow? {o : Outcome Flow} {flow : Flow} (h : o.flow? = some flow) :
    o = .ok flow o.machine := by
  cases o with
  | ok flow' m =>
    cases h
    rfl
  | error fault m => cases h

/-- Inside two loops a definition reads the index of the outer one, and the inner one is left. -/
def outerIndexLoops : List Token :=
  [.counted [.number 9, .number 0,
    .counted [.call ⟨2, "OUTER", .definition [.call ⟨1, "J", .primitive .outerIndex⟩]⟩, .leave]
      (.fixed 1)] (.fixed 1)]

theorem outerIndexLoops_restore_returns :
    ∃ m, execute { passes := 1 } outerIndexLoops
        { stack := [.value 6, .value 7], returns := [.value 8] } = some (.ok .next m) ∧
      m.values = [6] ∧ m.returns = [.value 8] ∧
      ∃ event ∈ (recordExecute { passes := 1 } outerIndexLoops
          { stack := [.value 6, .value 7], returns := [.value 8] }).events,
        event.machine.returns = [.value 0, .value 6, .value 8] ∧ event.Pushes { passes := 1 } 6 := by
  have hcalls : Token.callsOnlyAll Primitive.keepsReturns outerIndexLoops = true := by decide
  obtain ⟨-, hends, -, hpoints⟩ := return_stack_holds_indices { passes := 1 } hcalls
    { stack := [.value 6, .value 7], returns := [.value 8] }
  have hrun : (execute { passes := 1 } outerIndexLoops
      { stack := [.value 6, .value 7], returns := [.value 8] }).map
        (fun o => (Outcome.flow? o, o.machine.values)) = some (some .next, [6]) := by
    decide +kernel
  have hevent : ∃ event ∈ (recordExecute { passes := 1 } outerIndexLoops
      { stack := [.value 6, .value 7], returns := [.value 8] }).events,
        event.token.primitive? = some .outerIndex ∧ event.indices = [0, 6] := by
    decide +kernel
  obtain ⟨o, ho, hended⟩ := Option.map_eq_some_iff.mp hrun
  obtain ⟨hflow, hvalues⟩ := Prod.mk.inj hended
  rw [Outcome.eq_ok_of_flow? hflow] at ho
  obtain ⟨event, hevent, hcall, hindices⟩ := hevent
  obtain ⟨hreturns, -, -, houter⟩ := hpoints event hevent
  rw [hindices] at hreturns
  exact ⟨o.machine, ho, hvalues, hends _ _ ho, event, hevent, hreturns,
    houter hcall 0 6 [] hindices⟩

end ForthMachine
