import ForthMachine.Proofs.Dispatch
import ForthMachine.Proofs.Unrolling

/-!
# How a loop is left

`LEAVE` ends the nearest loop that is under way where it is executed. Branches, and the definitions
that are called on the way, end with it, and no token is taken up any more before that loop has
ended. Where there is no such loop it ends the whole run, and the line fails.
-/

set_option autoImplicit false

namespace ForthMachine

open Machine

mutual

/-- The token can end with the flow `leave`. Loops are not looked into, since that flow ends them,
whatever they call. -/
def Token.exposesLeave : Token → Bool
  | .number _ => false
  | .call word => Word.exposesLeave word
  | .unresolved _ => false
  | .counted _ _ => false
  | .branch ifTrue ifFalse => Token.exposesLeaveAny ifTrue || Token.exposesLeaveAny ifFalse
  | .indefinite _ _ => false
  | .leave => true
termination_by structural token => token

def Word.exposesLeave : Word → Bool
  | ⟨_, _, behavior⟩ => Behavior.exposesLeave behavior
termination_by structural word => word

def Behavior.exposesLeave : Behavior → Bool
  | .definition body => Token.exposesLeaveAny body
  | .primitive _ => false
  | .structural _ => false
  | .readAhead _ => false
  | .comment _ => false
termination_by structural behavior => behavior

def Token.exposesLeaveAny : List Token → Bool
  | [] => false
  | token :: tokens => Token.exposesLeave token || Token.exposesLeaveAny tokens
termination_by structural tokens => tokens

end

theorem Token.exposesLeave_of_isLoop {token : Token} (h : token.isLoop = true) :
    token.exposesLeave = false := by
  cases token with
  | counted body step => rfl
  | indefinite condition body => rfl
  | number _ | call _ | unresolved _ | branch _ _ | leave => cases h

def Run.NeverLeaves (run : Run) : Prop :=
  ∀ ⦃m m' : Machine⦄, run m ≠ some (.ok .leave m')

namespace Run.NeverLeaves

theorem nested (limit : Option Nat) {run : Run} (h : Run.NeverLeaves run) :
    Run.NeverLeaves (ForthMachine.nested limit run) := by
  intro m m' hleave
  obtain ⟨-, m₁, hinner, -⟩ := nested_eq_ok hleave
  exact h hinner

theorem countedLoop (pass : Run) (step : Step) (limit : Int64) (passes : Nat) (index : Int64) :
    Run.NeverLeaves (ForthMachine.countedLoop pass step limit passes index) := by
  induction passes generalizing index with
  | zero =>
    intro m m' hleave
    simp only [ForthMachine.countedLoop] at hleave
    split at hleave <;> cases hleave
  | succ passes ih =>
    intro m m' hleave
    simp only [ForthMachine.countedLoop] at hleave
    split at hleave
    · split at hleave
      · cases hleave
      · split at hleave
        · cases hleave
        · split at hleave
          · cases hleave
          · exact ih _ hleave
      · rename_i hcaught _
        exact hcaught m' hleave
    · cases hleave

theorem indefiniteLoop (condition body : Run) (passes : Nat) :
    Run.NeverLeaves (ForthMachine.indefiniteLoop condition body passes) := by
  induction passes with
  | zero =>
    intro m m' hleave
    cases hleave
  | succ passes ih =>
    intro m m' hleave
    simp only [ForthMachine.indefiniteLoop] at hleave
    split at hleave
    · cases hleave
    · split at hleave
      · cases hleave
      · split at hleave
        · cases hleave
        · split at hleave
          · cases hleave
          · exact ih hleave
          · rename_i hcaught _
            exact hcaught m' hleave
    · rename_i hcaught _
      exact hcaught m' hleave

end Run.NeverLeaves

section NeverLeaves

variable (bounds : Bounds)

mutual

theorem runToken_neverLeaves : ∀ token : Token, token.exposesLeave = false →
    Run.NeverLeaves (runToken bounds token)
  | .number _, _, _, _, hleave => by cases hleave
  | .call word, h, _, _, hleave => callWord_neverLeaves word h hleave
  | .unresolved _, _, _, _, hleave => by cases hleave
  | .counted _ _, _, _, _, hleave => by
    simp only [runToken] at hleave
    split at hleave
    · cases hleave
    · exact Run.NeverLeaves.countedLoop _ _ _ _ _ hleave
  | .branch ifTrue ifFalse, h, _, _, hleave => by
    obtain ⟨htrue, hfalse⟩ := Bool.or_eq_false_iff.mp h
    simp only [runToken] at hleave
    split at hleave
    · cases hleave
    · split at hleave
      · exact (runTokens_neverLeaves ifTrue htrue).nested _ hleave
      · exact (runTokens_neverLeaves ifFalse hfalse).nested _ hleave
  | .indefinite _ _, _, _, _, hleave => Run.NeverLeaves.indefiniteLoop _ _ _ hleave
  | .leave, h, _, _, _ => by cases h
termination_by structural token => token

theorem callWord_neverLeaves : ∀ word : Word, word.exposesLeave = false →
    Run.NeverLeaves (callWord bounds word)
  | ⟨_, name, behavior⟩, h, _, _, hleave => runBehavior_neverLeaves name behavior h hleave
termination_by structural word => word

theorem runBehavior_neverLeaves (name : String) : ∀ behavior : Behavior,
    behavior.exposesLeave = false → Run.NeverLeaves (runBehavior bounds name behavior)
  | .primitive p, _, _, _, hleave => by
    obtain ⟨-, hflow⟩ := Primitive.run_eq_ok (Option.some.inj hleave)
    rcases p.flow_eq with hnext | ⟨hquit, -⟩
    · exact absurd (hflow.trans hnext) nofun
    · exact absurd (hflow.trans hquit) nofun
  | .definition body, h, _, _, hleave => (runTokens_neverLeaves body h).nested _ hleave
  | .structural _, _, _, _, hleave => by cases hleave
  | .readAhead _, _, _, _, hleave => by cases hleave
  | .comment _, _, _, _, hleave => by cases hleave
termination_by structural behavior => behavior

theorem runTokens_neverLeaves : ∀ tokens : List Token, Token.exposesLeaveAny tokens = false →
    Run.NeverLeaves (runTokens bounds tokens)
  | [], _, _, _, hleave => by cases hleave
  | token :: tokens, h, _, _, hleave => by
    obtain ⟨htoken, htokens⟩ := Bool.or_eq_false_iff.mp h
    simp only [runTokens] at hleave
    split at hleave
    · exact runTokens_neverLeaves tokens htokens hleave
    · exact runToken_neverLeaves token htoken hleave
termination_by structural tokens => tokens

end

end NeverLeaves

/-- A pass of the loop ends with the flow. A counted loop takes its index off the return stack, or
whatever is there in its place. -/
def Loop.close : Loop → Flow → Machine → Outcome Flow
  | .counted _, flow, m =>
    match popReturn m with
    | .ok _ m => .ok flow m
    | .error fault m => .error fault m
  | .indefinite, flow, m => .ok flow m

theorem Loop.depth_close (loop : Loop) (flow : Flow) (m : Machine) :
    (loop.close flow m).machine.depth = m.depth := by
  cases loop with
  | indefinite => rfl
  | counted index =>
    have hpop := (undisturbed_stepLaw.popReturn m).depth
    simp only [close]
    generalize popReturn m = result at hpop ⊢
    cases result with
    | ok n m' => exact hpop
    | error fault m' => exact hpop

def Event.within (outer : List Loop) (event : Event) : Event :=
  { event with loops := event.loops ++ outer }

theorem Event.within_append (outer : List Loop) (loop : Loop) :
    Event.within (outer ++ [loop]) = Event.inside loop ∘ Event.within outer := by
  funext event
  simp [Event.within, Event.inside]

theorem Event.within_nil : Event.within [] = id := by
  funext event
  simp [Event.within]

/-- The token of the event is the nearest loop around a token that is taken up behind `before`. The
second one is the last that the loop takes up, and then the loop ends. -/
structure Event.Catches (bounds : Bounds) (catching : Event) (before : List Event) (left : Event) :
    Prop where
  isLoop : catching.token.isLoop = true
  taken : ∃ front inner, before = front ++ catching :: inner ∧
    (traceToken bounds catching.token catching.machine).map (.within catching.loops) =
      catching :: inner ++ [left]
  ends : ∃ loop, left.loops = loop :: catching.loops ∧
    runToken bounds catching.token catching.machine =
      some (loop.close .next { left.machine with depth := catching.machine.depth })

namespace Event.Catches

variable {bounds : Bounds} {before : List Event} {left catching : Event}

theorem behind (h : catching.Catches bounds before left) (first : List Event) :
    catching.Catches bounds (first ++ before) left where
  isLoop := h.isLoop
  taken := by
    obtain ⟨front, inner, hbefore, htrace⟩ := h.taken
    exact ⟨first ++ front, inner, by rw [hbefore, List.append_assoc], htrace⟩
  ends := h.ends

theorem inside (h : catching.Catches bounds before left) (loop : Loop) :
    (catching.inside loop).Catches bounds (before.map (.inside loop)) (left.inside loop) where
  isLoop := h.isLoop
  taken := by
    obtain ⟨front, inner, hbefore, htrace⟩ := h.taken
    refine ⟨front.map (.inside loop), inner.map (.inside loop), ?_, ?_⟩
    · rw [hbefore, List.map_append, List.map_cons]
    · change (traceToken bounds catching.token catching.machine).map
        (Event.within (catching.loops ++ [loop])) = _
      rw [Event.within_append, ← List.map_map, htrace]
      simp
  ends := by
    obtain ⟨nearest, hloops, hrun⟩ := h.ends
    exact ⟨nearest, by simp [Event.inside, hloops], hrun⟩

end Event.Catches

/-- What comes of the flow `leave` at the event: it ends the nearest loop with the given flow, or
the run if there is no loop around the token. -/
def Event.ends (flow : Flow) (depth : Nat) (event : Event) : Outcome Flow :=
  match event.loops with
  | [] => .ok flow { event.machine with depth }
  | loop :: _ => loop.close flow { event.machine with depth }

/-- What the first outcome is when a loop has caught the flow `leave`. -/
inductive Caught : Outcome Flow → Outcome Flow → Prop where
  | leave (m : Machine) : Caught (.ok .leave m) (.ok .next m)
  | error (fault : Fault) (m : Machine) : Caught (.error fault m) (.error fault m)

theorem Loop.close_caught (loop : Loop) (m : Machine) :
    Caught (loop.close .leave m) (loop.close .next m) := by
  cases loop with
  | indefinite => exact .leave m
  | counted index =>
    simp only [close]
    cases popReturn m with
    | ok n m' => exact .leave m'
    | error fault m' => exact .error fault m'

theorem Event.ends_caught {event : Event} (h : event.loops.length = 1) (depth : Nat) :
    Caught (event.ends .leave depth) (event.ends .next depth) := by
  obtain ⟨loop, hloop⟩ := List.length_eq_one_iff.mp h
  simp only [ends, hloop]
  exact loop.close_caught _

/-- Where the flow `leave` goes that comes from a token inside so many loops at least. Either it
gets out of these, is the last of the events and decides the outcome, or there is a loop inside
that catches it. -/
inductive Leaves (bounds : Bounds) (level : Nat) (flow : Flow) (o : Option (Outcome Flow))
    (before : List Event) (event : Event) (after : List Event) : Prop where
  | out (depth : Nat) (loops : event.loops.length = level) (last : after = [])
      (ends : o = some (event.ends flow depth)) : Leaves bounds level flow o before event after
  | caught {catching : Event} (loops : level < event.loops.length)
      (catches : catching.Catches bounds before event) :
      Leaves bounds level flow o before event after

theorem Leaves.behind {bounds : Bounds} {level : Nat} {flow : Flow} {o : Option (Outcome Flow)}
    {before after : List Event} {event : Event} (h : Leaves bounds level flow o before event after)
    (first : List Event) : Leaves bounds level flow o (first ++ before) event after := by
  cases h with
  | out depth loops last ends => exact .out depth loops last ends
  | caught loops catches => exact .caught loops (catches.behind first)

def LeaveEnds (bounds : Bounds) (level : Nat) (flow : Flow) (events : List Event)
    (o : Option (Outcome Flow)) : Prop :=
  ∀ ⦃before after : List Event⦄ ⦃event : Event⦄, events = before ++ event :: after →
    event.token = .leave → Leaves bounds level flow o before event after

namespace LeaveEnds

variable {bounds : Bounds} {level : Nat} {flow flow' : Flow} {events first rest : List Event}
  {o o' : Option (Outcome Flow)}

theorem nil (o : Option (Outcome Flow)) : LeaveEnds bounds level flow [] o := by
  intro before after event hsplit
  simp at hsplit

theorem cons {event : Event} (h : LeaveEnds bounds level flow events o)
    (hevent : event.token ≠ .leave) : LeaveEnds bounds level flow (event :: events) o := by
  intro before after leaving hsplit hleave
  cases before with
  | nil =>
    obtain ⟨rfl, -⟩ := List.cons.inj hsplit
    exact absurd hleave hevent
  | cons e before =>
    obtain ⟨rfl, hrest⟩ := List.cons.inj hsplit
    exact (h hrest hleave).behind [event]

/-- One run behind another, which is begun only if the flow `leave` does not get out of the first
one. -/
theorem append (hfirst : LeaveEnds bounds level flow first o)
    (hstop : ∀ {event : Event} {depth : Nat}, event.loops.length = level →
      o = some (event.ends flow depth) → rest = [] ∧ o' = some (event.ends flow' depth))
    (hrest : LeaveEnds bounds level flow' rest o') :
    LeaveEnds bounds level flow' (first ++ rest) o' := by
  intro before after event hsplit hleave
  rcases List.append_eq_append_iff.mp hsplit with ⟨mid, rfl, hmid⟩ | ⟨mid, hmid, hbehind⟩
  · exact (hrest hmid hleave).behind first
  · cases mid with
    | nil =>
      -- The event is the first one of the second run.
      rw [List.append_nil] at hmid
      have hevent : rest = [] ++ event :: after := hbehind.symm
      have hbefore := (hrest hevent hleave).behind first
      rwa [List.append_nil, hmid] at hbefore
    | cons e mid =>
      obtain ⟨rfl, rfl⟩ := List.cons.inj hbehind
      cases hfirst hmid hleave with
      | out depth loops last ends =>
        obtain ⟨rfl, hended⟩ := hstop loops ends
        subst last
        exact .out depth loops rfl hended
      | caught loops catches => exact .caught loops catches

section Sequence

variable {events : Trace} {next : Run}

theorem andThen : LeaveEnds bounds 0 .leave first o →
    (∀ m, LeaveEnds bounds 0 .leave (events m) (next m)) →
    LeaveEnds bounds 0 .leave (first ++ match o with | some (.ok .next m) => events m | _ => [])
      (match o with | some (.ok .next m) => next m | stopped => stopped) := by
  intro hfirst hnext
  rcases o with - | ⟨flow, m⟩ | ⟨fault, m⟩
  · exact hfirst.append (fun _ ho => ⟨rfl, ho⟩) (.nil _)
  · cases flow with
    | next =>
      refine hfirst.append (fun hloops ho => ?_) (hnext m)
      rw [List.length_eq_zero_iff] at hloops
      simp [Event.ends, hloops] at ho
    | leave | quit => exact hfirst.append (fun _ ho => ⟨rfl, ho⟩) (.nil _)
  · exact hfirst.append (fun _ ho => ⟨rfl, ho⟩) (.nil _)

theorem andThenInLoop : LeaveEnds bounds 1 .leave first o →
    (∀ m, LeaveEnds bounds 1 .next (events m) (next m)) →
    LeaveEnds bounds 1 .next (first ++ match o with | some (.ok .next m) => events m | _ => [])
      (match o with
        | some (.ok .leave m) => some (.ok .next m)
        | some (.ok .next m) => next m
        | stopped => stopped) := by
  intro hfirst hnext
  have hcaught {event : Event} {depth : Nat} {ended : Outcome Flow}
      (hloops : event.loops.length = 1) (ho : some ended = some (event.ends .leave depth)) :
      Caught ended (event.ends .next depth) :=
    Option.some.inj ho ▸ Event.ends_caught hloops depth
  rcases o with - | ⟨flow, m⟩ | ⟨fault, m⟩
  · exact hfirst.append (fun _ ho => by cases ho) (.nil _)
  · cases flow with
    | next => exact hfirst.append (fun hloops ho => nomatch hcaught hloops ho) (hnext m)
    | leave =>
      refine hfirst.append (fun {event depth} hloops ho => ⟨rfl, ?_⟩) (.nil _)
      have h := hcaught hloops ho
      generalize event.ends .next depth = ended at h ⊢
      cases h
      rfl
    | quit => exact hfirst.append (fun hloops ho => nomatch hcaught hloops ho) (.nil _)
  · refine hfirst.append (fun {event depth} hloops ho => ⟨rfl, ?_⟩) (.nil _)
    have h := hcaught hloops ho
    generalize event.ends .next depth = ended at h ⊢
    cases h
    rfl

end Sequence

/-- What gets out of a pass gets to the loop around it. -/
theorem inside {loop : Loop} (h : LeaveEnds bounds 0 .leave events o)
    (hclose : ∀ {m : Machine}, o = some (.ok .leave m) → o' = some (loop.close .leave m)) :
    LeaveEnds bounds 1 .leave (events.map (.inside loop)) o' := by
  intro before after event hsplit hleave
  obtain ⟨front, back, rfl, rfl, hback⟩ := List.map_eq_append_iff.mp hsplit
  obtain ⟨inner, behind, rfl, rfl, rfl⟩ := List.map_eq_cons_iff.mp hback
  cases h rfl hleave with
  | out depth loops last ends =>
    rw [List.length_eq_zero_iff] at loops
    subst last
    simp only [Event.ends, loops] at ends
    exact .out depth (by simp [Event.inside, loops]) rfl
      (by simpa [Event.ends, Event.inside, loops] using hclose ends)
  | caught loops catches =>
    refine .caught ?_ (catches.inside loop)
    simp only [Event.inside, List.length_append, List.length_singleton]
    omega

theorem of_loop {token : Token} {m : Machine} (hloop : token.isLoop = true)
    (htrace : traceToken bounds token m = ⟨token, m, []⟩ :: events)
    (h : LeaveEnds bounds 1 .next events (runToken bounds token m)) :
    LeaveEnds bounds 0 .leave (traceToken bounds token m) (runToken bounds token m) := by
  intro before after event hsplit hleave
  rw [htrace] at hsplit
  cases before with
  | nil =>
    obtain ⟨rfl, -⟩ := List.cons.inj hsplit
    change token = .leave at hleave
    subst hleave
    cases hloop
  | cons first before =>
    obtain ⟨rfl, hrest⟩ := List.cons.inj hsplit
    cases h hrest hleave with
    | caught loops catches => exact .caught (Nat.lt_of_succ_lt loops) (catches.behind [_])
    | out depth loops last ends =>
      -- What gets out of a pass is caught by this very loop, at the end of its trace.
      subst last
      obtain ⟨nearest, hnearest⟩ := List.length_eq_one_iff.mp loops
      simp only [Event.ends, hnearest] at ends
      have hdepth : (nearest.close .next { event.machine with depth }).machine.depth = m.depth :=
        (undisturbed_stepLaw.runToken bounds token ends).depth
      rw [Loop.depth_close] at hdepth
      obtain rfl : depth = m.depth := hdepth
      have htaken : (traceToken bounds token m).map (.within []) =
          ⟨token, m, []⟩ :: before ++ [event] := by
        rw [Event.within_nil, List.map_id, htrace, hrest]
        rfl
      have hcatches : Event.Catches bounds ⟨token, m, []⟩ (⟨token, m, []⟩ :: before) event :=
        ⟨hloop, ⟨[], before, rfl, htaken⟩, nearest, hnearest, ends⟩
      exact .caught (loops ▸ Nat.one_pos) hcatches

theorem leave (m : Machine) : LeaveEnds bounds 0 .leave [⟨.leave, m, []⟩] (some (.ok .leave m)) := by
  intro before after event hsplit _
  cases before with
  | nil =>
    obtain ⟨rfl, hlast⟩ := List.cons.inj hsplit
    exact .out m.depth rfl hlast.symm rfl
  | cons e before => simp at hsplit

theorem nested (h : LeaveEnds bounds 0 .leave events o) :
    LeaveEnds bounds 0 .leave events
      (o.map (Outcome.adjust fun m => { m with depth := m.depth - 1 })) := by
  intro before after event hsplit hleave
  cases h hsplit hleave with
  | caught loops catches => exact .caught loops catches
  | out depth loops last ends =>
    have hloops := List.length_eq_zero_iff.mp loops
    simp only [Event.ends, hloops] at ends
    refine .out (depth - 1) loops last ?_
    rw [ends]
    simp [Event.ends, hloops, Outcome.adjust]

end LeaveEnds

/-- How many of the loops around a token belong to the part itself. -/
def Part.level : Part → Nat
  | .run => 0
  | .pass => 1
  | .loop => 1

/-- The flow that the part ends with when it is left. -/
def Part.leftWith : Part → Flow
  | .run => .leave
  | .pass => .leave
  | .loop => .next

section Runs

variable (bounds : Bounds)

theorem leaveEnds_traceLaw : TraceLaw bounds (fun _ => true) Undisturbed
    fun part _ => LeaveEnds bounds part.level part.leftWith where
  step := undisturbed_stepLaw
  along _ _ h := h
  givenUp _ := .nil _
  ok _ _ := .nil _
  error _ _ _ := .nil _
  taken _ _ hleave h := h.cons hleave
  leave m := .leave m
  primitive _ _ _ _ _ _ := (LeaveEnds.nil _).cons nofun
  loop _ hloop htrace h := .of_loop hloop htrace h
  nested h := h.nested
  counted _ h := h.inside fun {m₁} ho => by
    unfold withIndex
    rw [ho]
    simp only [Loop.close]
    cases popReturn m₁ <;> rfl
  indefinite h := h.inside id
  andThen h _ := h.andThen
  andThenInLoop h _ := h.andThenInLoop

theorem execute_leaveEnds (tokens : List Token) (m : Machine) :
    LeaveEnds bounds 0 .leave (traceExecute bounds tokens m) (execute bounds tokens m) :=
  (leaveEnds_traceLaw bounds).execute (Token.callsOnlyAll_of_forall (fun _ => rfl) tokens) m

theorem execute_of_leave {tokens : List Token} {m : Machine} {before after : List Event}
    {event : Event} (htrace : traceExecute bounds tokens m = before ++ event :: after)
    (hleave : event.token = .leave) (hloops : event.loops = []) :
    after = [] ∧ execute bounds tokens m =
      some (.ok .leave { event.machine with depth := m.depth }) := by
  cases execute_leaveEnds bounds tokens m htrace hleave with
  | caught loops catches => simp [hloops] at loops
  | out depth loops last ends =>
    simp only [Event.ends, hloops] at ends
    have hdepth : depth = m.depth :=
      (undisturbed_stepLaw.nested bounds.nesting
        (undisturbed_stepLaw.runTokens bounds tokens) ends).depth
    exact ⟨last, hdepth ▸ ends⟩

theorem exists_catches {tokens : List Token} {m : Machine} {before after : List Event}
    {event : Event} (htrace : traceExecute bounds tokens m = before ++ event :: after)
    (hleave : event.token = .leave) (hloops : event.loops ≠ []) :
    ∃ catching : Event, catching.Catches bounds before event := by
  cases execute_leaveEnds bounds tokens m htrace hleave with
  | caught loops catches => exact ⟨_, catches⟩
  | out depth loops last ends => exact absurd (List.length_eq_zero_iff.mp loops) hloops

theorem leave_of_execute {tokens : List Token} {m m' : Machine}
    (h : execute bounds tokens m = some (.ok .leave m')) :
    ∃ before event, traceExecute bounds tokens m = before ++ [event] ∧ event.token = .leave ∧
      event.loops = [] ∧ m' = { event.machine with depth := m.depth } := by
  obtain ⟨event, hevent, hleave, hloops⟩ := execute_signalled bounds tokens h nofun
  obtain ⟨before, after, htrace⟩ := List.append_of_mem hevent
  obtain ⟨rfl, hrun⟩ := execute_of_leave bounds htrace hleave hloops
  rw [h] at hrun
  cases hrun
  exact ⟨before, event, htrace, hleave, hloops, rfl⟩

end Runs

section Lines

variable {bounds : Bounds} {m m' : Machine}

theorem interpret_ne_notLooping {word : Word} (h : word.exposesLeave = false) :
    interpret bounds (.call word) m ≠ some (.error .notLooping m') := by
  intro hfail
  have hcases := interpret_cases bounds (.call word) m
  generalize interpret bounds (.call word) m = result at hfail hcases
  cases hcases with
  | runs hruns =>
    obtain ⟨o, hrun, hended⟩ := Option.map_eq_some_iff.mp hfail
    rcases o with ⟨flow, m₁⟩ | ⟨fault, m₁⟩
    · cases flow with
      | leave => exact callWord_neverLeaves bounds word h hrun
      | next | quit => cases hended
    · cases hended
      have hcall : runToken bounds (.call word) m = some (.error .notLooping m') := hrun
      rcases runToken_fault hcall with hfault | hfault | hfault
      · exact hfault
      · exact hfault
      · cases hfault
  | @readsAhead _ r _ => exact r.effect_fails.andNext.told (Option.some.inj hfail)
  | @skips _ c _ => exact c.effect_fails.andNext.told (Option.some.inj hfail)
  | compileOnly _ => cases hfail
  | unknown _ => cases hfail

theorem dispatch_ne_notLooping {name : String} {word : Word}
    (hclassify : classify m.dictionary name = .call word) (h : word.exposesLeave = false) :
    dispatch bounds name m ≠ some (.error .notLooping m') := by
  intro hfail
  cases hmode : m.mode with
  | immediate =>
    rw [dispatch_of_immediate hmode, hclassify] at hfail
    exact interpret_ne_notLooping h hfail
  | compile =>
    rw [dispatch_of_compile hmode] at hfail
    exact compile_fails _ (Option.some.inj hfail)

theorem runInput_ne_leave : runInput bounds m ≠ some (.ok .leave m') := by
  intro hrun
  obtain ⟨m₁, -, ⟨word, rest, -, -, hstops⟩ | ⟨-, hended⟩⟩ := runInput_cases hrun
  · cases hstops
  · cases hended

theorem runInput_ne_notLooping {name : String} {word : Word}
    (hwords : Text.words m.input = [name]) (hclassify : classify m.dictionary name = .call word)
    (h : word.exposesLeave = false) : runInput bounds m ≠ some (.error .notLooping m') := by
  intro hfail
  obtain ⟨rest, hnext, hrest⟩ := Text.nextWord_of_words_cons hwords
  rw [runInput_of_nextWord hnext] at hfail
  obtain ⟨o, hdispatch, hresume⟩ := Option.bind_eq_some_iff.mp hfail
  rcases o with ⟨flow, m₁⟩ | ⟨fault, m₁⟩
  · have hreads : m₁.input <:+ rest := dispatch_reads bounds name hdispatch
    have hnil : Text.words m₁.input = [] := by
      rw [Text.words_eq_nil_iff] at hrest ⊢
      exact fun c hc => hrest c (hreads.subset hc)
    cases flow with
    | quit => cases hresume
    | next | leave =>
      change runInput bounds m₁ = _ at hresume
      rw [runInput_of_nil hnil] at hresume
      cases hresume
  · cases hresume
    exact dispatch_ne_notLooping (m := { m with input := rest }) hclassify h hdispatch

end Lines

/-- A loop never ends with the flow `leave`. A run does so exactly if it takes up a `LEAVE` with no
loop around it, and that is the last it takes up; with a loop around it, the nearest one takes up
nothing behind the `LEAVE`, and ends. A line never ends with the flow `leave`, and it does not
complain that there is nothing to leave if it calls a word that exposes no `LEAVE`. -/
theorem leave_ends_nearest_loop (bounds : Bounds) :
    (∀ token : Token, token.isLoop = true →
      ∀ m m', runToken bounds token m ≠ some (.ok .leave m')) ∧
    (∀ tokens m m', execute bounds tokens m = some (.ok .leave m') →
      ∃ before event, traceExecute bounds tokens m = before ++ [event] ∧ event.token = .leave ∧
        event.loops = [] ∧ m' = { event.machine with depth := m.depth }) ∧
    (∀ tokens m before event after, traceExecute bounds tokens m = before ++ event :: after →
      event.token = .leave →
        (event.loops = [] → after = [] ∧ execute bounds tokens m =
          some (.ok .leave { event.machine with depth := m.depth })) ∧
        (event.loops ≠ [] → ∃ catching : Event, catching.Catches bounds before event)) ∧
    (∀ m m', runInput bounds m ≠ some (.ok .leave m')) ∧
    ∀ m name word, Text.words m.input = [name] → classify m.dictionary name = .call word →
      word.exposesLeave = false → ∀ m', runInput bounds m ≠ some (.error .notLooping m') := by
  refine ⟨?_, ?_, ?_, ?_, ?_⟩
  · intro token hloop m m' hleave
    exact runToken_neverLeaves bounds token (Token.exposesLeave_of_isLoop hloop) hleave
  · intro tokens m m'
    exact leave_of_execute bounds
  · intro tokens m before event after htrace hleave
    exact ⟨execute_of_leave bounds htrace hleave, exists_catches bounds htrace hleave⟩
  · intro m m'
    exact runInput_ne_leave
  · intro m name word hwords hclassify hword m'
    exact runInput_ne_notLooping hwords hclassify hword

/-- A branch with a token that is never taken up. -/
def leavingBody : List Token :=
  [.number 1, .branch [.leave, .number 2] []]

def leavingLoop : List Token :=
  [.number 5, .number 0, .counted [.call ⟨0, "OUT", .definition leavingBody⟩, .number 3] (.fixed 1)]

theorem Token.eq_leave_of_isLeave {token : Token} (h : token.isLeave = true) : token = .leave := by
  cases token with
  | leave => rfl
  | number _ | call _ | unresolved _ | counted _ _ | branch _ _ | indefinite _ _ => cases h

/-- The body on its own is left, in a loop it ends the loop, and a line that runs the loop finds
something to leave. -/
theorem leavingLoop_is_left :
    (∃ event : Event, execute { passes := 0 } leavingBody {} =
      some (.ok .leave { event.machine with depth := 0 }) ∧ event.machine.depth = 2) ∧
    (∃ before event after, ∃ catching : Event,
      traceExecute { passes := 1 } leavingLoop {} = before ++ event :: after ∧
        event.loops = [.counted 0] ∧ catching.Catches { passes := 1 } before event) ∧
    ∀ m', runInput { passes := 1 } { dictionary := Dictionary.install {} "W" (.definition leavingLoop)
                                     input := ['W'] } ≠ some (.error .notLooping m') := by
  have hbody : ∃ event ∈ traceExecute { passes := 0 } leavingBody {},
      event.token.isLeave = true ∧ event.loops = [] ∧ event.machine.depth = 2 := by
    decide +kernel
  have hloop : ∃ event ∈ traceExecute { passes := 1 } leavingLoop {},
      event.token.isLeave = true ∧ event.loops = [.counted 0] := by
    decide +kernel
  obtain ⟨-, -, hleaves, -, -⟩ := leave_ends_nearest_loop { passes := 0 }
  obtain ⟨-, -, hleaves', -, hline⟩ := leave_ends_nearest_loop { passes := 1 }
  refine ⟨?_, ?_, ?_⟩
  · obtain ⟨event, hevent, hleave, hloops, hdepth⟩ := hbody
    obtain ⟨before, after, htrace⟩ := List.append_of_mem hevent
    have hends := hleaves _ _ before event after htrace (Token.eq_leave_of_isLeave hleave)
    exact ⟨event, (hends.1 hloops).2, hdepth⟩
  · obtain ⟨event, hevent, hleave, hloops⟩ := hloop
    obtain ⟨before, after, htrace⟩ := List.append_of_mem hevent
    have hends := hleaves' _ _ before event after htrace (Token.eq_leave_of_isLeave hleave)
    obtain ⟨catching, hcatches⟩ := hends.2 (by simp [hloops])
    exact ⟨before, event, after, catching, htrace, hloops, hcatches⟩
  · exact hline _ "W" ⟨0, "W", .definition leavingLoop⟩ (by decide +kernel) rfl rfl

end ForthMachine
