import ForthMachine.Proofs.Shape
import ForthMachine.Proofs.TraceLaw

/-!
# How a line is quit

`QUIT` and `BYE` are the last thing a line does. On the way out every counted loop takes one cell
off the return stack, and that is all that is done to the stacks. A body that has taken the index
of its loop away leaves nothing for the loop to take, and then the line fails instead.
-/

set_option autoImplicit false

namespace ForthMachine

open Machine

/-- Machine `m`, once the given number of cells are off the return stack. Nothing is printed, read
or defined meanwhile. -/
structure Unwound (count : Nat) (m m' : Machine) : Prop where
  stack : m'.stack = m.stack
  returns : m'.returns = m.returns.drop count
  output : m'.output = m.output
  input : m'.input = m.input
  mode : m'.mode = m.mode
  dictionary : m'.dictionary = m.dictionary

/-- What comes of quitting inside the given number of counted loops. -/
inductive Unwinds (count : Nat) (m : Machine) : Outcome Flow → Prop where
  | quit {m' : Machine} (enough : count ≤ m.returns.length) (unwound : Unwound count m m') :
      Unwinds count m (.ok .quit m')
  | short {m' : Machine} (few : m.returns.length < count) (output : m'.output = m.output)
      (dictionary : m'.dictionary = m.dictionary) :
      Unwinds count m (.error .returnStackUnderflow m')

theorem Unwinds.setDepth {count : Nat} {m : Machine} {o : Outcome Flow} (h : Unwinds count m o)
    (depth : Nat → Nat) :
    Unwinds count m (o.adjust fun m => { m with depth := depth m.depth }) := by
  cases h with
  | quit enough unwound => exact .quit enough { unwound with }
  | short few output dictionary => exact .short few output dictionary

/-- Whatever quits is the last of the events, and decides the outcome. -/
def QuitEnds (events : List Event) (o : Option (Outcome Flow)) : Prop :=
  ∀ ⦃before after : List Event⦄ ⦃event : Event⦄, events = before ++ event :: after →
    event.token.IsQuit →
      after = [] ∧ ∃ o', o = some o' ∧ Unwinds event.indices.length event.machine o'

namespace QuitEnds

variable {events first rest : List Event} {o o' : Option (Outcome Flow)}

theorem nil (o : Option (Outcome Flow)) : QuitEnds [] o := by
  intro before after event hsplit
  simp at hsplit

theorem cons {event : Event} (h : QuitEnds events o) (hevent : ¬ event.token.IsQuit) :
    QuitEnds (event :: events) o := by
  intro before after quitting hsplit hquit
  cases before with
  | nil =>
    obtain ⟨rfl, -⟩ := List.cons.inj hsplit
    exact absurd hquit hevent
  | cons e before => exact h (List.cons.inj hsplit).2 hquit

theorem append (hfirst : QuitEnds first o)
    (hstop : ∀ {count m ended}, o = some ended → Unwinds count m ended → rest = [] ∧ o' = o)
    (hrest : QuitEnds rest o') : QuitEnds (first ++ rest) o' := by
  intro before after event hsplit hquit
  rcases List.append_eq_append_iff.mp hsplit with ⟨mid, -, hmid⟩ | ⟨mid, hmid, hbehind⟩
  · exact hrest hmid hquit
  · cases mid with
    | nil =>
      have hevent : rest = [] ++ event :: after := hbehind.symm
      exact hrest hevent hquit
    | cons e mid =>
      obtain ⟨rfl, rfl⟩ := List.cons.inj hbehind
      obtain ⟨rfl, ended, ho, hended⟩ := hfirst hmid hquit
      obtain ⟨rfl, rfl⟩ := hstop ho hended
      exact ⟨rfl, ended, ho, hended⟩

section Sequence

variable {events : Machine → List Event} {next : Machine → Option (Outcome Flow)}

theorem andThen : QuitEnds first o →
    (∀ m, o = some (.ok .next m) → QuitEnds (events m) (next m)) →
    QuitEnds (first ++ match o with | some (.ok .next m) => events m | _ => [])
      (match o with | some (.ok .next m) => next m | stopped => stopped) := by
  intro hfirst hnext
  rcases o with - | ⟨flow, m⟩ | ⟨fault, m⟩
  · exact hfirst.append (fun _ _ => ⟨rfl, rfl⟩) (.nil _)
  · cases flow with
    | quit | leave => exact hfirst.append (fun _ _ => ⟨rfl, rfl⟩) (.nil _)
    | next => exact hfirst.append (fun ho hended => by cases ho; cases hended) (hnext m rfl)
  · exact hfirst.append (fun _ _ => ⟨rfl, rfl⟩) (.nil _)

theorem andThenInLoop : QuitEnds first o →
    (∀ m, o = some (.ok .next m) → QuitEnds (events m) (next m)) →
    QuitEnds (first ++ match o with | some (.ok .next m) => events m | _ => [])
      (match o with
        | some (.ok .leave m) => some (.ok .next m)
        | some (.ok .next m) => next m
        | stopped => stopped) := by
  intro hfirst hnext
  rcases o with - | ⟨flow, m⟩ | ⟨fault, m⟩
  · exact hfirst.append (fun _ _ => ⟨rfl, rfl⟩) (.nil _)
  · cases flow with
    | quit => exact hfirst.append (fun _ _ => ⟨rfl, rfl⟩) (.nil _)
    | leave => exact hfirst.append (fun ho hended => by cases ho; cases hended) (.nil _)
    | next => exact hfirst.append (fun ho hended => by cases ho; cases hended) (hnext m rfl)
  · exact hfirst.append (fun _ _ => ⟨rfl, rfl⟩) (.nil _)

end Sequence

theorem map_inside {loop : Loop} (h : QuitEnds events o)
    (hloop : ∀ {event : Event} {ended}, o = some ended →
      Unwinds event.indices.length event.machine ended → ∃ ended', o' = some ended' ∧
        Unwinds (event.inside loop).indices.length event.machine ended') :
    QuitEnds (events.map (.inside loop)) o' := by
  intro before after event hsplit hquit
  obtain ⟨front, back, rfl, -, hback⟩ := List.map_eq_append_iff.mp hsplit
  obtain ⟨inner, behind, rfl, rfl, rfl⟩ := List.map_eq_cons_iff.mp hback
  obtain ⟨rfl, ended, ho, hended⟩ := h rfl hquit
  exact ⟨rfl, hloop ho hended⟩

theorem map_inside_indefinite (h : QuitEnds events o) :
    QuitEnds (events.map (.inside .indefinite)) o := by
  refine h.map_inside fun ho hended => ⟨_, ho, ?_⟩
  rwa [Event.indices_inside_indefinite]

theorem setDepth (h : QuitEnds events o) (depth : Nat → Nat) :
    QuitEnds events (o.map (Outcome.adjust fun m => { m with depth := depth m.depth })) := by
  intro before after event hsplit hquit
  obtain ⟨rfl, ended, rfl, hended⟩ := h hsplit hquit
  exact ⟨rfl, _, rfl, hended.setDepth depth⟩

theorem singleton {event : Event} {o : Outcome Flow}
    (h : Unwinds event.indices.length event.machine o) : QuitEnds [event] (some o) := by
  intro before after quitting hsplit _
  obtain ⟨rfl, rfl, rfl⟩ : before = [] ∧ quitting = event ∧ after = [] := by
    cases before with
    | nil => simpa [eq_comm] using hsplit
    | cons e before => simp at hsplit
  exact ⟨rfl, o, rfl, h⟩

theorem call (serial : Nat) (name : String) (p : Primitive) (m : Machine) (entry : Entry) :
    QuitEnds [⟨.call ⟨serial, name, .primitive p⟩, m, []⟩] (some (p.run (m.note entry))) := by
  by_cases hquit : p = .quit ∨ p = .bye
  · refine singleton ?_
    rcases hquit with rfl | rfl
    · exact .quit (Nat.zero_le _) ⟨rfl, rfl, rfl, rfl, rfl, rfl⟩
    · exact .quit (Nat.zero_le _) ⟨rfl, rfl, rfl, rfl, rfl, rfl⟩
  · exact (nil _).cons hquit

end QuitEnds

def Run.QuitEnds (trace : Trace) (run : Run) : Prop :=
  ∀ ⦃m : Machine⦄, HoldsValues m → ForthMachine.QuitEnds (trace m) (run m)

/-- The loop takes its index off the return stack, or whatever is left there in its place. -/
theorem Unwinds.withIndex {count : Nat} {m q : Machine} {o : Outcome Flow} {index : Int64}
    {run : Run} (h : Unwinds count q o)
    (hrun : run { m with returns := .value index :: m.returns } = some o)
    (hvalues : HoldsValues o.machine) :
    ∃ o', ForthMachine.withIndex index run m = some o' ∧ Unwinds (count + 1) q o' := by
  unfold ForthMachine.withIndex
  rw [hrun]
  cases h with
  | short few output dictionary =>
    exact ⟨_, rfl, .short (Nat.lt_succ_of_lt few) output dictionary⟩
  | @quit m' enough unwound =>
    dsimp only
    cases hreturns : m'.returns with
    | nil =>
      have hlength : q.returns.length ≤ count := by
        rw [← List.drop_eq_nil_iff, ← unwound.returns, hreturns]
      rw [popReturn, hreturns]
      exact ⟨_, rfl, .short (Nat.lt_succ_of_le hlength) unwound.output unwound.dictionary⟩
    | cons cell rest =>
      have hdrop : q.returns.drop count = cell :: rest := by rw [← unwound.returns, hreturns]
      have hlength : count < q.returns.length := by
        rw [← Nat.not_le, ← List.drop_eq_nil_iff, hdrop]
        exact List.cons_ne_nil cell rest
      obtain ⟨n, rfl⟩ := hvalues.returns cell (hreturns ▸ List.mem_cons_self)
      rw [popReturn, hreturns]
      refine ⟨_, rfl, .quit hlength { unwound with returns := ?_ }⟩
      rw [← List.tail_drop, hdrop]
      rfl

abbrev KeepsValues (m m' : Machine) : Prop := HoldsValues m → HoldsValues m'

theorem Token.not_isQuit_of_primitive? {token : Token} (h : token.primitive? = none) :
    ¬ token.IsQuit := by
  intro hquit
  cases token with
  | call word =>
    obtain ⟨serial, name, behavior⟩ := word
    cases behavior with
    | primitive p => cases h
    | structural _ | readAhead _ | comment _ | definition _ => exact hquit
  | number _ | unresolved _ | counted _ _ | branch _ _ | indefinite _ _ | leave => exact hquit

theorem Token.not_isQuit_of_isLoop {token : Token} (h : token.isLoop = true) :
    ¬ token.IsQuit := by
  cases token with
  | counted _ _ | indefinite _ _ => exact id
  | number _ | call _ | unresolved _ | branch _ _ | leave => cases h

section Runs

variable (bounds : Bounds)

theorem quitEnds_traceLaw : TraceLaw bounds (fun _ => true) KeepsValues
    fun _ m events o => HoldsValues m → QuitEnds events o where
  step := holdsValues_stepLaw
  along hkeeps _ h hm := h (hkeeps hm)
  givenUp _ _ := .nil _
  ok _ _ _ := .nil _
  error _ _ _ _ := .nil _
  taken _ hcall _ h hm := (h hm).cons (Token.not_isQuit_of_primitive? hcall)
  leave _ _ := (QuitEnds.nil _).cons id
  primitive serial name {p} m entry _ _ := .call serial name p m entry
  loop _ hloop htrace h hm := htrace ▸ (h hm).cons (Token.not_isQuit_of_isLoop hloop)
  nested h hm := (h ⟨hm.stack, hm.returns⟩).setDepth (· - 1)
  counted {_ index m _} hkeeps h hm := by
    have hpushed : HoldsValues { m with returns := .value index :: m.returns } :=
      ⟨hm.stack, hm.returns.stacked [index]⟩
    refine (h hpushed).map_inside fun ho hended => ?_
    rw [Event.indices_inside_counted, List.length_append]
    exact hended.withIndex ho (hkeeps ho hpushed)
  indefinite h hm := (h hm).map_inside_indefinite
  andThen h hkeeps hnext hm := (h hm).andThen fun m' ho => hnext m' (hkeeps ho hm)
  andThenInLoop h hkeeps hnext hm := (h hm).andThenInLoop fun m' ho => hnext m' (hkeeps ho hm)

theorem runToken_quitEnds (token : Token) :
    Run.QuitEnds (traceToken bounds token) (runToken bounds token) :=
  (quitEnds_traceLaw bounds).runToken token (Token.callsOnly_of_forall (fun _ => rfl) token)

end Runs

theorem QuitEnds.outsideLoops {events : List Event} {o : Option (Outcome Flow)}
    (h : QuitEnds events o) : QuitEnds events (o.map ForthMachine.outsideLoops) := by
  intro before after event hsplit hquit
  obtain ⟨rfl, ended, rfl, hended⟩ := h hsplit hquit
  refine ⟨rfl, ended, ?_, hended⟩
  cases hended <;> rfl

theorem interpret_quitEnds (bounds : Bounds) {m : Machine} (hm : HoldsValues m) (token : Token) :
    QuitEnds (traceInterpret bounds token m) (interpret bounds token m) := by
  cases token with
  | call word =>
    by_cases hruns : word.behavior.Runs
    · rw [interpret_call_of_runs bounds hruns]
      exact (runToken_quitEnds bounds (.call word) hm).outsideLoops
    · obtain ⟨serial, name, behavior⟩ := word
      cases behavior with
      | primitive _ | definition _ => exact absurd trivial hruns
      | structural _ | readAhead _ | comment _ => exact (QuitEnds.nil _).cons id
  | number _ | unresolved _ | counted _ _ | branch _ _ | indefinite _ _ | leave =>
    exact (QuitEnds.nil _).cons id

theorem dispatch_quitEnds (bounds : Bounds) {m : Machine} (hm : Steady m) (word : String) :
    QuitEnds (traceDispatch bounds word m) (dispatch bounds word m) := by
  unfold traceDispatch
  cases hmode : m.mode with
  | immediate =>
    rw [dispatch_of_immediate hmode]
    exact interpret_quitEnds bounds (hm.of_immediate hmode).2 _
  | compile => exact .nil _

theorem runWords_quitEnds (bounds : Bounds) {count : Nat} {m : Machine} (hm : Steady m) :
    QuitEnds (traceWords bounds count m) (runWords bounds count m) := by
  induction count generalizing m with
  | zero => exact .nil _
  | succ count ih =>
    rcases hnext : Text.nextWord m.input with ⟨word, rest⟩
    cases word with
    | none =>
      rw [traceWords_of_none bounds count
        (Text.nextWord_of_words_nil (Text.words_of_nextWord_none hnext))]
      exact .nil _
    | some word =>
      rw [traceWords_of_nextWord bounds count hnext, runWords_succ bounds count hnext]
      have hfirst := dispatch_quitEnds bounds (hm.withInput rest) word
      have hsettles {o : Outcome Flow}
          (ho : dispatch bounds word { m with input := rest } = some o) : o.Settles :=
        (hm.withInput rest).dispatch ho
      generalize dispatch bounds word { m with input := rest } = o at hfirst hsettles ⊢
      rcases o with - | ⟨flow, m₁⟩ | ⟨fault, m₁⟩
      · exact hfirst.append (fun _ _ => ⟨rfl, rfl⟩) (.nil _)
      · cases flow with
        | quit => exact hfirst.append (fun _ _ => ⟨rfl, rfl⟩) (.nil _)
        | next | leave =>
          have hsteady : Steady m₁ := hsettles rfl
          exact hfirst.append (fun ho hended => by cases ho; cases hended) (ih hsteady)
      · exact hfirst.append (fun _ _ => ⟨rfl, rfl⟩) (.nil _)

theorem runInput_quitEnds (bounds : Bounds) {m : Machine} (hm : Steady m) :
    QuitEnds (traceInput bounds m) (runInput bounds m) :=
  runWords_quitEnds bounds hm

theorem flow_of_andNext {α : Type} {first : Action α} {m m' : Machine} {flow : Flow}
    (h : (do let _ ← first; return .next : Action Flow) m = .ok flow m') : flow = .next := by
  obtain ⟨-, m₁, -, hreturn⟩ := Action.bind_eq_ok h
  cases hreturn
  rfl

theorem flow_of_compile {token : Token} {m m' : Machine} {flow : Flow}
    (h : compile token m = .ok flow m') : flow = .next := by
  cases token with
  | number n => exact flow_of_andNext h
  | call word =>
    cases hb : word.behavior with
    | primitive _ | definition _ =>
      simp only [compile, hb] at h
      exact flow_of_andNext h
    | structural _ | comment _ =>
      simp only [compile, hb] at h
      obtain ⟨-, m₁, -, heffect⟩ := Action.bind_eq_ok h
      exact flow_of_andNext heffect
    | readAhead _ =>
      simp only [compile, hb] at h
      cases h
  | unresolved _ | counted _ _ | branch _ _ | indefinite _ _ | leave => cases h

theorem interpret_quit_traced {bounds : Bounds} {token : Token} {m m' : Machine}
    (h : interpret bounds token m = some (.ok .quit m')) :
    ∃ event ∈ traceInterpret bounds token m, event.token.IsQuit := by
  have hcases := interpret_cases bounds token m
  generalize interpret bounds token m = result at h hcases
  cases hcases with
  | @runs word hruns =>
    obtain ⟨o, hrun, hended⟩ := Option.map_eq_some_iff.mp h
    have ho : o = .ok .quit m' := by
      rcases o with ⟨flow, m₁⟩ | ⟨fault, m₁⟩
      · cases flow with
        | leave => cases hended
        | next | quit => exact hended
      · cases hended
    have hcall : runToken bounds (.call word) m = some (.ok .quit m') := ho ▸ hrun
    exact runToken_signalled bounds (.call word) hcall nofun
  | readsAhead _ | skips _ =>
    obtain ⟨-, m₁, -, heffect⟩ := Action.bind_eq_ok (Option.some.inj h)
    exact absurd (flow_of_andNext heffect) nofun
  | pushes _ | compileOnly _ | undefined _ | unknown _ => cases h

theorem dispatch_quit_traced {bounds : Bounds} {word : String} {m m' : Machine}
    (h : dispatch bounds word m = some (.ok .quit m')) :
    ∃ event ∈ traceDispatch bounds word m, event.token.IsQuit := by
  unfold traceDispatch
  cases hmode : m.mode with
  | immediate =>
    rw [dispatch_of_immediate hmode] at h
    exact interpret_quit_traced h
  | compile =>
    rw [dispatch_of_compile hmode] at h
    exact absurd (flow_of_compile (Option.some.inj h)) nofun

/-- Nothing but `QUIT` and `BYE` makes a line end so. -/
theorem runInput_quit_traced {bounds : Bounds} {m m' : Machine}
    (h : runInput bounds m = some (.ok .quit m')) :
    ∃ event ∈ traceInput bounds m, event.token.IsQuit := by
  unfold runInput at h
  unfold traceInput
  generalize m.input.length = count at h ⊢
  induction count generalizing m with
  | zero => cases h
  | succ count ih =>
    rcases hnext : Text.nextWord m.input with ⟨word, rest⟩
    cases word with
    | none =>
      rw [runWords_of_none bounds count
        (Text.nextWord_of_words_nil (Text.words_of_nextWord_none hnext))] at h
      cases h
    | some word =>
      rw [runWords_succ bounds count hnext] at h
      rw [traceWords_of_nextWord bounds count hnext]
      have hfirst {m' : Machine}
          (ho : dispatch bounds word { m with input := rest } = some (.ok .quit m')) :=
        dispatch_quit_traced ho
      generalize dispatch bounds word { m with input := rest } = o at h hfirst ⊢
      rcases o with - | ⟨flow, m₁⟩ | ⟨fault, m₁⟩
      · cases h
      · cases flow with
        | quit =>
          obtain ⟨event, hevent, hquit⟩ := hfirst rfl
          exact ⟨event, List.mem_append_left _ hevent, hquit⟩
        | next | leave =>
          obtain ⟨event, hevent, hquit⟩ := ih h
          exact ⟨event, List.mem_append_right _ hevent, hquit⟩
      · cases h

/-- `QUIT` and `BYE` end the line, however deep they are executed, and the answer is the text
printed so far. They fail only where the loops around them do not find a cell each. No line ends so
without one of them. -/
theorem quit_ends_line {m : Machine} (hm : Reachable m) (line : String) (passes : Nat) :
    (∀ {before after : List Event} {event : Event},
      traceInput { passes } (m.reading line) = before ++ event :: after → event.token.IsQuit →
        after = [] ∧
          (event.indices.length ≤ event.machine.returns.length →
            ∃ m', evaluate { passes } m line = some (event.machine.output, m') ∧
              m'.stack = event.machine.stack ∧
              m'.returns = event.machine.returns.drop event.indices.length ∧
              m'.input = event.machine.input ∧ m'.mode = event.machine.mode ∧
              m'.dictionary = event.machine.dictionary) ∧
          (event.machine.returns.length < event.indices.length →
            ∃ m', evaluate { passes } m line =
                some (event.machine.output ++ " ? " ++ Fault.returnStackUnderflow.message, m') ∧
              m'.stack = [] ∧ m'.returns = [] ∧ m'.dictionary = event.machine.dictionary)) ∧
      ∀ m', runInput { passes } (m.reading line) = some (.ok .quit m') →
        ∃ event ∈ traceInput { passes } (m.reading line), event.token.IsQuit := by
  refine ⟨?_, fun m' => runInput_quit_traced⟩
  intro before after event htrace hquit
  have hsteady := (steady_of_reachable hm).reading line
  obtain ⟨rfl, o, hrun, hended⟩ := runInput_quitEnds { passes } hsteady htrace hquit
  have hanswer : evaluate { passes } m line = some (answer o) := congrArg (Option.map answer) hrun
  rw [hanswer]
  refine ⟨rfl, fun henough => ?_, fun hfew => ?_⟩
  · cases hended with
    | short few => exact absurd henough (Nat.not_le_of_lt few)
    | @quit m₁ enough unwound =>
      refine ⟨{ m₁ with output := "" }, ?_, unwound.stack, unwound.returns, unwound.input,
        unwound.mode, unwound.dictionary⟩
      simp [answer, unwound.output]
  · cases hended with
    | quit enough unwound => exact absurd enough (Nat.not_le_of_lt hfew)
    | @short m₁ few output dictionary =>
      refine ⟨(answer (.error .returnStackUnderflow m₁)).2, ?_, rfl, rfl, dictionary⟩
      simp [answer, output]

/-- In a branch in a loop in a definition, with a value under the loop. -/
theorem quit_in_branch_ends_line :
    ∃ m₁ m₂, evaluate { passes := 0 } Machine.new
        ": Q 5 0 DO I . I 2 == IF 9 QUIT THEN LOOP 99 . ;" = some (" ok", m₁) ∧
      evaluate { passes := 3 } m₁ "7 Q 8" = some ("0 1 2 ", m₂) ∧ m₂.values = [7, 9] := by
  have hline : (evaluate { passes := 0 } Machine.new
      ": Q 5 0 DO I . I 2 == IF 9 QUIT THEN LOOP 99 . ;").map (fun answered : String × Machine =>
        decide (answered.1 = " ok" ∧
          ∃ event ∈ traceInput { passes := 3 } (answered.2.reading "7 Q 8"),
            event.token.IsQuit ∧ event.indices.length ≤ event.machine.returns.length ∧
              event.machine.output = "0 1 2 " ∧ event.machine.values = [7, 9])) = some true := by
    decide +kernel
  obtain ⟨⟨text, m₁⟩, haccepted, htraced⟩ := Option.map_eq_some_iff.mp hline
  obtain ⟨rfl, event, hevent, hquit, henough, houtput, hvalues⟩ := of_decide_eq_true htraced
  obtain ⟨before, after, htrace⟩ := List.append_of_mem hevent
  have hreachable : Reachable m₁ := .line 0 .new haccepted
  obtain ⟨-, hends, -⟩ := (quit_ends_line hreachable "7 Q 8" 3).1 htrace hquit
  obtain ⟨m₂, hanswer, hstack, -⟩ := hends henough
  refine ⟨m₁, m₂, haccepted, houtput ▸ hanswer, ?_⟩
  rw [← hvalues, Machine.values, hstack]
  rfl

/-- A loop that finds its index gone fails, although `QUIT` was executed. -/
theorem quit_without_index_fails :
    ∃ m₁ m₂, evaluate { passes := 0 } Machine.new ": Q 1 0 DO R> DROP QUIT LOOP ;" =
        some (" ok", m₁) ∧
      (∃ event ∈ traceInput { passes := 1 } (m₁.reading "5 Q"),
        event.token.IsQuit ∧ event.machine.output = "" ∧ event.machine.values = [5]) ∧
      evaluate { passes := 1 } m₁ "5 Q" = some (" ? return stack underflow", m₂) ∧
      m₂.values = [] := by
  have hline : (evaluate { passes := 0 } Machine.new ": Q 1 0 DO R> DROP QUIT LOOP ;").map
      (fun answered : String × Machine =>
        decide (answered.1 = " ok" ∧
          (∃ event ∈ traceInput { passes := 1 } (answered.2.reading "5 Q"),
            event.token.IsQuit ∧ event.machine.output = "" ∧ event.machine.values = [5]) ∧
          (evaluate { passes := 1 } answered.2 "5 Q").map (fun a => (a.1, a.2.values)) =
            some (" ? return stack underflow", []))) = some true := by
    decide +kernel
  obtain ⟨⟨text, m₁⟩, haccepted, htraced⟩ := Option.map_eq_some_iff.mp hline
  obtain ⟨rfl, hevent, hcalled⟩ := of_decide_eq_true htraced
  obtain ⟨⟨text, m₂⟩, hanswer, hend⟩ := Option.map_eq_some_iff.mp hcalled
  obtain ⟨rfl, hvalues⟩ := Prod.mk.inj hend
  exact ⟨m₁, m₂, haccepted, hevent, hanswer, hvalues⟩

end ForthMachine
