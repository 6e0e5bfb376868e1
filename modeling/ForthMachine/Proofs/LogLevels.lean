import ForthMachine.Proofs.Logging
import ForthMachine.Proofs.Trace

/-!
# The level of the log

Only one primitive writes the level of the log, and nothing but the log reads it. So machines whose
logs have different levels answer in the same way, and once the primitive has found a number, they
have the level that it stands for, both of them.
-/

set_option autoImplicit false

namespace ForthMachine

open Machine

def Behavior.SetsLevel : Behavior → Prop
  | .primitive p => p = .setLevel
  | _ => False

def Token.SetsLevel : Token → Prop
  | .call word => word.behavior.SetsLevel
  | _ => False

/-- The primitive that sets the level finds a number. -/
def Event.SetsLevel (event : Event) : Prop :=
  event.token.SetsLevel ∧ ∃ n cells, event.machine.stack = .value n :: cells

def SetsLevel (events : List Event) : Prop :=
  ∃ event ∈ events, event.SetsLevel

@[simp] theorem setsLevel_append {first rest : List Event} :
    SetsLevel (first ++ rest) ↔ SetsLevel first ∨ SetsLevel rest := by
  simp only [SetsLevel, List.mem_append, or_and_right, exists_or]

@[simp] theorem setsLevel_map_inside {loop : Loop} {events : List Event} :
    SetsLevel (events.map (.inside loop)) ↔ SetsLevel events := by
  constructor
  · rintro ⟨_, hinside, hsets⟩
    obtain ⟨event, hevent, rfl⟩ := List.mem_map.mp hinside
    exact ⟨event, hevent, hsets⟩
  · rintro ⟨event, hevent, hsets⟩
    exact ⟨event.inside loop, List.mem_map_of_mem hevent, hsets⟩

theorem not_setsLevel_nil : ¬ SetsLevel [] := by
  rintro ⟨event, hevent, -⟩
  cases hevent

/-- The machines differ at most in their logs, and if `set` holds, not in the levels of these. -/
abbrev Tuned (set : Prop) : Machine → Machine → Prop :=
  LogApart fun level level' => set → level' = level

theorem Tuned.mono {set set' : Prop} {m m' : Machine} (h : Tuned set m m') (himp : set' → set) :
    Tuned set' m m' := by
  obtain ⟨log, hlevel, rfl⟩ := h
  exact ⟨log, fun hset => hlevel (himp hset), rfl⟩

/-- It is used for accesses only, on which the bounds have no bearing. -/
theorem tuned_lockstep (set : Prop) :
    Lockstep (fun _ => True) { passes := 0 } { passes := 0 } (Tuned set) :=
  logApart_lockstep (fun _ _ => rfl) _

theorem Tuned.note {set : Prop} {m m' : Machine} (h : Tuned set m m') (entry entry' : Entry) :
    Tuned set (m.note entry) (m'.note entry') :=
  (tuned_lockstep set).note entry entry' h

/-- The two come to the same end, and to the same level, if `set` holds or an event sets it. -/
def Tunes (events : List Event) (set : Prop) :
    Option (Outcome Flow) → Option (Outcome Flow) → Prop :=
  Option.Rel (Outcome.Agree (Tuned (set ∨ SetsLevel events)))

namespace Tunes

variable {events events' first : List Event} {set set' : Prop} {o o' : Option (Outcome Flow)}

theorem mono (h : Tunes events set o o')
    (himp : set' ∨ SetsLevel events' → set ∨ SetsLevel events) : Tunes events' set' o o' :=
  rel_mono (fun _ _ hagree => hagree.mono (·.mono himp)) h

theorem of_agree (h : Option.Rel (Outcome.Agree (Tuned set)) o o') (hnot : ¬ SetsLevel events) :
    Tunes events set o o' :=
  rel_mono (fun _ _ hagree => hagree.mono (·.mono (·.resolve_right hnot))) h

theorem nil (h : Option.Rel (Outcome.Agree (Tuned set)) o o') : Tunes [] set o o' :=
  of_agree h not_setsLevel_nil

theorem cons {event : Event} (h : Tunes events set o o') (hevent : ¬ event.SetsLevel) :
    Tunes (event :: events) set o o' := by
  refine h.mono (Or.imp_right ?_)
  rintro ⟨other, hother, hsets⟩
  rcases List.mem_cons.mp hother with rfl | hother
  · exact absurd hsets hevent
  · exact ⟨other, hother, hsets⟩

theorem map_inside {loop : Loop} (h : Tunes events set o o') :
    Tunes (events.map (.inside loop)) set o o' :=
  h.mono (Or.imp_right setsLevel_map_inside.mp)

section Sequence

variable {next : Run} {later : Trace}

theorem behindFirst {r r' : Option (Outcome Flow)} (h : Tunes events (set ∨ SetsLevel first) r r') :
    Tunes (first ++ events) set r r' := by
  refine h.mono fun hset => ?_
  rwa [setsLevel_append, ← or_assoc] at hset

theorem andThen : Tunes first set o o' →
    (∀ {set m m'}, Tuned set m m' → Tunes (later m) set (next m) (next m')) →
    Tunes (first ++ match o with | some (.ok .next m) => later m | _ => []) set
      (match o with | some (.ok .next m) => next m | stopped => stopped)
      (match o' with | some (.ok .next m) => next m | stopped => stopped) := by
  intro hfirst hnext
  apply behindFirst
  cases hfirst with
  | none => exact .none
  | some hagree =>
    cases hagree with
    | error fault h => exact nil (.some (.error fault h))
    | ok flow h =>
      cases flow with
      | next => exact hnext h
      | leave => exact nil (.some (.ok Flow.leave h))
      | quit => exact nil (.some (.ok Flow.quit h))

theorem andThenInLoop : Tunes first set o o' →
    (∀ {set m m'}, Tuned set m m' → Tunes (later m) set (next m) (next m')) →
    Tunes (first ++ match o with | some (.ok .next m) => later m | _ => []) set
      (match o with
        | some (.ok .leave m) => some (.ok .next m)
        | some (.ok .next m) => next m
        | stopped => stopped)
      (match o' with
        | some (.ok .leave m) => some (.ok .next m)
        | some (.ok .next m) => next m
        | stopped => stopped) := by
  intro hfirst hnext
  apply behindFirst
  cases hfirst with
  | none => exact .none
  | some hagree =>
    cases hagree with
    | error fault h => exact nil (.some (.error fault h))
    | ok flow h =>
      cases flow with
      | next => exact hnext h
      | leave => exact nil (.some (.ok Flow.next h))
      | quit => exact nil (.some (.ok Flow.quit h))

theorem behind {r r' : Outcome Int64} {next : Int64 → Run} {later : Int64 → Trace} :
    Outcome.Agree (Tuned set) r r' →
    (∀ n {set m m'}, Tuned set m m' → Tunes (later n m) set (next n m) (next n m')) →
    Tunes (match r with | .error _ _ => [] | .ok n m => later n m) set
      (match r with | .error fault m => some (.error fault m) | .ok n m => next n m)
      (match r' with | .error fault m => some (.error fault m) | .ok n m => next n m) := by
  intro h hnext
  cases h with
  | error fault h => exact nil (.some (.error fault h))
  | ok n h => exact hnext n h

end Sequence

end Tunes

/-- A run, with its trace, in two machines. -/
def Run.Tunes (trace : Trace) (run : Run) : Prop :=
  ∀ ⦃set : Prop⦄ ⦃m m' : Machine⦄, Tuned set m m' →
    ForthMachine.Tunes (trace m) set (run m) (run m')

namespace Run.Tunes

variable {trace first second : Trace} {pass condition body : Run}

theorem nested (limit : Option Nat) (h : Run.Tunes trace pass) :
    Run.Tunes (traceNested limit trace) (ForthMachine.nested limit pass) := by
  intro set m m' hm
  unfold traceNested ForthMachine.nested
  rw [hm.read (·.depth) fun _ _ => rfl]
  split
  · exact .nil (.some (.error .tooDeep hm))
  · have hdeeper : Tuned set { m with depth := m.depth + 1 } { m' with depth := m.depth + 1 } :=
      hm.change ({ · with depth := m.depth + 1 }) (fun _ _ => rfl) fun _ => rfl
    have hinner := h hdeeper
    generalize pass { m with depth := m.depth + 1 } = o at hinner ⊢
    generalize pass { m' with depth := m.depth + 1 } = o' at hinner ⊢
    have hback {set : Prop} {m m' : Machine} (hm : Tuned set m m') :
        Tuned set { m with depth := m.depth - 1 } { m' with depth := m'.depth - 1 } :=
      hm.change (fun m => { m with depth := m.depth - 1 }) (fun _ _ => rfl) fun _ => rfl
    cases hinner with
    | none => exact .none
    | some hagree =>
      cases hagree with
      | error fault h => exact .some (.error fault (hback h))
      | ok flow h => exact .some (.ok flow (hback h))

theorem withIndex (index : Int64) (h : Run.Tunes trace pass) :
    Run.Tunes (fun m => (trace { m with returns := .value index :: m.returns }).map
      (.inside (.counted index))) (ForthMachine.withIndex index pass) := by
  intro set m m' hm
  apply ForthMachine.Tunes.map_inside
  have hpushed : Tuned set { m with returns := .value index :: m.returns }
      { m' with returns := .value index :: m'.returns } :=
    hm.change (fun m => { m with returns := .value index :: m.returns }) (fun _ _ => rfl)
      fun _ => rfl
  have hinner := h hpushed
  unfold ForthMachine.withIndex
  generalize trace { m with returns := .value index :: m.returns } = events at hinner ⊢
  generalize pass { m with returns := .value index :: m.returns } = o at hinner ⊢
  generalize pass { m' with returns := .value index :: m'.returns } = o' at hinner ⊢
  cases hinner with
  | none => exact .none
  | some hagree =>
    cases hagree with
    | error fault h => exact .some (.error fault h)
    | @ok m₁ m₁' flow h =>
      have hpop := (tuned_lockstep _).popReturn trivial _ _ h
      dsimp only
      generalize popReturn m₁ = result at hpop ⊢
      generalize popReturn m₁' = result' at hpop ⊢
      cases hpop with
      | error fault h => exact .some (.error fault h)
      | ok n h => exact .some (.ok flow h)

theorem size (step : Step) (set : Prop) : Action.Agrees (Tuned set) step.size := by
  cases step with
  | fixed n => exact fun _ _ h => .ok n h
  | fromStack => exact (tuned_lockstep set).pop

theorem countedLoop (h : Run.Tunes trace pass) (step : Step) (limit : Int64) (passes : Nat)
    (index : Int64) :
    Run.Tunes (traceCounted pass trace step limit passes index)
      (ForthMachine.countedLoop pass step limit passes index) := by
  induction passes generalizing index with
  | zero =>
    intro set m m' hm
    simp only [traceCounted, ForthMachine.countedLoop]
    split
    · exact .none
    · exact .nil (.some (.ok Flow.next hm))
  | succ passes ih =>
    intro set m m' hm
    simp only [traceCounted, ForthMachine.countedLoop]
    split
    · refine (h.withIndex index hm).andThenInLoop fun {set₁ m₁ m₁'} hm₁ => ?_
      refine ForthMachine.Tunes.behind (size step set₁ m₁ m₁' hm₁) fun size set₂ m₂ m₂' hm₂ => ?_
      cases addInRange? index size with
      | none => exact .nil (.some (.ok Flow.next hm₂))
      | some next => exact ih next hm₂
    · exact .nil (.some (.ok Flow.next hm))

theorem indefiniteLoop (hcondition : Run.Tunes first condition) (hbody : Run.Tunes second body)
    (passes : Nat) :
    Run.Tunes (traceIndefinite condition body first second passes)
      (ForthMachine.indefiniteLoop condition body passes) := by
  induction passes with
  | zero => exact fun _ _ _ _ => .none
  | succ passes ih =>
    intro set m m' hm
    simp only [traceIndefinite, ForthMachine.indefiniteLoop]
    refine (hcondition hm).map_inside.andThenInLoop fun {set₁ m₁ m₁'} hm₁ => ?_
    have hpop := (tuned_lockstep set₁).pop m₁ m₁' hm₁
    refine ForthMachine.Tunes.behind hpop fun goOn set₂ m₂ m₂' hm₂ => ?_
    split
    · exact .nil (.some (.ok Flow.next hm₂))
    · exact (hbody hm₂).map_inside.andThenInLoop fun hm₃ => ih hm₃

end Run.Tunes

/-- The primitive sets the level to the number that it finds, whatever the level was. -/
theorem setLevel_tunes {serial : Nat} {name : String} {p : Primitive} {set : Prop} {m m' : Machine}
    (hsets : Event.SetsLevel ⟨.call ⟨serial, name, .primitive p⟩, m, []⟩) (h : Tuned set m m') :
    Outcome.Agree (Tuned True) (p.run m) (p.run m') := by
  obtain ⟨rfl, n, cells, hstack⟩ := hsets
  obtain ⟨log, -, rfl⟩ := h
  have hrun {m : Machine} (hstack : m.stack = .value n :: cells) :
      Primitive.setLevel.run m = .ok .next
        ({ m with stack := cells, log := { m.log with level := Level.ofNumber n } }.note
          ⟨.info, "DBG", "message level", some (.level (Level.ofNumber n))⟩) :=
    Action.bind_of_ok (Action.bind_of_ok (pop_of_value hstack))
  rw [hrun hstack, hrun (m := { m with log }) hstack]
  refine .ok _ ⟨_, ?_, rfl⟩
  intro _
  simp only [Machine.note, Log.add_level]

theorem primitive_tunes {serial : Nat} {name : String} {p : Primitive} {set : Prop}
    {m m' : Machine} (entry entry' : Entry) (h : Tuned set m m') :
    Tunes [⟨.call ⟨serial, name, .primitive p⟩, m, []⟩] set (some (p.run (m.note entry)))
      (some (p.run (m'.note entry'))) := by
  have hnoted := h.note entry entry'
  by_cases hsets : Event.SetsLevel ⟨.call ⟨serial, name, .primitive p⟩, m, []⟩
  · have hagree := setLevel_tunes (m := m.note entry) hsets hnoted
    exact .some (hagree.mono (·.mono fun _ => trivial))
  · refine (Tunes.nil (.some ?_)).cons hsets
    exact (tuned_lockstep set).primitive (fun _ => trivial) _ _ hnoted

section Runs

variable (bounds : Bounds)

mutual

theorem runToken_tunes : ∀ token : Token,
    Run.Tunes (traceToken bounds token) (runToken bounds token)
  | .number n, set, m, m', hm => by
    have hpushed := (tuned_lockstep set).push n m m' hm
    cases hpushed with
    | ok _ h => exact (Tunes.nil (.some (.ok Flow.next h))).cons And.left
  | .call word, _, _, _, hm => callWord_tunes word hm
  | .unresolved name, _, _, _, hm =>
    (Tunes.nil (.some (.error (.undefinedWord name) hm))).cons And.left
  | .counted body step, set, m, m', hm => by
    have hlimits := (tuned_lockstep set).popValues 2 m m' hm
    simp only [traceToken, runToken]
    refine Tunes.cons ?_ And.left
    generalize popValues 2 m = result at hlimits ⊢
    generalize popValues 2 m' = result' at hlimits ⊢
    cases hlimits with
    | error fault h => exact .nil (.some (.error fault h))
    | ok limits h => exact ((runTokens_tunes body).nested _).countedLoop step _ _ _ h
  | .branch ifTrue ifFalse, set, m, m', hm => by
    have hchoice := (tuned_lockstep set).pop m m' hm
    simp only [traceToken, runToken]
    refine Tunes.cons (Tunes.behind hchoice fun choice _ _ _ h => ?_) And.left
    split
    · exact (runTokens_tunes ifTrue).nested _ h
    · exact (runTokens_tunes ifFalse).nested _ h
  | .indefinite condition body, _, _, _, hm =>
    (((runTokens_tunes condition).nested _).indefiniteLoop ((runTokens_tunes body).nested _) _
      hm).cons And.left
  | .leave, _, _, _, hm => (Tunes.nil (.some (.ok Flow.leave hm))).cons And.left
termination_by structural token => token

theorem callWord_tunes : ∀ word : Word,
    Run.Tunes (traceToken bounds (.call word)) (callWord bounds word)
  | ⟨serial, name, behavior⟩, _, _, _, hm =>
    runBehavior_tunes serial name behavior hm
termination_by structural word => word

theorem runBehavior_tunes (serial : Nat) (name : String) : ∀ behavior : Behavior,
    ∀ {set : Prop} {m m' : Machine}, Tuned set m m' →
      Tunes (traceToken bounds (.call ⟨serial, name, behavior⟩) m) set
        (runBehavior bounds name behavior (m.note ⟨.debug, "call", name, some (.number m.depth)⟩))
        (runBehavior bounds name behavior
          (m'.note ⟨.debug, "call", name, some (.number m'.depth)⟩))
  | .primitive _, _, _, _, hm => primitive_tunes _ _ hm
  | .definition body, _, _, _, hm =>
    ((runTokens_tunes body).nested _ (hm.note _ _)).cons And.left
  | .structural _, _, _, _, hm =>
    (Tunes.nil (.some (.error .compileOnly (hm.note _ _)))).cons And.left
  | .readAhead _, _, _, _, hm =>
    (Tunes.nil (.some (.error (.unknownToken name) (hm.note _ _)))).cons And.left
  | .comment _, _, _, _, hm =>
    (Tunes.nil (.some (.error (.unknownToken name) (hm.note _ _)))).cons And.left
termination_by structural behavior => behavior

theorem runTokens_tunes : ∀ tokens : List Token,
    Run.Tunes (traceTokens bounds tokens) (runTokens bounds tokens)
  | [], _, _, _, hm => .nil (.some (.ok Flow.next hm))
  | token :: tokens, _, m, m', hm => by
    simp only [traceTokens, runTokens]
    exact (runToken_tunes token hm).andThen fun h => runTokens_tunes tokens h
termination_by structural tokens => tokens

end

end Runs

theorem Tunes.outsideLoops {events : List Event} {set : Prop} {o o' : Option (Outcome Flow)}
    (h : Tunes events set o o') :
    Tunes events set (o.map ForthMachine.outsideLoops) (o'.map ForthMachine.outsideLoops) := by
  cases h with
  | none => exact .none
  | some hagree =>
    cases hagree with
    | error fault h => exact .some (.error fault h)
    | ok flow h =>
      cases flow with
      | leave => exact .some (.error .notLooping h)
      | next | quit => exact .some (.ok _ h)

theorem dispatch_tunes (bounds : Bounds) (word : String) :
    Run.Tunes (traceDispatch bounds word) (dispatch bounds word) := by
  intro set m m' hm
  have hall : Option.Rel (Outcome.Agree (Tuned set)) (dispatch bounds word m)
      (dispatch bounds word m') := dispatch_logApart (fun _ _ => rfl) bounds word hm
  unfold traceDispatch
  cases hmode : m.mode with
  | compile => exact .nil hall
  | immediate =>
    cases htoken : classify m.dictionary word with
    | call entry =>
      by_cases hruns : entry.behavior.Runs
      · have hmode' : m'.mode = .immediate := by
          rwa [hm.read (·.mode) fun _ _ => rfl]
        have htoken' : classify m'.dictionary word = .call entry := by
          rwa [hm.read (·.dictionary) fun _ _ => rfl]
        rw [dispatch_of_immediate hmode, dispatch_of_immediate hmode', htoken, htoken',
          interpret_call_of_runs bounds hruns, interpret_call_of_runs bounds hruns]
        exact (callWord_tunes bounds entry hm).outsideLoops
      · obtain ⟨serial, name, behavior⟩ := entry
        cases behavior with
        | primitive _ | definition _ => exact absurd trivial hruns
        | structural _ | readAhead _ | comment _ => exact (Tunes.nil hall).cons And.left
    | number _ | unresolved _ | counted _ _ | branch _ _ | indefinite _ _ | leave =>
      exact (Tunes.nil hall).cons And.left

theorem runWords_tunes (bounds : Bounds) (count : Nat) :
    Run.Tunes (traceWords bounds count) (runWords bounds count) := by
  induction count with
  | zero => exact fun _ _ _ hm => .nil (.some (.ok Flow.next hm))
  | succ count ih =>
    intro set m m' hm
    have hreading (text : List Char) :
        Tuned set { m with input := text } { m' with input := text } :=
      hm.change ({ · with input := text }) (fun _ _ => rfl) fun _ => rfl
    have hinput : m'.input = m.input := hm.read (·.input) fun _ _ => rfl
    rcases hnext : Text.nextWord m.input with ⟨word, rest⟩
    cases word with
    | none =>
      have hnil := Text.nextWord_of_words_nil (Text.words_of_nextWord_none hnext)
      rw [traceWords_of_none bounds count hnil, runWords_of_none bounds count hnil,
        runWords_of_none bounds count (hinput ▸ hnil)]
      exact .nil (.some (.ok Flow.next (hreading [])))
    | some word =>
      rw [traceWords_of_nextWord bounds count hnext, runWords_succ bounds count hnext,
        runWords_succ bounds count (hinput ▸ hnext)]
      have hfirst := dispatch_tunes bounds word (hreading rest)
      generalize dispatch bounds word { m with input := rest } = o at hfirst ⊢
      generalize dispatch bounds word { m' with input := rest } = o' at hfirst ⊢
      apply Tunes.behindFirst
      cases hfirst with
      | none => exact .none
      | some hagree =>
        cases hagree with
        | error fault h => exact .nil (.some (.error fault h))
        | ok flow h =>
          cases flow with
          | quit => exact .nil (.some (.ok Flow.quit h))
          | next | leave => exact ih h

theorem runInput_tunes (bounds : Bounds) : Run.Tunes (traceInput bounds) (runInput bounds) := by
  intro set m m' hm
  unfold runInput traceInput
  rw [hm.read (·.input) fun _ _ => rfl]
  exact runWords_tunes bounds _ hm

/-- Evaluates lines one after the other: their answers, and the machine behind the last of them. -/
def evaluateAll (bounds : Bounds) : Machine → List String → Option (List String × Machine)
  | m, [] => some ([], m)
  | m, line :: lines =>
    (evaluate bounds m line).bind fun (response, m) =>
      (evaluateAll bounds m lines).map fun (responses, m) => (response :: responses, m)

def traceLines (bounds : Bounds) : Machine → List String → List Event
  | _, [] => []
  | m, line :: lines =>
    traceInput bounds (m.reading line) ++
      match evaluate bounds m line with
      | some (_, m) => traceLines bounds m lines
      | none => []

theorem evaluateAll_tuned (bounds : Bounds) {set : Prop} {m m' : Machine} (h : Tuned set m m')
    (lines : List String) :
    Option.Rel
      (fun (responses, m₁) (responses', m₁') => responses' = responses ∧
        Tuned (set ∨ SetsLevel (traceLines bounds m lines)) m₁ m₁')
      (evaluateAll bounds m lines) (evaluateAll bounds m' lines) := by
  induction lines generalizing set m m' with
  | nil => exact .some ⟨rfl, h.mono (·.resolve_right not_setsLevel_nil)⟩
  | cons line lines ih =>
    have hrun := runInput_tunes bounds
      (h.change (·.reading line) (fun _ _ => rfl) fun _ => rfl)
    have hevaluate (m : Machine) :
        evaluate bounds m line = (runInput bounds (m.reading line)).map answer := rfl
    simp only [evaluateAll, traceLines, hevaluate]
    generalize traceInput bounds (m.reading line) = events at hrun ⊢
    generalize runInput bounds (m.reading line) = o at hrun ⊢
    generalize runInput bounds (m'.reading line) = o' at hrun ⊢
    cases hrun with
    | none => exact .none
    | @some outcome outcome' hagree =>
      obtain ⟨hresponse, hleft⟩ := answer_logApart hagree
      have hrest := ih hleft
      simp only [Option.map_some, Option.bind_some]
      generalize evaluateAll bounds (answer outcome).2 lines = left at hrest ⊢
      generalize evaluateAll bounds (answer outcome').2 lines = left' at hrest ⊢
      cases hrest with
      | none => exact .none
      | some hrest =>
        obtain ⟨hresponses, hlast⟩ := hrest
        refine .some ⟨List.cons_eq_cons.mpr ⟨hresponse, hresponses⟩, hlast.mono ?_⟩
        rw [setsLevel_append, ← or_assoc]
        exact id

/-- Whatever the levels of their logs, machines that are otherwise equal give the same answers to
any lines, and then differ at most in their logs; and if a call of `DBG` has found a number on the
stack, they have the same level. -/
theorem log_level_has_no_influence (bounds : Bounds) (m : Machine) (level : Level)
    (lines : List String) :
    Option.Rel
      (fun (responses, m₁) (responses', m₁') => responses' = responses ∧
        LogApart (fun level₁ level₁' => SetsLevel (traceLines bounds m lines) → level₁' = level₁)
          m₁ m₁')
      (evaluateAll bounds m lines)
      (evaluateAll bounds { m with log := { m.log with level } } lines) := by
  have hstart : Tuned False m { m with log := { m.log with level } } := ⟨_, nofun, rfl⟩
  have hall := evaluateAll_tuned bounds hstart lines
  simp only [Tuned, false_or] at hall
  exact hall

end ForthMachine
