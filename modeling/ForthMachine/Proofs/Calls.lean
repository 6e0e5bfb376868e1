import ForthMachine.Proofs.Grammar
import ForthMachine.Proofs.Lockstep

/-!
# Calling a definition

A definition of plain words can be called, or its words can be evaluated on a line of their own.
The call runs its tokens one level deeper than the dispatcher runs the words, and otherwise the two
runs go in lockstep.
-/

set_option autoImplicit false

namespace ForthMachine

open Machine

/-- Everything that later lines can depend on, and the text printed so far. -/
structure SameState (m m' : Machine) : Prop where
  stack : m'.stack = m.stack
  returns : m'.returns = m.returns
  dictionary : m'.dictionary = m.dictionary
  mode : m'.mode = m.mode
  compiling : m'.compiling = m.compiling
  output : m'.output = m.output
  exiting : m'.exiting = m.exiting
  level : m'.log.level = m.log.level

/-- The same state, and no more runs under way in the second machine. -/
structure Alike (m m' : Machine) : Prop where
  state : SameState m m'
  depth : m'.depth ≤ m.depth

theorem SameState.changeLog {m m' : Machine} (h : SameState m m') {log log' : Log}
    (hlevel : log'.level = log.level) : SameState { m with log } { m' with log := log' } :=
  { h with level := hlevel }

theorem alike_lockstep (bounds : Bounds) : Lockstep (fun _ => True) bounds bounds Alike where
  passes := rfl
  room {m m'} h hroom := by
    cases hlimit : bounds.nesting with
    | none => simp
    | some limit =>
      have hdepth := h.depth
      simp only [hlimit, Option.any_some, decide_eq_true_eq] at hroom ⊢
      omega
  stack h := h.state.stack
  returns _ _ _ h := h.state.returns
  names _ _ _ h := by rw [h.state.dictionary]
  withStack cells h := ⟨{ h.state with stack := rfl }, h.depth⟩
  withReturns _ _ _ cells h := ⟨{ h.state with returns := rfl }, h.depth⟩
  print text h := ⟨{ h.state with output := congrArg (· ++ text) h.state.output }, h.depth⟩
  exit h := ⟨{ h.state with exiting := rfl }, h.depth⟩
  level level h := ⟨h.state.changeLog rfl, h.depth⟩
  note entry entry' h := by
    refine ⟨h.state.changeLog ?_, h.depth⟩
    rw [Log.add_level, Log.add_level]
    exact h.state.level
  deeper h := ⟨{ h.state with }, Nat.add_le_add_right h.depth 1⟩
  back h := ⟨{ h.state with }, Nat.sub_le_sub_right h.depth 1⟩

theorem interpret_of_plain (bounds : Bounds) {token : Token} (h : token.Plain) (m : Machine) :
    interpret bounds token m = (runToken bounds token m).map outsideLoops := by
  cases token with
  | number n => rfl
  | call word => exact interpret_call_of_runs bounds h m
  | unresolved name | counted body step | branch ifTrue ifFalse | indefinite condition body
  | leave => simp [Token.Plain] at h

theorem Alike.withInput {m m' : Machine} (h : Alike m m') (text : List Char) :
    Alike m { m' with input := text } :=
  ⟨{ h.state with }, h.depth⟩

theorem runTokens_follows (bounds : Bounds) {ws : List String} {m m' : Machine} (h : Alike m m')
    (hmode : m'.mode = .immediate) (hwords : Text.words m'.input = ws)
    (hplain : ∀ w ∈ ws, (classify m'.dictionary w).Plain) :
    Follows Alike ((runTokens bounds (ws.map (classify m'.dictionary)) m).map outsideLoops)
      (runInput bounds m') := by
  -- The machines stay alike from word to word.
  induction ws generalizing m m' with
  | nil =>
    rw [runInput_of_nil hwords]
    exact .agree (.ok Flow.next (h.withInput []))
  | cons w ws ih =>
    obtain ⟨text, hnext, htext⟩ := Text.nextWord_of_words_cons hwords
    have hw := hplain w List.mem_cons_self
    rw [runInput_of_nextWord hnext, dispatch_of_immediate (m := { m' with input := text }) hmode,
      interpret_of_plain bounds hw]
    simp only [List.map_cons, runTokens]
    have hfirst := (alike_lockstep bounds).runToken (classify m'.dictionary w) m _
      (h.withInput text)
    have hsame {o : Outcome Flow} := undisturbed_stepLaw.runToken bounds
      (classify m'.dictionary w) (m := { m' with input := text }) (o := o)
    generalize runToken bounds (classify m'.dictionary w) m = o at hfirst ⊢
    generalize runToken bounds (classify m'.dictionary w) { m' with input := text } = o'
      at hfirst hsame ⊢
    cases hfirst with
    | cut m o => exact .cut _ _
    | stuck => exact .stuck
    | agree hagree =>
      cases hagree with
      | error fault h => exact .agree (.error fault h)
      | @ok m₁ m₁' flow h =>
        cases flow with
        | leave => exact .agree (.error .notLooping h)
        | quit => exact .agree (.ok Flow.quit h)
        | next =>
          have hkept := hsame rfl
          have hdictionary : m₁'.dictionary = m'.dictionary := hkept.dictionary
          have hinput : m₁'.input = text := hkept.input
          have hrest := ih h (hkept.mode.trans hmode) (by rw [hinput, htext]) (by
            intro v hv
            rw [hdictionary]
            exact hplain v (List.mem_cons_of_mem w hv))
          rw [hdictionary] at hrest
          exact hrest

theorem runInput_of_definition (bounds : Bounds) {m : Machine} {name : String} {word : Word}
    {body : List Token} (hmode : m.mode = .immediate) (hwords : Text.words m.input = [name])
    (hclassify : classify m.dictionary name = .call word)
    (hbody : word.behavior = .definition body) :
    ∃ text entry, Text.words text = [] ∧
      runInput bounds m = ((nested bounds.nesting (runTokens bounds body)
        ({ m with input := text }.note entry)).map outsideLoops).bind (resume bounds) := by
  have hruns : word.behavior.Runs := by
    rw [hbody]
    trivial
  obtain ⟨text, hnext, htext⟩ := Text.nextWord_of_words_cons hwords
  have hrun := runInput_of_runs bounds hmode hnext hclassify hruns
  obtain ⟨serial, name', behavior⟩ := word
  cases hbody
  exact ⟨text, ⟨.debug, "call", name', some (.number m.depth)⟩, htext, hrun⟩

theorem follows_of_return {bounds : Bounds} {o o' : Option (Outcome Flow)}
    (h : Follows Alike (o.map outsideLoops) o')
    (hread : ∀ {flow m}, o = some (.ok flow m) → Text.words m.input = []) :
    Follows SameState (((o.map (Outcome.adjust fun m => { m with depth := m.depth - 1 })).map
      outsideLoops).bind (resume bounds)) o' := by
  have hback {m m' : Machine} (h : Alike m m') :
      SameState { m with depth := m.depth - 1 } m' := { h.state with }
  rcases o with - | ⟨flow, m⟩ | ⟨fault, m⟩
  · cases h
    exact .stuck
  · cases flow with
    | next =>
      cases h with
      | agree hagree =>
        cases hagree with
        | @ok _ m' _ h =>
          have hnil : Text.words m.input = [] := hread rfl
          have hend : runInput bounds { m with depth := m.depth - 1 } =
              some (.ok .next { m with input := [], depth := m.depth - 1 }) :=
            runInput_of_nil hnil
          change Follows SameState (runInput bounds { m with depth := m.depth - 1 }) _
          rw [hend]
          exact .agree (.ok Flow.next { h.state with })
    | leave =>
      cases h with
      | agree hagree =>
        cases hagree with
        | error _ h => exact .agree (.error .notLooping (hback h))
    | quit =>
      cases h with
      | agree hagree =>
        cases hagree with
        | ok _ h => exact .agree (.ok Flow.quit (hback h))
  · cases h with
    | cut m o => exact .cut _ _
    | agree hagree =>
      cases hagree with
      | error _ h => exact .agree (.error fault (hback h))

theorem call_follows (bounds : Bounds) {m m' : Machine} {name : String} {word : Word}
    {ws : List String} (h : Alike m m') (hmode : m.mode = .immediate)
    (hname : Text.words m.input = [name]) (hclassify : classify m.dictionary name = .call word)
    (hbody : word.behavior = .definition (ws.map (classify m.dictionary)))
    (hwords : Text.words m'.input = ws) (hplain : ∀ w ∈ ws, (classify m.dictionary w).Plain) :
    Follows SameState (runInput bounds m) (runInput bounds m') := by
  obtain ⟨text, entry, htext, hcall⟩ :=
    runInput_of_definition bounds hmode hname hclassify hbody
  rw [hcall]
  unfold nested
  split
  · exact .cut _ _
  · -- Inside the call there is one more run under way, and the log has one more entry.
    have halike : Alike { ({ m with input := text }.note entry) with depth := m.depth + 1 } m' :=
      ⟨{ h.state with level := h.state.level.trans (Log.add_level _ _).symm },
        Nat.le_succ_of_le h.depth⟩
    have hrun := runTokens_follows bounds halike (h.state.mode.trans hmode) hwords (by
      rw [h.state.dictionary]
      exact hplain)
    rw [h.state.dictionary] at hrun
    apply follows_of_return hrun
    intro flow m₁ ho
    rw [show m₁.input = text from (undisturbed_stepLaw.runTokens bounds _ ho).input]
    exact htext

/-- The run was cut off where it nested too deep. -/
def cutOff : Option (Outcome Flow) → Bool
  | some (.error .tooDeep _) => true
  | _ => false

/-- The same response, and the same state behind it. -/
structure SameAnswer (a a' : String × Machine) : Prop where
  text : a'.1 = a.1
  state : SameState a.2 a'.2

theorem answer_agree {o o' : Outcome Flow} (h : Outcome.Agree SameState o o') :
    SameAnswer (answer o) (answer o') := by
  cases h with
  | ok flow h =>
    refine ⟨?_, { h with output := rfl }⟩
    simp only [answer, h.output, h.mode]
  | error fault h =>
    refine ⟨?_, rfl, rfl, h.dictionary, rfl, rfl, rfl, h.exiting, ?_⟩
    · simp only [answer, h.output]
    · exact (Log.add_level _ _).trans (h.level.trans (Log.add_level _ _).symm)

section Defined

variable {dictionary : Dictionary} {limit : Nat} {ws : List String}

theorem piece_of_plain (hplain : ∀ w ∈ ws, (classify dictionary w).Plain) :
    Piece dictionary limit ws (ws.map (classify dictionary)) 0 := by
  induction ws with
  | nil => exact .nil
  | cons w ws ih =>
    have hfirst : Piece dictionary limit [w] [classify dictionary w] 0 :=
      .plain (hplain w List.mem_cons_self)
    exact hfirst.append (ih fun v hv => hplain v (List.mem_cons_of_mem w hv))

theorem defined_of_plain {m m' : Machine} {name : String} (bounds : Bounds)
    (hmode : m.mode = .immediate) (hcolon : m.dictionary.readAhead? ":" = some .colon)
    (hend : m.dictionary.structural? ";" = some .semicolon) (hname : Text.IsWord name)
    (hws : ∀ w ∈ ws, Text.IsWord w) (hplain : ∀ w ∈ ws, (classify m.dictionary w).Plain)
    (haccepted : evaluate bounds m (definitionLine name ws) = some (" ok", m')) :
    Defined m name (ws.map (classify m.dictionary)) m' := by
  have hwords := words_definitionLine hname hws
  have hpiece : Piece m.dictionary m.markLimit ws (ws.map (classify m.dictionary)) 0 :=
    piece_of_plain hplain
  cases hbody : bodyOf m.dictionary m.markLimit ws with
  | error fault =>
    obtain ⟨m₁, hline, -⟩ :=
      evaluate_of_bodyOf_error bounds hmode hcolon hend hwords hpiece.forDraft hbody
    rw [haccepted] at hline
    exact absurd (congrArg Prod.fst (Option.some.inj hline)).symm (fault_ne_ok _)
  | ok body =>
    obtain ⟨m₁, hline, hdefined, -⟩ :=
      evaluate_of_bodyOf bounds hmode hcolon hend hwords hpiece.forDraft hbody
    rw [haccepted] at hline
    obtain rfl : m' = m₁ := congrArg Prod.snd (Option.some.inj hline)
    have hbody' : body = ws.map (classify m.dictionary) := by
      unfold bodyOf at hbody
      split at hbody
      · rename_i hroom
        rw [hpiece.fits {} (by rw [Draft.length_marks_start]; omega)] at hbody
        cases hbody
        rfl
      · cases hbody
    rwa [hbody'] at hdefined

end Defined

theorem classify_install_of_ne {dictionary : Dictionary} {name w : String} (h : name ≠ w)
    (behavior : Behavior) :
    classify (dictionary.install name behavior) w = classify dictionary w := by
  unfold classify
  rw [dictionary.find?_install_of_ne behavior h]

/-- Once a definition of plain words is accepted, calling it and evaluating its words give the same
answer, unless the call nests too deep. -/
theorem call_answers_like_words {m m₁ : Machine} {name : String} {ws : List String} {passes : Nat}
    (hmode : m.mode = .immediate) (hcolon : m.dictionary.readAhead? ":" = some .colon)
    (hend : m.dictionary.structural? ";" = some .semicolon) (hname : Text.IsWord name)
    (hnumeral : ¬ Text.IsNumeral name) (hws : ∀ w ∈ ws, Text.IsWord w) (hne : name ∉ ws)
    (hplain : ∀ w ∈ ws, (classify m.dictionary w).Plain)
    (haccepted : evaluate { passes } m (definitionLine name ws) = some (" ok", m₁))
    (passes' : Nat)
    (hdeep : cutOff (runInput { passes := passes' }
      { m₁ with input := name.toList, output := "" }) = false) :
    Option.Rel SameAnswer (evaluate { passes := passes' } m₁ name)
      (evaluate { passes := passes' } m₁ (" ".intercalate ws)) := by
  have hdefined := defined_of_plain _ hmode hcolon hend hname hws hplain haccepted
  have hclassify : ∀ w ∈ ws, classify m₁.dictionary w = classify m.dictionary w := by
    intro w hw
    have hname' : name ≠ w := by
      rintro rfl
      exact hne hw
    rw [hdefined.dictionary]
    exact classify_install_of_ne hname' _
  have hcall : classify m₁.dictionary name = .call ⟨m.dictionary.installed, name,
      .definition (ws.map (classify m.dictionary))⟩ := by
    rw [hdefined.dictionary]
    exact classify_of_not_isNumeral hnumeral (m.dictionary.find?_install_self name _)
  have hbody : ws.map (classify m₁.dictionary) = ws.map (classify m.dictionary) :=
    List.map_congr_left hclassify
  have hsame : Alike { m₁ with input := name.toList, output := "" }
      { m₁ with input := (" ".intercalate ws).toList, output := "" } :=
    ⟨⟨rfl, rfl, rfl, rfl, rfl, rfl, rfl, rfl⟩, Nat.le_refl _⟩
  have hfollows := call_follows { passes := passes' } hsame hdefined.mode
    (Text.words_toList hname) hcall (by rw [← hbody]) (Text.words_intercalate hws) (by
      intro w hw
      exact (hclassify w hw) ▸ hplain w hw)
  unfold evaluate
  generalize runInput { passes := passes' } { m₁ with input := name.toList, output := "" } = o
    at hfollows hdeep ⊢
  generalize runInput { passes := passes' }
    { m₁ with input := (" ".intercalate ws).toList, output := "" } = o' at hfollows ⊢
  cases hfollows with
  | cut m' o => cases hdeep
  | stuck => exact .none
  | agree hagree => exact .some (answer_agree hagree)

/-- Words that print, and then divide by zero. -/
theorem call_answers_like_failing_words :
    ∃ m₁, evaluate { passes := 0 } Machine.new ": W 7 DUP . 0 / ;" = some (" ok", m₁) ∧
      Option.Rel SameAnswer (evaluate { passes := 0 } m₁ "W")
        (evaluate { passes := 0 } m₁ "7 DUP . 0 /") := by
  have hline : (evaluate { passes := 0 } Machine.new
      (definitionLine "W" ["7", "DUP", ".", "0", "/"])).map (fun answered =>
        (answered.1, cutOff (runInput { passes := 0 }
          { answered.2 with input := "W".toList, output := "" }))) = some (" ok", false) := by
    decide +kernel
  obtain ⟨⟨text, m₁⟩, haccepted, hanswer⟩ := Option.map_eq_some_iff.mp hline
  obtain ⟨rfl, hdeep⟩ := Prod.mk.inj hanswer
  refine ⟨m₁, haccepted, ?_⟩
  exact call_answers_like_words rfl new_colon (new_structural .semicolon) (by decide) (by decide)
    (by decide) (by decide) (by decide +kernel) haccepted 0 hdeep

end ForthMachine
