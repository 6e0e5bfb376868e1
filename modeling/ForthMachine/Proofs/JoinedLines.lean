import ForthMachine.Proofs.Calls
import ForthMachine.Proofs.LongerLines

/-!
# Lines that are joined

A text may be cut into lines anywhere between two words, and comments may stand there. A line that
stops, with a fault or with the flow `quit`, is decided there: what is behind plays no part, neither
in its answer nor later. After a fault a machine answers like a new one with the same words.
-/

set_option autoImplicit false

namespace ForthMachine

open Machine

section Apart

variable {S : Level → Level → Prop} {printed : String} {behind : List Char} {m m' : Machine}

theorem Apart.reading (h : Apart S printed behind m m') (line : String) :
    Apart S "" [] (m.reading line) (m'.reading line) := by
  obtain ⟨log, hlevel, rfl⟩ := h
  exact ⟨log, hlevel, by simp [withTexts, Machine.reading]⟩

theorem apart_reading_append (hS : ∀ level, S level level) (m : Machine) (line behind : String) :
    Apart S "" behind.toList (m.reading line) (m.reading (line ++ behind)) :=
  ⟨m.log, hS _, by simp [withTexts, Machine.reading]⟩

/-- What the first machine has printed is as good as printed before. -/
theorem Apart.printedBefore (h : Apart S "" behind m m') :
    Apart S m.output behind { m with output := "" } m' := by
  obtain ⟨log, hlevel, rfl⟩ := h
  exact ⟨log, hlevel, by simp [withTexts]⟩

theorem Apart.sameState (h : Apart Eq "" behind m m') : SameState m m' := by
  obtain ⟨log, hlevel, rfl⟩ := h
  exact ⟨rfl, rfl, rfl, rfl, rfl, by simp [withTexts], rfl, hlevel.symm⟩

theorem Apart.both {m₁ : Machine} (h : Apart Eq printed behind m m₁)
    (h' : Apart Eq printed behind m m') : Apart Eq "" [] m₁ m' := by
  obtain ⟨log, hlevel, rfl⟩ := h
  obtain ⟨log', hlevel', rfl⟩ := h'
  exact ⟨log', hlevel.symm.trans hlevel', by simp [withTexts]⟩

/-- The two lines are answered alike, one of them behind what was printed before. -/
theorem answer_runInput_apart (bounds : Bounds) (h : Apart Eq printed [] m m') :
    Option.Rel SameAnswer
      (((runInput bounds m).map answer).map fun (response, m₁) => (printed ++ response, m₁))
      ((runInput bounds m').map answer) := by
  have hrun := runInput_apart (fun _ => rfl) bounds h
  generalize runInput bounds m = o at hrun ⊢
  generalize runInput bounds m' = o' at hrun ⊢
  cases hrun with
  | none => exact .none
  | some hagree =>
    obtain ⟨htext, hleft⟩ := answer_apart hagree
    exact .some ⟨htext, hleft.sameState⟩

end Apart

section Joined

variable {bounds : Bounds} {m : Machine} {o : Outcome Flow}

theorem answer_of_not_stops (h : ¬ o.Stops) :
    answer o = (o.machine.output ++ if o.machine.mode = .compile then " compiled" else " ok",
      { o.machine with output := "" }) := by
  cases o with
  | error fault m => exact absurd trivial h
  | ok flow m =>
    cases flow with
    | quit => exact absurd rfl h
    | next | leave => cases hmode : m.mode <;> simp [answer, hmode]

/-- Behind a line that does not stop the joined line goes on like a machine that reads what is
behind the blank. -/
theorem runInput_joined {line behind : String} {c : Char} {text : List Char}
    (hrun : runInput bounds (m.reading line) = some o) (hgoesOn : ¬ o.Stops)
    (hbehind : behind.toList = c :: text) (hc : Text.isBlank c = true)
    (hcloses : ∀ comment : Comment, comment.stop = c ∨ (m.reading line).Closes bounds comment) :
    ∃ m₁, Apart Eq "" [] { o.machine with input := text } m₁ ∧
      runInput bounds (m.reading (line ++ behind)) = runInput bounds m₁ := by
  cases o with
  | error fault m₁ => exact absurd trivial hgoesOn
  | ok flow m₁ =>
    have happend := apart_reading_append (S := Eq) (fun _ => rfl) m line behind
    rw [hbehind] at happend
    exact runInput_longer_of_next (fun _ => rfl) hc hrun hgoesOn hcloses happend

end Joined

/-- A line break behind a line changes nothing but that there are two answers for one. The first of
them is the text that was printed, and its ending. -/
theorem line_break_carries_no_meaning (bounds : Bounds) (m : Machine) {first : String}
    {o : Outcome Flow} (hrun : runInput bounds (m.reading first) = some o) (hgoesOn : ¬ o.Stops)
    (hcloses : (m.reading first).Closes bounds .paren) (second : String) :
    ∃ printed ending m₁, evaluate bounds m first = some (printed ++ ending, m₁) ∧
      ending = (if m₁.mode = .compile then " compiled" else " ok") ∧
      Option.Rel SameAnswer
        ((evaluate bounds m₁ second).map fun (response, m₂) => (printed ++ response, m₂))
        (evaluate bounds m (first ++ "\n" ++ second)) := by
  refine ⟨o.machine.output, _, { o.machine with output := "" }, ?_, rfl, ?_⟩
  · exact (congrArg (Option.map answer) hrun).trans (congrArg some (answer_of_not_stops hgoesOn))
  · have hcloses' (comment : Comment) :
        comment.stop = '\n' ∨ (m.reading first).Closes bounds comment := by
      cases comment with
      | paren => exact .inr hcloses
      | backslash => exact .inl rfl
    have hbehind : ("\n" ++ second).toList = '\n' :: second.toList := by simp
    obtain ⟨m₁, happart, hjoined⟩ :=
      runInput_joined hrun hgoesOn hbehind Text.isBlank_newline hcloses'
    have hanswers := answer_runInput_apart bounds happart.printedBefore
    rw [← hjoined] at hanswers
    rw [String.append_assoc]
    exact hanswers

/-- A definition that is begun in one line, with a comment behind it, and ended in the next. -/
theorem line_break_in_definition :
    ∃ printed ending m₁,
      evaluate { passes := 0 } Machine.new "4 . : SQ DUP \\ two of it" =
        some (printed ++ ending, m₁) ∧
      ending = (if m₁.mode = .compile then " compiled" else " ok") ∧
      Option.Rel SameAnswer
        ((evaluate { passes := 0 } m₁ "* ; 3 SQ . 0 /").map fun (response, m₂) =>
          (printed ++ response, m₂))
        (evaluate { passes := 0 } Machine.new
          ("4 . : SQ DUP \\ two of it" ++ "\n" ++ "* ; 3 SQ . 0 /")) := by
  have hline : (runInput { passes := 0 } (Machine.new.reading "4 . : SQ DUP \\ two of it")).map
      (fun o => decide o.Stops) = some false := by
    decide +kernel
  obtain ⟨o, hrun, hgoesOn⟩ := Option.map_eq_some_iff.mp hline
  exact line_break_carries_no_meaning _ _ hrun (of_decide_eq_false hgoesOn) (by decide +kernel) _

section Comments

variable {bounds : Bounds} {m : Machine} {c : Comment}

theorem runInput_of_comment (bounds : Bounds) (hc : m.dictionary.comment? c.name = some c)
    {skipped blanks text : List Char} (hstop : c.stop ∉ skipped)
    (hblanks : ∀ d ∈ blanks, Text.isBlank d = true)
    (hinput : m.input = c.name.toList ++ ' ' :: (skipped ++ c.stop :: (blanks ++ text))) :
    ∃ entry, runInput bounds m = runInput bounds { m.note entry with input := text } := by
  generalize hbehind : ' ' :: (skipped ++ c.stop :: (blanks ++ text)) = behind at hinput
  have hnext : Text.nextWord m.input = (some c.name, behind) := by
    rw [hinput, ← hbehind]
    exact Text.nextWord_append c.isWord_name (setsOff_cons Text.isBlank_space _)
  have hskip : c.skip behind = blanks ++ text := by
    have hspace : ' ' ≠ c.stop := by cases c <;> decide
    rw [c.skip_eq, ← hbehind, Text.splitAt_cons_of_ne hspace,
      Text.splitAt_append_of_not_mem hstop, Text.splitAt_cons_self]
  obtain ⟨entry, hdispatch⟩ :=
    dispatch_comment bounds (m := { m with input := behind }) (classify_comment hc)
  refine ⟨entry, ?_⟩
  rw [runInput_of_nextWord hnext, hdispatch, hskip]
  exact runInput_of_blanks hblanks rfl

/-- With a comment behind it, or without one, a line goes on with the same text. -/
theorem answers_of_comment {line behind : String} (rest : String) {o : Outcome Flow}
    (hrun : runInput bounds (m.reading line) = some o) (hgoesOn : ¬ o.Stops)
    (hcloses : ∀ c, (m.reading line).Closes bounds c)
    (hc : o.machine.dictionary.comment? c.name = some c) {skipped blanks : List Char}
    (hstop : c.stop ∉ skipped) (hblanks : ∀ d ∈ blanks, Text.isBlank d = true)
    (hbehind : behind.toList =
      ' ' :: (c.name.toList ++ ' ' :: (skipped ++ c.stop :: (blanks ++ rest.toList)))) :
    Option.Rel SameAnswer (evaluate bounds m (line ++ " " ++ rest))
      (evaluate bounds m (line ++ behind)) := by
  have hrest : (" " ++ rest).toList = ' ' :: rest.toList := by simp
  obtain ⟨m₁, happart, hjoined⟩ := runInput_joined hrun hgoesOn hrest Text.isBlank_space
    fun c => .inr (hcloses c)
  obtain ⟨m₂, happart', hjoined'⟩ := runInput_joined hrun hgoesOn hbehind Text.isBlank_space
    fun c => .inr (hcloses c)
  have hc' : m₂.dictionary.comment? c.name = some c := by
    rwa [happart'.read (·.dictionary) fun _ _ _ _ => rfl]
  have hinput : m₂.input = c.name.toList ++ ' ' ::
      (skipped ++ c.stop :: (blanks ++ rest.toList)) := by
    rw [happart'.input, List.append_nil]
  obtain ⟨entry, hcomment⟩ := runInput_of_comment bounds hc' hstop hblanks hinput
  have hanswers := answer_runInput_apart bounds
    (happart.both ((happart'.noteOther entry).sameInput rest.toList))
  rw [← hjoined, ← hcomment, ← hjoined'] at hanswers
  rw [String.append_assoc]
  simp only [String.empty_append, Option.map_id'] at hanswers
  exact hanswers

/-- Where the name of the comment still means it, a comment behind a line changes nothing. -/
theorem comment_is_transparent (bounds : Bounds) (m : Machine) {line : String} {o : Outcome Flow}
    (hrun : runInput bounds (m.reading line) = some o) (hgoesOn : ¬ o.Stops)
    (hcloses : ∀ c, (m.reading line).Closes bounds c) (text rest : String) :
    (o.machine.dictionary.comment? "(" = some .paren → ')' ∉ text.toList →
      Option.Rel SameAnswer (evaluate bounds m (line ++ " " ++ rest))
        (evaluate bounds m (line ++ " ( " ++ text ++ " ) " ++ rest))) ∧
    (o.machine.dictionary.comment? "\\" = some .backslash → '\n' ∉ text.toList →
      Option.Rel SameAnswer (evaluate bounds m (line ++ " " ++ rest))
        (evaluate bounds m (line ++ " \\ " ++ text ++ "\n" ++ rest))) := by
  constructor
  · intro hparen htext
    have hstop : Comment.paren.stop ∉ text.toList ++ [' '] := by
      simpa [Comment.stop] using htext
    have hblanks : ∀ d ∈ [' '], Text.isBlank d = true := by simp [Text.isBlank_space]
    have hbehind : (" ( " ++ text ++ " ) " ++ rest).toList = ' ' :: (Comment.paren.name.toList ++
        ' ' :: (text.toList ++ [' '] ++ Comment.paren.stop :: ([' '] ++ rest.toList))) := by
      simp [Comment.name, Comment.stop]
    simpa only [String.append_assoc] using
      answers_of_comment (c := .paren) rest hrun hgoesOn hcloses hparen hstop hblanks hbehind
  · intro hbackslash htext
    have hbehind : (" \\ " ++ text ++ "\n" ++ rest).toList = ' ' ::
        (Comment.backslash.name.toList ++
          ' ' :: (text.toList ++ Comment.backslash.stop :: ([] ++ rest.toList))) := by
      simp [Comment.name, Comment.stop]
    simpa only [String.append_assoc] using
      answers_of_comment (c := .backslash) rest hrun hgoesOn hcloses hbackslash htext (by simp)
        hbehind

/-- Two comments behind an open `IF`, with words in them that would end the definition. -/
theorem comment_in_open_if_is_transparent :
    ∃ o, runInput { passes := 0 } (Machine.new.reading ": MAGNITUDE DUP 0< IF") = some o ∧
      Option.Rel SameAnswer
        (evaluate { passes := 0 } Machine.new
          (": MAGNITUDE DUP 0< IF" ++ " " ++ "-1 * THEN ; -3 MAGNITUDE ."))
        (evaluate { passes := 0 } Machine.new
          (": MAGNITUDE DUP 0< IF" ++ " ( " ++ "THEN ; \n QUIT" ++ " ) " ++
            "-1 * THEN ; -3 MAGNITUDE .")) ∧
      Option.Rel SameAnswer
        (evaluate { passes := 0 } Machine.new
          (": MAGNITUDE DUP 0< IF" ++ " " ++ "-1 * THEN ; -3 MAGNITUDE ."))
        (evaluate { passes := 0 } Machine.new
          (": MAGNITUDE DUP 0< IF" ++ " \\ " ++ "( THEN ; 1 0 /" ++ "\n" ++
            "-1 * THEN ; -3 MAGNITUDE .")) := by
  have hline : (runInput { passes := 0 } (Machine.new.reading ": MAGNITUDE DUP 0< IF")).map
      (fun o => decide (¬ o.Stops ∧ o.machine.dictionary.comment? "(" = some .paren ∧
        o.machine.dictionary.comment? "\\" = some .backslash)) = some true := by
    decide +kernel
  obtain ⟨o, hrun, ho⟩ := Option.map_eq_some_iff.mp hline
  obtain ⟨hgoesOn, hparen, hbackslash⟩ := of_decide_eq_true ho
  have hcloses : ∀ c, (Machine.new.reading ": MAGNITUDE DUP 0< IF").Closes { passes := 0 } c := by
    intro c
    cases c <;> decide +kernel
  refine ⟨o, hrun, ?_, ?_⟩
  · exact (comment_is_transparent _ _ hrun hgoesOn hcloses _ _).1 hparen (by decide)
  · exact (comment_is_transparent _ _ hrun hgoesOn hcloses _ _).2 hbackslash (by decide)

/-- A line may give the name of a comment another meaning, and then no comment can follow it. -/
theorem comment_of_new_meaning_is_no_comment :
    Reachable Machine.new ∧ Machine.new.dictionary.comment? "(" = some .paren ∧
      Machine.new.dictionary.comment? "\\" = some .backslash ∧
      (∃ o, runInput { passes := 0 } (Machine.new.reading ": ( 1 ;") = some o ∧ ¬ o.Stops) ∧
      (∀ c, (Machine.new.reading ": ( 1 ;").Closes { passes := 0 } c) ∧
      ')' ∉ "".toList ∧
      ¬ Option.Rel SameAnswer (evaluate { passes := 0 } Machine.new (": ( 1 ;" ++ " " ++ ""))
        (evaluate { passes := 0 } Machine.new (": ( 1 ;" ++ " ( " ++ "" ++ " ) " ++ "")) := by
  have hline : (runInput { passes := 0 } (Machine.new.reading ": ( 1 ;")).map
      (fun o => decide o.Stops) = some false := by
    decide +kernel
  obtain ⟨o, hrun, hgoesOn⟩ := Option.map_eq_some_iff.mp hline
  refine ⟨.new, by decide +kernel, by decide +kernel, ⟨o, hrun, of_decide_eq_false hgoesOn⟩, ?_,
    by decide, ?_⟩
  · intro c
    cases c <;> decide +kernel
  · have hresponse : (evaluate { passes := 0 } Machine.new (": ( 1 ;" ++ " " ++ "")).map Prod.fst =
        some " ok" := by
      decide +kernel
    have hresponse' : (evaluate { passes := 0 } Machine.new
        (": ( 1 ;" ++ " ( " ++ "" ++ " ) " ++ "")).map Prod.fst =
          some " ? undefined word: )" := by
      decide +kernel
    intro hsame
    generalize evaluate { passes := 0 } Machine.new (": ( 1 ;" ++ " " ++ "") = answered
      at hresponse hsame
    generalize evaluate { passes := 0 } Machine.new (": ( 1 ;" ++ " ( " ++ "" ++ " ) " ++ "") =
      answered' at hresponse' hsame
    cases hsame with
    | none => cases hresponse
    | some hsame =>
      have htext := hsame.text
      rw [Option.some.inj hresponse, Option.some.inj hresponse'] at htext
      exact absurd htext (by decide)

end Comments

/-- A new machine, but for its words, its log level and whether the session is to end. -/
def Machine.newWith (dictionary : Dictionary) (exiting : Bool) (level : Level) : Machine :=
  { Machine.new with dictionary, exiting, log := { level } }

/-- The answers to lines that are evaluated one after the other. -/
def answersTo (bounds : Bounds) : Machine → List String → Option (List String)
  | _, [] => some []
  | m, line :: lines =>
    (evaluate bounds m line).bind fun (response, m) =>
      (answersTo bounds m lines).map (response :: ·)

theorem answersTo_apart {S : Level → Level → Prop} (hS : ∀ level, S level level) (bounds : Bounds)
    {printed : String} {behind : List Char} {m m' : Machine} (h : Apart S printed behind m m')
    (lines : List String) : answersTo bounds m' lines = answersTo bounds m lines := by
  induction lines generalizing printed behind m m' with
  | nil => rfl
  | cons line lines ih =>
    have hrun := runInput_apart hS bounds (h.reading line)
    have hevaluate (m : Machine) :
        evaluate bounds m line = (runInput bounds (m.reading line)).map answer := rfl
    simp only [answersTo, hevaluate]
    generalize runInput bounds (m.reading line) = o at hrun ⊢
    generalize runInput bounds (m'.reading line) = o' at hrun ⊢
    cases hrun with
    | none => rfl
    | some hagree =>
      obtain ⟨htext, hleft⟩ := answer_apart hagree
      simp only [Option.map_some, Option.bind_some, ih hleft, htext, String.empty_append]

/-- What a fault leaves behind is a new machine, but for its log and the text it did not read. -/
theorem newWith_apart_of_error (fault : Fault) (m : Machine) {m₁ : Machine}
    (h : m₁ = (answer (.error fault m)).2) :
    Apart Eq "" m₁.input (Machine.newWith m₁.dictionary m₁.exiting m₁.log.level) m₁ := by
  refine ⟨m₁.log, rfl, ?_⟩
  subst h
  rfl

/-- A line that stops is not changed by what is behind it, and after a fault the machine is as good
as new. -/
theorem line_is_decided_where_it_stops (bounds : Bounds) (m : Machine) {line : String}
    {o : Outcome Flow} (hrun : runInput bounds (m.reading line) = some o) (hstops : o.Stops)
    (hname : o.fault? ≠ some .noNameGiven) (behind : String) :
    ∃ response m₁ m₂, evaluate bounds m line = some (response, m₁) ∧
      evaluate bounds m (line ++ " " ++ behind) = some (response, m₂) ∧ SameState m₁ m₂ ∧
      ∀ fault m', o = .error fault m' →
        response = m'.output ++ " ? " ++ fault.message ∧
        ∀ (bounds : Bounds) (lines : List String), answersTo bounds m₁ lines =
          answersTo bounds (Machine.newWith m₁.dictionary m₁.exiting m₁.log.level) lines := by
  have hbehind : (" " ++ behind).toList = ' ' :: behind.toList := by simp
  have happend := apart_reading_append (S := Eq) (fun _ => rfl) m line (" " ++ behind)
  rw [hbehind] at happend
  obtain ⟨o', hrun', hagree⟩ := runInput_longer_of_stops (fun _ => rfl)
    (setsOff_cons Text.isBlank_space _) hrun hstops hname happend
  obtain ⟨htext, hleft⟩ := answer_apart hagree
  refine ⟨(answer o).1, (answer o).2, (answer o').2, ?_, ?_, hleft.sameState, ?_⟩
  · exact congrArg (Option.map answer) hrun
  · rw [String.append_assoc, ← String.empty_append (s := (answer o).1), ← htext]
    exact congrArg (Option.map answer) hrun'
  · intro fault m' ho
    refine ⟨by rw [ho]; rfl, fun bounds lines => ?_⟩
    exact answersTo_apart (fun _ => rfl) bounds
      (newWith_apart_of_error fault m' (congrArg (fun o => (answer o).2) ho)) lines

/-- A loop in a definition fails in its second pass, with a value on each of the stacks. -/
theorem failing_loop_decides_line :
    ∃ response m₁ m₂,
      evaluate { passes := 2 } Machine.new ": F 2 0 DO I . 1 1 I - / . LOOP ; 7 DUP >R F" =
        some (response, m₁) ∧
      evaluate { passes := 2 } Machine.new
        (": F 2 0 DO I . 1 1 I - / . LOOP ; 7 DUP >R F" ++ " " ++ "( NONSENSE") =
          some (response, m₂) ∧
      SameState m₁ m₂ ∧ response = "0 1 1  ? division by zero" ∧
      answersTo { passes := 0 } m₁ [".S", ": F 1 ;", "F ."] =
        answersTo { passes := 0 } (Machine.newWith m₁.dictionary m₁.exiting m₁.log.level)
          [".S", ": F 1 ;", "F ."] := by
  have hline : (runInput { passes := 2 }
      (Machine.new.reading ": F 2 0 DO I . 1 1 I - / . LOOP ; 7 DUP >R F")).map
        (fun o => (o.fault?, o.machine.output)) = some (some .divisionByZero, "0 1 1 ") := by
    decide +kernel
  obtain ⟨o, hrun, ho⟩ := Option.map_eq_some_iff.mp hline
  cases o with
  | ok flow m' => exact absurd (congrArg Prod.fst ho) nofun
  | error fault m' =>
    obtain ⟨hfault, houtput⟩ := Prod.mk.inj ho
    obtain rfl : fault = .divisionByZero := Option.some.inj hfault
    obtain ⟨response, m₁, m₂, hanswer, hanswer', hsame, hend⟩ :=
      line_is_decided_where_it_stops _ _ hrun trivial (by simp [Outcome.fault?]) "( NONSENSE"
    obtain ⟨hresponse, hlater⟩ := hend _ _ rfl
    rw [show m'.output = "0 1 1 " from houtput] at hresponse
    exact ⟨response, m₁, m₂, hanswer, hanswer', hsame, hresponse, hlater _ _⟩

end ForthMachine
