import Mathlib.Data.List.Basic
import ForthMachine.Proofs.FileLines
import ForthMachine.Proofs.Logging

/-!
# Sessions

The machine answers the lines of a source one after the other, until they end or one of them ends
the session. Neither the sink that takes the answers nor the log has a part in this, so the answers
are those of the machine alone, and the sink is given the reports of some of them.
-/

set_option autoImplicit false

namespace ForthMachine

open Machine

/-- A line that was evaluated: its number, and what its evaluation came to. -/
structure Answered where
  number : Nat
  outcome : Outcome Flow

namespace Answered

def response (line : Answered) : String := (answer line.outcome).1

def failed (line : Answered) : Bool := line.outcome.fault?.isSome

def report (line : Answered) : String :=
  "line " ++ line.number.repr ++ ":" ++ line.response ++ "\n"

end Answered

/-- What a sink is given to write for the answers. -/
def reports (echo : Bool) (answered : List Answered) : List String :=
  answered.filterMap fun line => report? echo line.number line.response

@[simp] theorem reports_nil (echo : Bool) : reports echo [] = [] := rfl

@[simp] theorem reports_cons (echo : Bool) (line : Answered) (others : List Answered) :
    reports echo (line :: others) =
      (report? echo line.number line.response).toList ++ reports echo others := by
  unfold reports
  cases h : report? echo line.number line.response <;> simp [h]

/-- Evaluates lines up to the first that ends the session: how each of them ended, and the machine
that is left. -/
def answerLines (bounds : Bounds) (m : Machine) :
    List (String × Nat) → Option (List Answered × Machine)
  | [] => some ([], m)
  | (text, number) :: lines =>
    (runInput bounds (m.reading text)).bind fun outcome =>
      let m := (answer outcome).2
      if m.exiting then some ([{ number, outcome }], m)
      else (answerLines bounds m lines).map fun (others, m) => ({ number, outcome } :: others, m)

def Answered.ends (line : Answered) : Bool := (answer line.outcome).2.exiting

/-- What is left of the source, once it was asked for so many lines. -/
def Source.asked : Nat → Source → Source
  | 0, source => source
  | count + 1, source => asked count source.next.2

/-- How the lines of a source came to an end. The answer that ended the session is the last one, and
no line was asked for behind it; or else all lines were answered, and one more was asked for. -/
def EndsAt (source : Source) (lines : List (String × Nat)) (answered : List Answered)
    (rest : Source) : Prop :=
  (∃ before last, answered = before ++ [last] ∧ (∀ line ∈ before, line.ends = false) ∧
      last.ends = true ∧ rest = source.asked answered.length) ∨
    (∀ line ∈ answered, line.ends = false) ∧ answered.length = lines.length ∧
      rest = source.asked (lines.length + 1)

namespace EndsAt

variable {source rest left : Source} {fetched : Fetched} {lines : List (String × Nat)}
  {answered : List Answered} {line : Answered}

theorem nothing (next : source.next = (fetched, rest)) : EndsAt source [] [] rest := by
  right
  refine ⟨by simp, rfl, ?_⟩
  simp only [List.length_nil, Source.asked, next]

theorem last (next : source.next = (fetched, rest)) (hends : line.ends = true) :
    EndsAt source lines [line] rest := by
  left
  refine ⟨[], line, rfl, by simp, hends, ?_⟩
  simp only [List.length_singleton, Source.asked, next]

theorem cons (next : source.next = (fetched, rest)) (hends : line.ends = false)
    (h : EndsAt rest lines answered left) (text : String × Nat) :
    EndsAt source (text :: lines) (line :: answered) left := by
  have hasked (count : Nat) : source.asked (count + 1) = rest.asked count := by
    simp only [Source.asked, next]
  rcases h with ⟨before, last, rfl, hbefore, hlast, hrest⟩ | ⟨hnone, hlength, hrest⟩
  · left
    refine ⟨line :: before, last, rfl, List.forall_mem_cons.mpr ⟨hends, hbefore⟩, hlast, ?_⟩
    rw [List.length_cons, hasked]
    exact hrest
  · right
    refine ⟨List.forall_mem_cons.mpr ⟨hends, hnone⟩, congrArg (· + 1) hlength, ?_⟩
    rw [List.length_cons, hasked]
    exact hrest

end EndsAt

/-- The sink, with a record of the texts it was given to write, whether it took them or not. -/
def Sink.recording {σ : Type} (sink : Sink σ) : Sink (σ × List String) where
  draw text out := (sink.draw text out.1, out.2)
  write text out :=
    let (written, rest) := sink.write text out.1
    (written, rest, out.2 ++ [text])
  flush out :=
    let (flushed, rest) := sink.flush out.1
    (flushed, rest, out.2)

@[simp] theorem Sink.recording_draw {σ : Type} (sink : Sink σ) (text : String)
    (out : σ × List String) : sink.recording.draw text out = (sink.draw text out.1, out.2) := rfl

section Delivering

variable {σ : Type} (bounds : Bounds) (sink : Sink σ) (echo : Bool)

theorem deliver_recording (report : Option String) (out : σ × List String) :
    deliver sink.recording report out =
      ((deliver sink report out.1).1, (deliver sink report out.1).2, out.2 ++ report.toList) := by
  cases report with
  | none => simp [deliver, Sink.recording]
  | some text =>
    rcases hwrite : sink.write text out.1 with ⟨written, rest⟩
    cases written <;> simp [deliver, Sink.recording, hwrite]

variable {bounds sink echo} {m : Machine} {source rest : Source} {fetched : Fetched} {out : σ}

theorem runLines_of_none (h : source.next = (fetched, rest)) (hline : fetched.line = none) :
    runLines bounds sink echo m source out =
      some (fetched.complaint.elim m m.note, rest, sink.draw fetched.shown out) := by
  obtain ⟨rfl, rfl⟩ : source.next.1 = fetched ∧ source.next.2 = rest := by simp [h]
  rw [runLines]
  split
  · rfl
  · rename_i line hsome
    cases hline.symm.trans hsome

theorem runLines_of_some {text : String} (h : source.next = (fetched, rest))
    (hline : fetched.line = some text) :
    runLines bounds sink echo m source out =
      (runInput bounds ((fetched.complaint.elim m m.note).reading text)).bind fun outcome =>
        let delivered := deliver sink (report? echo rest.number (answer outcome).1)
          (sink.draw fetched.shown out)
        let m := noteFailure (answer outcome).2 delivered.1
        if m.exiting then some (m, rest, delivered.2)
        else runLines bounds sink echo m rest delivered.2 := by
  obtain ⟨rfl, rfl⟩ : source.next.1 = fetched ∧ source.next.2 = rest := by simp [h]
  rw [runLines]
  split
  · rename_i hnone
    cases hline.symm.trans hnone
  · rename_i line hsome
    obtain rfl : line = text := Option.some.inj (hsome.symm.trans hline)
    rw [show evaluate bounds (source.next.1.complaint.elim m m.note) line =
      (runInput bounds ((source.next.1.complaint.elim m m.note).reading line)).map answer from rfl]
    cases runInput bounds ((source.next.1.complaint.elim m m.note).reading line) <;> rfl

theorem LogApart.complain {S : Level → Level → Prop} {m m' : Machine} (h : LogApart S m m')
    (complaint : Option Entry) : LogApart S m (complaint.elim m' m'.note) := by
  cases complaint with
  | none => exact h
  | some entry => exact h.noteOther entry

theorem LogApart.noted {S : Level → Level → Prop} {m m' : Machine} (h : LogApart S m m')
    (delivered : Except String Unit) : LogApart S m (noteFailure m' delivered) := by
  cases delivered with
  | ok _ => exact h
  | error reason => exact h.noteOther _

variable (bounds sink echo)

theorem runLines_recording {lines : List (String × Nat)} (hsource : source.HandsOut lines)
    (m : Machine) (out : σ × List String) :
    (runLines bounds sink.recording echo m source out).map
        (fun (m, rest, out) => (m, rest, out.1)) =
      runLines bounds sink echo m source out.1 := by
  induction hsource generalizing m out with
  | finished next nothing =>
    rw [runLines_of_none next nothing, runLines_of_none next nothing]
    rfl
  | line next handed others ih =>
    rw [runLines_of_some next handed, runLines_of_some next handed]
    cases runInput bounds _ with
    | none => rfl
    | some outcome =>
      simp only [Option.bind_some, deliver_recording, Sink.recording_draw]
      split
      · rfl
      · exact ih _ _

/-- The answers are those of the machine alone, whatever the sink does. The sink is given their
reports, and the source is asked for the lines that are answered. -/
theorem runLines_answerLines {lines : List (String × Nat)} (hsource : source.HandsOut lines)
    {m m' : Machine} (h : LogApart Eq m m') (out : σ × List String) :
    Option.Rel
      (fun (answered, m₁) (m₂, rest, out') => LogApart Eq m₁ m₂ ∧
        out'.2 = out.2 ++ reports echo answered ∧ EndsAt source lines answered rest)
      (answerLines bounds m lines) (runLines bounds sink.recording echo m' source out) := by
  induction hsource generalizing m m' out with
  | @finished source rest fetched next nothing =>
    rw [runLines_of_none next nothing]
    exact .some ⟨h.complain fetched.complaint, by simp, .nothing next⟩
  | @line source rest fetched text lines next handed others ih =>
    rw [runLines_of_some next handed, answerLines]
    have hstart : LogApart Eq (m.reading text)
        ((fetched.complaint.elim m' m'.note).reading text) :=
      (h.complain _).change (·.reading text) (fun _ _ => rfl) fun _ => rfl
    have hrun := runInput_logApart (fun _ => rfl) bounds hstart
    generalize runInput bounds (m.reading text) = o at hrun ⊢
    generalize runInput bounds ((fetched.complaint.elim m' m'.note).reading text) = o' at hrun ⊢
    cases hrun with
    | none => exact .none
    | @some outcome outcome' hagree =>
      obtain ⟨hresponse, hleft⟩ := answer_logApart hagree
      simp only [Option.bind_some, deliver_recording, Sink.recording_draw, hresponse]
      have hnoted := hleft.noted (deliver sink (report? echo rest.number (answer outcome).1)
        (sink.draw fetched.shown out.1)).1
      rw [hnoted.read (·.exiting) fun _ _ => rfl]
      split
      · rename_i hexiting
        exact .some ⟨hnoted, by simp [Answered.response], .last next hexiting⟩
      · rename_i hexiting
        have hends : Answered.ends { number := rest.number, outcome } = false :=
          Bool.eq_false_iff.mpr hexiting
        have hrest := ih hnoted ((deliver sink (report? echo rest.number (answer outcome).1)
          (sink.draw fetched.shown out.1)).2,
          out.2 ++ (report? echo rest.number (answer outcome).1).toList)
        generalize answerLines bounds (answer outcome).2 lines = s at hrest ⊢
        generalize runLines bounds sink.recording echo _ rest _ = r at hrest ⊢
        cases hrest with
        | none => exact .none
        | some hrest =>
          obtain ⟨hmachine, hgiven, hended⟩ := hrest
          exact .some ⟨hmachine, by simp [hgiven, Answered.response], .cons next hends hended _⟩

end Delivering

theorem runLines_of_answerLines {σ : Type} {bounds : Bounds} (sink : Sink σ) (echo : Bool)
    {m m₁ : Machine} {source : LineSource} (out : σ) {answered : List Answered}
    (hanswered : answerLines bounds m source.lines = some (answered, m₁)) :
    ∃ m₂ rest out',
      runLines bounds sink echo m (.lines source) out = some (m₂, rest, out') ∧
      runLines bounds sink.recording echo m (.lines source) (out, []) =
        some (m₂, rest, out', reports echo answered) := by
  have hgiven := runLines_answerLines bounds sink echo source.handsOut
    (LogApart.refl (fun _ => rfl) m) (out, [])
  have hkept := runLines_recording bounds sink echo source.handsOut m (out, [])
  rw [hanswered] at hgiven
  generalize runLines bounds sink.recording echo m (.lines source) (out, []) = loaded
    at hgiven hkept ⊢
  cases hgiven with
  | @some _ left hleft =>
    obtain ⟨m₂, rest, out', given⟩ := left
    obtain rfl : given = reports echo answered := hleft.2.1
    exact ⟨m₂, rest, out', hkept.symm, rfl⟩

theorem occursIn_iff {pattern text : List Char} :
    occursIn pattern text = true ↔ pattern <:+: text := by
  induction text with
  | nil => rw [occursIn, List.isEmpty_iff, List.infix_nil]
  | cons c text ih =>
    rw [occursIn, Bool.or_eq_true, List.isPrefixOf_iff_prefix, ih, List.infix_cons_iff]

theorem reportsFault_of_failed {line : Answered} (h : line.failed = true) :
    reportsFault line.response = true := by
  rcases line with ⟨number, _ | ⟨fault, m⟩⟩
  · cases h
  · refine occursIn_iff.mpr ⟨m.output.toList, fault.message.toList, ?_⟩
    simp only [Answered.response, answer, String.toList_append]

theorem reports_quietly (answered : List Answered) :
    reports false answered =
      (answered.filter fun line => reportsFault line.response).map Answered.report := by
  induction answered with
  | nil => rfl
  | cons line others ih =>
    cases h : reportsFault line.response <;> simp [ih, report?, h, Answered.report]

/-- The reports of the lines that failed, and of no others. -/
def failureReports (answered : List Answered) : List String :=
  (answered.filter Answered.failed).map Answered.report

theorem failed_sublist_marked (answered : List Answered) :
    (answered.filter Answered.failed).Sublist
      (answered.filter fun line => reportsFault line.response) :=
  List.monotone_filter_right answered fun _ => reportsFault_of_failed

theorem failureReports_sublist (answered : List Answered) :
    (failureReports answered).Sublist (reports false answered) := by
  rw [reports_quietly]
  exact (failed_sublist_marked answered).map _

theorem reports_eq_failureReports_iff (answered : List Answered) :
    reports false answered = failureReports answered ↔
      ∀ line ∈ answered, line.failed = false → reportsFault line.response = false := by
  rw [reports_quietly, failureReports]
  constructor
  · intro hsame line hline hfailed
    -- A sublist that is as long as the whole list is the whole list.
    have hfilter := (failed_sublist_marked answered).eq_of_length
      (by simpa using (congrArg List.length hsame).symm)
    cases hmarked : reportsFault line.response with
    | false => rfl
    | true =>
      have hmem : line ∈ answered.filter Answered.failed := by
        rw [hfilter]
        exact List.mem_filter.mpr ⟨hline, hmarked⟩
      cases hfailed.symm.trans (List.mem_filter.mp hmem).2
  · intro hplain
    congr 1
    refine List.filter_congr fun line hline => ?_
    cases hfailed : line.failed with
    | true => exact reportsFault_of_failed hfailed
    | false => exact hplain line hline hfailed

/-- Loading a file without an echo reports every line that failed, in order and under its number.
It reports nothing else exactly if no other line is answered with the mark of a fault. -/
theorem quiet_load_reports_failures {σ : Type} {bounds : Bounds} (sink : Sink σ) {m m₁ : Machine}
    {source : LineSource} (out : σ) {answered : List Answered}
    (hanswered : answerLines bounds m source.lines = some (answered, m₁)) :
    ∃ m₂ rest out' given,
      runLines bounds sink false m (.lines source) out = some (m₂, rest, out') ∧
      runLines bounds sink.recording false m (.lines source) (out, []) =
        some (m₂, rest, out', given) ∧
      (failureReports answered).Sublist given ∧
      (given = failureReports answered ↔
        ∀ line ∈ answered, line.failed = false → reportsFault line.response = false) := by
  obtain ⟨m₂, rest, out', hkept, hgiven⟩ := runLines_of_answerLines sink false out hanswered
  exact ⟨m₂, rest, out', _, hkept, hgiven, failureReports_sublist answered,
    reports_eq_failureReports_iff answered⟩

/-- The second line fails, and the first has nothing like a fault in its answer. -/
theorem quiet_load_reports_missing_opener :
    ∃ answered m₁, answerLines { passes := 0 } Machine.new
        (LineSource.lines { content := .bytes "1 2 +\n: BAD LOOP ;\n".toUTF8.toList }) =
          some (answered, m₁) ∧
      answered.map Answered.failed = [false, true] ∧
      ∃ m₂ rest out', runLines { passes := 0 } Page.sink.recording false Machine.new
        (.lines { content := .bytes "1 2 +\n: BAD LOOP ;\n".toUTF8.toList }) ({}, []) =
          some (m₂, rest, out', ["line 2: ? missing DO\n"]) := by
  have hends : (answerLines { passes := 0 } Machine.new
      (LineSource.lines { content := .bytes "1 2 +\n: BAD LOOP ;\n".toUTF8.toList })).map
        (fun left => decide (left.1.map Answered.failed = [false, true] ∧
          failureReports left.1 = ["line 2: ? missing DO\n"] ∧
          ∀ line ∈ left.1, line.failed = false → reportsFault line.response = false)) =
      some true := by
    decide +kernel
  obtain ⟨⟨answered, m₁⟩, hanswered, hchecked⟩ := Option.map_eq_some_iff.mp hends
  obtain ⟨hfailed, hreports, hplain⟩ := of_decide_eq_true hchecked
  obtain ⟨m₂, rest, out', given, -, hloaded, -, hexact⟩ :=
    quiet_load_reports_failures Page.sink {} hanswered
  obtain rfl : given = ["line 2: ? missing DO\n"] := (hexact.mpr hplain).trans hreports
  exact ⟨answered, m₁, hanswered, hfailed, m₂, rest, out', hloaded⟩

/-- A line that prints a blank and a question mark before its ` ok` is reported too. -/
theorem quiet_load_reports_printed_mark :
    ∃ answered m₁, answerLines { passes := 0 } Machine.new
        (LineSource.lines { content := .bytes "32 EMIT 63 EMIT\n".toUTF8.toList }) =
          some (answered, m₁) ∧
      answered.map Answered.failed = [false] ∧
      ∃ m₂ rest out', runLines { passes := 0 } Page.sink.recording false Machine.new
        (.lines { content := .bytes "32 EMIT 63 EMIT\n".toUTF8.toList }) ({}, []) =
          some (m₂, rest, out', ["line 1: ? ok\n"]) := by
  have hends : (answerLines { passes := 0 } Machine.new
      (LineSource.lines { content := .bytes "32 EMIT 63 EMIT\n".toUTF8.toList })).map
        (fun left => decide (left.1.map Answered.failed = [false] ∧
          reports false left.1 = ["line 1: ? ok\n"])) = some true := by
    decide +kernel
  obtain ⟨⟨answered, m₁⟩, hanswered, hchecked⟩ := Option.map_eq_some_iff.mp hends
  obtain ⟨hfailed, hreports⟩ := of_decide_eq_true hchecked
  obtain ⟨m₂, rest, out', -, hloaded⟩ := runLines_of_answerLines Page.sink false {} hanswered
  exact ⟨answered, m₁, hanswered, hfailed, m₂, rest, out', hreports ▸ hloaded⟩

end ForthMachine
