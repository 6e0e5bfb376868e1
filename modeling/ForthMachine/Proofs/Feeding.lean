import ForthMachine.Proofs.Sessions

/-!
# Every line is fed once

Every source comes to an end. Its lines are evaluated in order, each of them once, up to the first
that ends the session, and no line is asked for behind that one. A sink that fails can neither
repeat a line nor skip one; a sink that does not fail takes all the responses.
-/

set_option autoImplicit false

namespace ForthMachine

open Machine

theorem Source.exists_handsOut (source : Source) : ∃ lines, source.HandsOut lines := by
  -- Every answer lowers the bound for the lines to come.
  induction hsize : source.size using Nat.strongRecOn generalizing source with
  | ind size ih =>
    rcases hnext : source.next with ⟨fetched, rest⟩
    cases hline : fetched.line with
    | none => exact ⟨[], .finished hnext hline⟩
    | some text =>
      have hsmaller : rest.size < size := by
        have hlt : source.next.2.size < source.size := by
          apply Source.size_next_lt
          rw [hnext, hline]
          rfl
        rwa [hnext, hsize] at hlt
      obtain ⟨lines, hlines⟩ := ih rest.size hsmaller rest rfl
      exact ⟨_, .line hnext hline hlines⟩

theorem Source.HandsOut.eq {source : Source} {lines lines' : List (String × Nat)}
    (h : source.HandsOut lines) (h' : source.HandsOut lines') : lines = lines' := by
  induction h generalizing lines' with
  | @finished source rest fetched next nothing =>
    cases h' with
    | finished next' nothing' => rfl
    | line next' handed' others' =>
      obtain ⟨rfl, rfl⟩ := Prod.mk.inj (next.symm.trans next')
      cases nothing.symm.trans handed'
  | @line source rest fetched text lines next handed others ih =>
    cases h' with
    | finished next' nothing' =>
      obtain ⟨rfl, rfl⟩ := Prod.mk.inj (next.symm.trans next')
      cases handed.symm.trans nothing'
    | line next' handed' others' =>
      obtain ⟨rfl, rfl⟩ := Prod.mk.inj (next.symm.trans next')
      obtain rfl := Option.some.inj (handed.symm.trans handed')
      rw [ih others']

def Sink.NeverFails {σ : Type} (sink : Sink σ) : Prop :=
  ∀ (text : String) (out : σ), (sink.write text out).1 = .ok () ∧ (sink.flush out).1 = .ok ()

def Sink.taking {σ : Type} (sink : Sink σ) : Sink (σ × List String) where
  draw text out := (sink.draw text out.1, out.2)
  write text out :=
    match sink.write text out.1 with
    | (.ok _, rest) => (.ok (), rest, out.2 ++ [text])
    | (.error reason, rest) => (.error reason, rest, out.2)
  flush out :=
    let (flushed, rest) := sink.flush out.1
    (flushed, rest, out.2)

theorem Sink.NeverFails.taking_eq {σ : Type} {sink : Sink σ} (h : sink.NeverFails) :
    sink.taking = sink.recording := by
  have hwrite : sink.taking.write = sink.recording.write := by
    funext text out
    have hok := (h text out.1).1
    rcases hwritten : sink.write text out.1 with ⟨written, rest⟩
    rw [hwritten] at hok
    cases hok
    simp only [taking, recording, hwritten]
  calc sink.taking = { sink.recording with write := sink.taking.write } := rfl
    _ = sink.recording := by rw [hwrite]

theorem reports_echoed (answered : List Answered) :
    reports true answered = answered.map fun line => line.response ++ "\n" := by
  induction answered with
  | nil => rfl
  | cons line others ih =>
    rw [reports_cons, ih]
    rfl

/-- However often the sink fails, the lines of the source are evaluated in order, up to the first
that ends the session, and the machine that is left differs at most in its log from the one that
only evaluates them. If responses are echoed to a sink that never fails, it takes all of them. -/
theorem every_line_is_fed_once {σ : Type} (bounds : Bounds) (sink : Sink σ) (m : Machine)
    (source : Source) (out : σ) :
    ∃ lines, source.HandsOut lines ∧
      (∀ echo, Option.Rel
        (fun (answered, m₁) (m₂, rest, _) =>
          LogApart Eq m₁ m₂ ∧ EndsAt source lines answered rest)
        (answerLines bounds m lines) (runLines bounds sink echo m source out)) ∧
      (sink.NeverFails →
        (runLines bounds sink.taking true m source (out, [])).map
            (fun (m, rest, out) => (m, rest, out.1)) = runLines bounds sink true m source out ∧
        Option.Rel
          (fun (answered, _) (_, _, _, taken) =>
            taken = answered.map fun line => line.response ++ "\n")
          (answerLines bounds m lines) (runLines bounds sink.taking true m source (out, []))) := by
  obtain ⟨lines, hsource⟩ := source.exists_handsOut
  refine ⟨lines, hsource, ?_, ?_⟩
  · intro echo
    have hgiven := runLines_answerLines bounds sink echo hsource (LogApart.refl (fun _ => rfl) m)
      (out, [])
    rw [← runLines_recording bounds sink echo hsource m (out, [])]
    generalize answerLines bounds m lines = left at hgiven ⊢
    generalize runLines bounds sink.recording echo m source (out, []) = left' at hgiven ⊢
    cases hgiven with
    | none => exact .none
    | some h =>
      obtain ⟨hmachine, -, hended⟩ := h
      exact .some ⟨hmachine, hended⟩
  · intro hnever
    have hgiven := runLines_answerLines bounds sink true hsource (LogApart.refl (fun _ => rfl) m)
      (out, [])
    rw [hnever.taking_eq]
    refine ⟨runLines_recording bounds sink true hsource m (out, []), ?_⟩
    refine rel_mono ?_ hgiven
    intro _ _ ⟨_, htaken, _⟩
    exact htaken.trans (reports_echoed _)

/-- The second of three lines ends the session, and the responses to two go to a sink that keeps
nothing. -/
theorem lines_up_to_bye_are_fed :
    ∃ m₂ rest, runLines { passes := 0 } (Sink.mk (fun _ _ => ()) (fun _ _ => (.ok (), ()))
        fun _ => (.ok (), ())).taking true Machine.new
        (.lines { content := .bytes "1 .\nBYE\n2 .\n".toUTF8.toList }) ((), []) =
      some (m₂, rest, (), ["1  ok\n", "\n"]) := by
  have hends : (answerLines { passes := 0 } Machine.new
      (LineSource.lines { content := .bytes "1 .\nBYE\n2 .\n".toUTF8.toList })).map
        (fun left => left.1.map Answered.response) = some ["1  ok", ""] := by
    decide +kernel
  obtain ⟨⟨answered, m₁⟩, hanswered, hresponses⟩ := Option.map_eq_some_iff.mp hends
  obtain ⟨lines, hsource, -, htaken⟩ := every_line_is_fed_once { passes := 0 }
    (Sink.mk (fun _ _ => ()) (fun _ _ => (.ok (), ())) fun _ => (.ok (), ())) Machine.new
    (.lines { content := .bytes "1 .\nBYE\n2 .\n".toUTF8.toList }) ()
  obtain ⟨-, htaken⟩ := htaken fun _ _ => ⟨rfl, rfl⟩
  obtain rfl := hsource.eq (LineSource.handsOut _)
  rw [hanswered] at htaken
  generalize runLines _ _ true Machine.new _ ((), []) = left at htaken ⊢
  cases htaken with
  | @some _ left htaken =>
    obtain ⟨m₂, rest, ⟨⟩, taken⟩ := left
    have hmap : answered.map (fun line => line.response ++ "\n") =
        (answered.map Answered.response).map (· ++ "\n") := by
      rw [List.map_map]
      rfl
    obtain rfl : taken = ["1  ok\n", "\n"] := by
      rw [htaken, hmap, hresponses]
      rfl
    exact ⟨m₂, rest, rfl⟩

end ForthMachine
