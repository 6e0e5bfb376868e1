import ForthMachine.Proofs.Apart

/-!
# Text behind a line

The words of a line are not changed by text behind it. Where the line stops, the longer line stops,
too, and the text behind it plays no part. Where the line comes to its end, the longer line goes on
with that text, unless a comment was left open.
-/

set_option autoImplicit false

namespace ForthMachine

open Machine

/-- No comment of this kind is left open by the words of the unread text. -/
def Machine.Closes (bounds : Bounds) (comment : Comment) (m : Machine) : Prop :=
  ∀ m₁ word rest, Advances bounds m m₁ → Text.nextWord m₁.input = (some word, rest) →
    (classify m₁.dictionary word).comment? = some comment → comment.stop ∈ rest

/-- The words that a line dispatches, each with the machine that it finds. -/
def dispatched (bounds : Bounds) : (count : Nat) → Machine → List (String × Machine)
  | 0, _ => []
  | count + 1, m =>
    match Text.nextWord m.input with
    | (none, _) => []
    | (some word, rest) =>
      (word, { m with input := rest }) ::
        match dispatch bounds word { m with input := rest } with
        | some (.ok .quit _) => []
        | some (.ok _ m) => dispatched bounds count m
        | _ => []

section Comments

variable {bounds : Bounds} {m m₁ : Machine} {word : String} {rest : List Char}

theorem dispatched_of_none (count : Nat) (h : Text.nextWord m.input = (none, rest)) :
    dispatched bounds count m = [] := by
  cases count with
  | zero => rfl
  | succ count =>
    rw [dispatched]
    split
    · rfl
    · rename_i hsome
      rw [h] at hsome
      cases hsome

theorem dispatched_of_nextWord (count : Nat) (h : Text.nextWord m.input = (some word, rest)) :
    dispatched bounds (count + 1) m =
      (word, { m with input := rest }) ::
        match dispatch bounds word { m with input := rest } with
        | some (.ok .quit _) => []
        | some (.ok _ m) => dispatched bounds count m
        | _ => [] := by
  rw [dispatched]
  split
  · rename_i hnone
    rw [h] at hnone
    cases hnone
  · rename_i hsome
    rw [h] at hsome
    cases hsome
    rfl

/-- A word that is read on the way is dispatched. The count only ends the recursion. -/
theorem Advances.mem_dispatched {count : Nat} (h : Advances bounds m m₁)
    (hcount : m.input.length ≤ count) (hnext : Text.nextWord m₁.input = (some word, rest)) :
    (word, { m₁ with input := rest }) ∈ dispatched bounds count m := by
  induction count generalizing m with
  | zero =>
    have hnil : m.input = [] := List.length_eq_zero_iff.mp (Nat.le_zero.mp hcount)
    rcases h.cases_first with rfl | ⟨first, text, flow, m₂, hfirst, -⟩
    · rw [hnil] at hnext
      cases hnext
    · rw [hnil] at hfirst
      cases hfirst
  | succ count ih =>
    rcases h.cases_first with rfl | ⟨first, text, flow, m₂, hfirst, htaken, hflow, hadvances⟩
    · rw [dispatched_of_nextWord count hnext]
      exact List.mem_cons_self
    · have hlt := Text.length_nextWord_lt hfirst
      have hle : m₂.input.length ≤ text.length := (dispatch_reads bounds first htaken).length_le
      rw [dispatched_of_nextWord count hfirst, htaken]
      refine List.mem_cons_of_mem _ ?_
      cases flow with
      | quit => exact absurd rfl hflow
      | next | leave => exact ih hadvances (by omega)

theorem advances_of_mem_dispatched {count : Nat} {found : String × Machine}
    (h : found ∈ dispatched bounds count m) :
    ∃ m₁ rest, Advances bounds m m₁ ∧ Text.nextWord m₁.input = (some found.1, rest) ∧
      found.2 = { m₁ with input := rest } := by
  induction count generalizing m with
  | zero => cases h
  | succ count ih =>
    rcases hnext : Text.nextWord m.input with ⟨word, rest⟩
    cases word with
    | none =>
      rw [dispatched_of_none _ hnext] at h
      cases h
    | some word =>
      rw [dispatched_of_nextWord count hnext] at h
      rcases List.mem_cons.mp h with rfl | h
      · exact ⟨m, rest, .refl, hnext, rfl⟩
      · rcases htaken : dispatch bounds word { m with input := rest } with
          - | ⟨flow, m₂⟩ | ⟨fault, m₂⟩
        · rw [htaken] at h
          cases h
        · rw [htaken] at h
          cases flow with
          | quit => cases h
          | next | leave =>
            obtain ⟨m₁, text, hadvances, hfound⟩ := ih h
            have hfirst : Advances bounds m m₂ := Advances.refl.word hnext htaken nofun
            exact ⟨m₁, text, hfirst.trans hadvances, hfound⟩
        · rw [htaken] at h
          cases h

theorem closes_iff {comment : Comment} :
    m.Closes bounds comment ↔ ∀ found ∈ dispatched bounds m.input.length m,
      (classify found.2.dictionary found.1).comment? = some comment →
        comment.stop ∈ found.2.input := by
  constructor
  · rintro h ⟨word, m₂⟩ hmem hcomment
    obtain ⟨m₁, rest, hadvances, hnext, rfl⟩ := advances_of_mem_dispatched hmem
    exact h m₁ word rest hadvances hnext hcomment
  · intro h m₁ word rest hadvances hnext hcomment
    exact h _ (hadvances.mem_dispatched (Nat.le_refl _) hnext) hcomment

instance (bounds : Bounds) (comment : Comment) (m : Machine) :
    Decidable (m.Closes bounds comment) :=
  decidable_of_iff _ closes_iff.symm

theorem dispatch_comment (bounds : Bounds) {comment : Comment}
    (h : (classify m.dictionary word).comment? = some comment) :
    ∃ entry, dispatch bounds word m =
      some (.ok .next { m.note entry with input := comment.skip m.input }) := by
  obtain ⟨entry, hcall, hbehavior⟩ := Token.call_of_comment? h
  unfold dispatch
  rw [hcall]
  cases m.mode with
  | immediate =>
    refine ⟨⟨.debug, "interpret", comment.name, none⟩, ?_⟩
    simp only [interpret, hbehavior]
    cases comment <;> rfl
  | compile =>
    refine ⟨⟨.debug, "compile", comment.name, none⟩, ?_⟩
    simp only [compile, hbehavior]
    cases comment <;> rfl

end Comments

section Longer

variable {S : Level → Level → Prop} (hS : ∀ level, S level level) {printed : String}
  {behind : List Char} {bounds : Bounds} {m m₁ m' : Machine} {word : String} {rest : List Char}

include hS in
/-- A word does the same with text behind it, unless it lacks a name or leaves a comment open. -/
theorem Apart.dispatch (h : Apart S printed behind m m') (hbehind : SetsOff behind)
    (hnext : Text.nextWord m.input = (some word, rest))
    (hfits : ∀ c, (classify m.dictionary word).comment? = some c → c.Fits rest behind)
    {o : Outcome Flow}
    (htaken : ForthMachine.dispatch bounds word { m with input := rest } = some o)
    (hname : o.fault? ≠ some .noNameGiven) :
    Text.nextWord m'.input = (some word, rest ++ behind) ∧
      ∃ o', ForthMachine.dispatch bounds word { m' with input := rest ++ behind } = some o' ∧
        Outcome.Agree (Apart S printed behind) o o' := by
  refine ⟨by rw [h.input]; exact Text.nextWord_append_of_some hnext hbehind, ?_⟩
  have hends := dispatch_endsApart hS bounds hbehind (m := { m with input := rest }) hfits
    (h.withInput rest)
  rw [htaken] at hends
  generalize ForthMachine.dispatch bounds word { m' with input := rest ++ behind } = result
    at hends ⊢
  cases hends with
  | excused hexcused m₁ =>
    obtain ⟨-, rfl⟩ := hexcused
    exact absurd rfl hname
  | ok flow h => exact ⟨_, rfl, .ok flow h⟩
  | error fault h => exact ⟨_, rfl, .error fault h⟩

include hS in
theorem Advances.longer (hbehind : SetsOff behind) (hadvances : Advances bounds m m₁)
    (hwords : Text.words m₁.input ≠ []) (h : Apart S printed behind m m') :
    ∃ m₁', Advances bounds m' m₁' ∧ Apart S printed behind m₁ m₁' := by
  induction hadvances with
  | refl => exact ⟨m', .refl, h⟩
  | @word m₂ m₁ word rest flow before read taken goesOn ih =>
    obtain ⟨m₂', hadvances', h₂⟩ := ih (by simp [Text.words_of_nextWord read])
    have hfits : ∀ c, (classify m₂.dictionary word).comment? = some c → c.Fits rest behind := by
      intro c hc
      refine .inr (Decidable.byContradiction fun hstop => ?_)
      obtain ⟨entry, hdispatch⟩ := dispatch_comment bounds (m := { m₂ with input := rest }) hc
      rw [hdispatch] at taken
      cases taken
      rw [c.skip_eq, Text.splitAt_eq_self hstop] at hwords
      exact hwords Text.words_nil
    have hname : Outcome.fault? (.ok flow m₁) ≠ some .noNameGiven := by simp [Outcome.fault?]
    obtain ⟨hnext', o', htaken', hagree⟩ := h₂.dispatch hS hbehind read hfits taken hname
    cases hagree with
    | ok flow h => exact ⟨_, hadvances'.word hnext' htaken' goesOn, h⟩

include hS in
theorem runInput_longer_of_stops (hbehind : SetsOff behind) {o : Outcome Flow}
    (hrun : runInput bounds m = some o) (hstops : o.Stops) (hname : o.fault? ≠ some .noNameGiven)
    (h : Apart S printed behind m m') :
    ∃ o', runInput bounds m' = some o' ∧ Outcome.Agree (Apart S printed behind) o o' := by
  obtain ⟨m₁, hadvances, ⟨word, rest, hnext, htaken, -⟩ | ⟨-, rfl⟩⟩ := runInput_cases hrun
  · have hfits : ∀ c, (classify m₁.dictionary word).comment? = some c → c.Fits rest behind := by
      intro c hc
      obtain ⟨entry, hdispatch⟩ := dispatch_comment bounds (m := { m₁ with input := rest }) hc
      rw [hdispatch] at htaken
      cases htaken
      cases hstops
    obtain ⟨m₁', hadvances', h₁⟩ :=
      hadvances.longer hS hbehind (by simp [Text.words_of_nextWord hnext]) h
    obtain ⟨hnext', o', htaken', hagree⟩ := h₁.dispatch hS hbehind hnext hfits htaken hname
    have hstops' : o'.Stops := by
      cases hagree with
      | ok flow h => exact hstops
      | error fault h => trivial
    refine ⟨o', ?_, hagree⟩
    rw [hadvances'.runInput_eq, runInput_of_nextWord hnext', htaken', Option.bind_some,
      resume_of_stops bounds hstops']
  · cases hstops

theorem runInput_of_blanks {blanks text : List Char} (hblanks : ∀ c ∈ blanks, Text.isBlank c = true)
    (hinput : m.input = blanks ++ text) :
    runInput bounds m = runInput bounds { m with input := text } := by
  rcases hnext : Text.nextWord text with ⟨word, rest⟩
  have hnext' : Text.nextWord m.input = (word, rest) := by
    rw [hinput, Text.nextWord_append_of_blanks hblanks, hnext]
  cases word with
  | none =>
    rw [runInput_of_nil (Text.words_of_nextWord_none hnext'),
      runInput_of_nil (Text.words_of_nextWord_none hnext)]
  | some word => rw [runInput_of_nextWord hnext', runInput_of_nextWord hnext]

variable {c : Char} {text : List Char}

theorem Apart.goesOn (hc : Text.isBlank c = true) (h : Apart S printed (c :: text) m m')
    (hwords : Text.words m.input = []) :
    ∃ m₁', Apart S printed [] { m with input := text } m₁' ∧
      runInput bounds m' = runInput bounds m₁' := by
  have hblanks : ∀ d ∈ m.input ++ [c], Text.isBlank d = true := by
    intro d hd
    rcases List.mem_append.mp hd with hd | hd
    · exact Text.words_eq_nil_iff.mp hwords d hd
    · rw [List.mem_singleton.mp hd]
      exact hc
  obtain ⟨log, hlevel, rfl⟩ := h
  refine ⟨m.withTexts log (printed ++ m.output) text, ⟨log, hlevel, by simp [withTexts]⟩, ?_⟩
  exact runInput_of_blanks hblanks (by simp [withTexts])

theorem Apart.goesOn_of_comment {comment : Comment} (h : Apart S printed (c :: text) m m')
    (hnext : Text.nextWord m.input = (some word, rest)) (hc : Text.isBlank c = true)
    (hcomment : (classify m.dictionary word).comment? = some comment)
    (hopen : comment.stop ∉ rest) (hstop : comment.stop = c) {flow : Flow}
    (htaken : ForthMachine.dispatch bounds word { m with input := rest } = some (.ok flow m₁)) :
    ∃ m₁', Apart S printed [] { m₁ with input := text } m₁' ∧
      runInput bounds m' = runInput bounds m₁' := by
  obtain ⟨entry, hdispatch⟩ := dispatch_comment bounds (m := { m with input := rest }) hcomment
  rw [hdispatch] at htaken
  cases htaken
  have hnext' : Text.nextWord m'.input = (some word, rest ++ c :: text) := by
    rw [h.input]
    exact Text.nextWord_append_of_some hnext (setsOff_cons hc text)
  have hcomment' : (classify m'.dictionary word).comment? = some comment := by
    rwa [h.read (·.dictionary) fun _ _ _ _ => rfl]
  obtain ⟨entry', hdispatch'⟩ :=
    dispatch_comment bounds (m := { m' with input := rest ++ c :: text }) hcomment'
  have hskip : comment.skip (rest ++ c :: text) = text := by
    rw [comment.skip_eq, Text.splitAt_append_of_not_mem hopen, hstop, Text.splitAt_cons_self]
  refine ⟨_, (h.note entry entry').sameInput text, ?_⟩
  rw [runInput_of_nextWord hnext', hdispatch', hskip]
  rfl

include hS in
theorem runInput_longer_of_next (hc : Text.isBlank c = true) {flow : Flow}
    (hrun : runInput bounds m = some (.ok flow m₁)) (hflow : flow ≠ .quit)
    (hcloses : ∀ comment : Comment, comment.stop = c ∨ m.Closes bounds comment)
    (h : Apart S printed (c :: text) m m') :
    ∃ m₁', Apart S printed [] { m₁ with input := text } m₁' ∧
      runInput bounds m' = runInput bounds m₁' := by
  obtain ⟨m₂, hadvances, ⟨word, rest, -, -, hstops⟩ | ⟨hwords, hend⟩⟩ := runInput_cases hrun
  · exact absurd hstops hflow
  · cases hend
    change ∃ m₁', Apart S printed [] { m₂ with input := text } m₁' ∧ _
    cases hadvances with
    | refl => exact h.goesOn hc hwords
    | @word m₃ _ word rest flow before read taken goesOn =>
      obtain ⟨m₃', hadvances', h₃⟩ :=
        before.longer hS (setsOff_cons hc text) (by simp [Text.words_of_nextWord read]) h
      rw [hadvances'.runInput_eq]
      by_cases hfits :
          ∀ comment, (classify m₃.dictionary word).comment? = some comment → comment.stop ∈ rest
      · have hname : Outcome.fault? (.ok flow m₂) ≠ some .noNameGiven := by simp [Outcome.fault?]
        obtain ⟨hnext', o', htaken', hagree⟩ :=
          h₃.dispatch hS (setsOff_cons hc text) read
            (fun comment hcomment => .inr (hfits comment hcomment)) taken hname
        cases hagree with
        | @ok _ m₂' flow h₂ =>
          obtain ⟨m₁', h₁, hrun'⟩ := h₂.goesOn hc hwords
          refine ⟨m₁', h₁, ?_⟩
          rw [runInput_of_nextWord hnext', htaken', ← hrun']
          cases flow with
          | quit => exact absurd rfl goesOn
          | next | leave => rfl
      · -- The last word is a comment that is left open, and the blank has to end it.
        obtain ⟨comment, hcomment⟩ := Classical.not_forall.mp hfits
        obtain ⟨hcomment, hopen⟩ := Classical.not_imp.mp hcomment
        have hstop : comment.stop = c :=
          (hcloses comment).resolve_right fun hall => hopen (hall _ _ _ before read hcomment)
        exact h₃.goesOn_of_comment read hc hcomment hopen hstop taken

end Longer

end ForthMachine
