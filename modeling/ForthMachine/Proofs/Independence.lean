import ForthMachine.Proofs.Grammar

/-!
# Definitions and the values below them

What the compiler answers to a definition depends on the dictionary and on the room that the values
on the return stack leave for marks, and on nothing else that the stacks hold. With less room the
answer is the same, or that structures nest too deep.
-/

set_option autoImplicit false

namespace ForthMachine

open Machine

namespace Draft

variable {limit limit' : Nat} {draft draft' : Draft} {fault : Fault}

theorem mismatch_ne_tooDeep (draft : Draft) (wanted : Opener) :
    draft.mismatch wanted ≠ .tooDeep := by
  unfold mismatch
  split <;> nofun

theorem shape_mono (hle : limit ≤ limit') (s : Structural) :
    draft.shape limit s = .error .tooDeep ∨ draft.shape limit' s = draft.shape limit s := by
  have hdescend (context : Context) : draft.descend limit context = .error .tooDeep ∨
      draft.descend limit' context = draft.descend limit context := by
    unfold descend
    by_cases hroom : draft.marks.length < limit
    · rw [if_pos hroom, if_pos (by omega)]
      exact .inr rfl
    · exact .inl (if_neg hroom)
  cases s with
  | ifWord | doWord | beginWord => exact hdescend _
  | semicolon | elseWord | thenWord | loopWord | plusLoop | untilWord | repeatWord | leaveWord =>
    exact .inr rfl
  | whileWord =>
    simp only [shape]
    split
    · by_cases hroom : draft.marks.length < limit
      · rw [if_pos hroom, if_pos (by omega)]
        exact .inr rfl
      · exact .inl (if_neg hroom)
    · exact .inr rfl

theorem descend_tooDeep {context : Context} (hmarks : context.marks.length = 1)
    (h : draft.descend limit context = .error .tooDeep) :
    ∃ limit' draft', limit ≤ limit' ∧ draft.descend limit' context = .ok draft' ∧
      limit < draft'.marks.length := by
  unfold descend at h
  split at h
  · cases h
  · rename_i hfull
    refine ⟨draft.marks.length + 1, ⟨[], context :: draft.contexts⟩, by omega,
      if_pos (Nat.lt_succ_self _), ?_⟩
    have hlength : (marks ⟨[], context :: draft.contexts⟩).length = 1 + draft.marks.length := by
      rw [length_marks_cons, hmarks]
      rfl
    omega

/-- A word finds too little room only if it opens a structure, which takes one mark more. -/
theorem shape_tooDeep {s : Structural} (h : draft.shape limit s = .error .tooDeep) :
    ∃ limit' draft', limit ≤ limit' ∧ draft.shape limit' s = .ok draft' ∧
      limit < draft'.marks.length := by
  obtain ⟨tokens, contexts⟩ := draft
  cases s with
  | ifWord | doWord | beginWord => exact descend_tooDeep rfl h
  | leaveWord => cases h
  | semicolon =>
    simp only [shape, body] at h
    split at h <;> cases h
  | loopWord | plusLoop =>
    simp only [shape, closeLoop] at h
    split at h
    · cases h
    · exact absurd (Except.error.inj h) (mismatch_ne_tooDeep _ _)
  | elseWord | thenWord | untilWord | repeatWord =>
    simp only [shape] at h
    split at h
    all_goals first
      | cases h
      | exact absurd (Except.error.inj h) (mismatch_ne_tooDeep _ _)
  | whileWord =>
    simp only [shape] at h
    split at h
    · rename_i before outer
      split at h
      · cases h
      · rename_i hfull
        refine ⟨(marks ⟨tokens, .beginPart before :: outer⟩).length + 1,
          ⟨[], .whilePart before tokens :: outer⟩, by omega, if_pos (Nat.lt_succ_self _), ?_⟩
        rw [length_marks_cons] at hfull ⊢
        simp only [Context.marks, List.length_cons, List.length_nil] at hfull ⊢
        omega
    · exact absurd (Except.error.inj h) (mismatch_ne_tooDeep _ _)

theorem take_mono (draft : Draft) (hle : limit ≤ limit') (token : Token) :
    draft.take limit token = .error .tooDeep ∨
      draft.take limit' token = draft.take limit token := by
  cases token with
  | call word =>
    cases hb : word.behavior with
    | structural s =>
      simp only [take, hb]
      exact shape_mono hle s
    | primitive _ | definition _ | readAhead _ | comment _ =>
      right
      simp only [take, hb]
  | number _ | unresolved _ | counted _ _ | branch _ _ | indefinite _ _ | leave => exact .inr rfl

theorem take_tooDeep {token : Token} (h : draft.take limit token = .error .tooDeep) :
    ∃ limit' draft', limit ≤ limit' ∧ draft.take limit' token = .ok draft' ∧
      limit < draft'.marks.length := by
  cases token with
  | call word =>
    cases hb : word.behavior with
    | structural s =>
      simp only [take, hb] at h ⊢
      exact shape_tooDeep h
    | primitive _ | definition _ | readAhead _ | comment _ =>
      simp only [take, hb] at h
      cases h
  | number _ | unresolved _ | counted _ _ | branch _ _ | indefinite _ _ | leave => cases h

theorem length_marks_of_take {token : Token} (hlimit : draft.marks.length ≤ limit)
    (h : draft.take limit token = .ok draft') : draft'.marks.length ≤ limit := by
  cases token with
  | call word =>
    cases hb : word.behavior with
    | structural s =>
      simp only [take, hb] at h
      exact length_marks_of_shape hlimit h
    | primitive _ | definition _ | comment _ =>
      simp only [take, hb] at h
      cases h
      exact hlimit
    | readAhead _ =>
      simp only [take, hb] at h
      cases h
  | number _ =>
    cases h
    exact hlimit
  | unresolved _ | counted _ _ | branch _ _ | indefinite _ _ | leave => cases h

section Words

variable {dictionary : Dictionary} {ws : List String}

theorem takeWords_mono (draft : Draft) (dictionary : Dictionary) (ws : List String)
    (hle : limit ≤ limit') :
    draft.takeWords dictionary limit ws = .error .tooDeep ∨
      draft.takeWords dictionary limit' ws = draft.takeWords dictionary limit ws := by
  induction ws generalizing draft with
  | nil => exact .inr rfl
  | cons w ws ih =>
    rcases take_mono draft hle (classify dictionary w) with hdeep | hsame
    · exact .inl (takeWords_cons_of_error hdeep ws)
    · cases htake : draft.take limit (classify dictionary w) with
      | error fault =>
        rw [htake] at hsame
        rw [takeWords_cons_of_error htake, takeWords_cons_of_error hsame]
        exact .inr rfl
      | ok next =>
        rw [htake] at hsame
        rw [takeWords_cons_of_ok htake, takeWords_cons_of_ok hsame]
        exact ih next

theorem takeWords_of_le (hle : limit ≤ limit')
    (h : draft.takeWords dictionary limit ws = .ok draft') :
    draft.takeWords dictionary limit' ws = .ok draft' := by
  rcases takeWords_mono draft dictionary ws hle with hdeep | hsame
  · rw [h] at hdeep
    cases hdeep
  · rw [hsame, h]

theorem takeWords_tooDeep (h : draft.takeWords dictionary limit ws = .error .tooDeep) :
    ∃ ws₁ limit' draft', ws₁ <+: ws ∧ limit ≤ limit' ∧
      draft.takeWords dictionary limit' ws₁ = .ok draft' ∧ limit < draft'.marks.length := by
  induction ws generalizing draft with
  | nil => cases h
  | cons w ws ih =>
    cases htake : draft.take limit (classify dictionary w) with
    | error fault =>
      rw [takeWords_cons_of_error htake] at h
      cases h
      obtain ⟨limit', draft', hle, htake', hfull⟩ := take_tooDeep htake
      exact ⟨[w], limit', draft', List.prefix_append [w] ws, hle,
        takeWords_cons_of_ok htake' [], hfull⟩
    | ok next =>
      rw [takeWords_cons_of_ok htake] at h
      obtain ⟨ws₁, limit', draft', hprefix, hle, htakes, hfull⟩ := ih h
      have htake' : draft.take limit' (classify dictionary w) = .ok next := by
        rcases take_mono draft hle (classify dictionary w) with hdeep | hsame
        · rw [htake] at hdeep
          cases hdeep
        · rw [hsame, htake]
      refine ⟨w :: ws₁, limit', draft', List.cons_prefix_cons.mpr ⟨rfl, hprefix⟩, hle, ?_, hfull⟩
      rw [takeWords_cons_of_ok htake', htakes]

theorem length_marks_of_takeWords (hlimit : draft.marks.length ≤ limit)
    (h : draft.takeWords dictionary limit ws = .ok draft') : draft'.marks.length ≤ limit := by
  induction ws generalizing draft with
  | nil =>
    cases h
    exact hlimit
  | cons w ws ih =>
    obtain ⟨next, hfirst, hrest⟩ := takeWords_cons_eq_ok h
    exact ih (length_marks_of_take hlimit hfirst) hrest

/-- There is too little room exactly if some of the words, where they have room, have more marks
open at once. -/
theorem takeWords_eq_tooDeep_iff (hlimit : draft.marks.length ≤ limit) :
    draft.takeWords dictionary limit ws = .error .tooDeep ↔
      ∃ ws₁ limit' draft', ws₁ <+: ws ∧ draft.takeWords dictionary limit' ws₁ = .ok draft' ∧
        limit < draft'.marks.length := by
  constructor
  · intro h
    obtain ⟨ws₁, limit', draft', hprefix, -, htakes, hfull⟩ := takeWords_tooDeep h
    exact ⟨ws₁, limit', draft', hprefix, htakes, hfull⟩
  · rintro ⟨ws₁, limit', draft', ⟨ws₂, rfl⟩, htakes, hfull⟩
    apply takeWords_append_of_error
    have hnot : draft.takeWords dictionary limit ws₁ ≠ .ok draft' := by
      intro hok
      have hle := length_marks_of_takeWords hlimit hok
      omega
    rcases Nat.le_total limit limit' with hle | hle
    · rcases takeWords_mono draft dictionary ws₁ hle with hdeep | hsame
      · exact hdeep
      · exact absurd (hsame.symm.trans htakes) hnot
    · exact absurd (takeWords_of_le hle htakes) hnot

end Words

end Draft

def Behavior.primitive? : Behavior → Option Primitive
  | .primitive p => some p
  | _ => none

theorem classify_toReturn :
    ∃ serial, classify Machine.new.dictionary ">R" =
      .call ⟨serial, ">R", .primitive .toReturn⟩ := by
  have hprimitive : (Machine.new.dictionary.find? ">R").bind (·.behavior.primitive?) =
      some .toReturn := by
    decide +kernel
  obtain ⟨⟨serial, name, behavior⟩, hfind, hbehavior⟩ := Option.bind_eq_some_iff.mp hprimitive
  obtain rfl : name = ">R" := new_dictionary_sound.named.find? hfind
  refine ⟨serial, (classify_of_find? (by rfl) hfind).trans ?_⟩
  cases behavior with
  | primitive p =>
    cases hbehavior
    rfl
  | structural _ | readAhead _ | comment _ | definition _ => cases hbehavior

theorem runInput_toReturn {m : Machine} {serial : Nat} (hmode : m.mode = .immediate)
    (hclassify : classify m.dictionary ">R" = .call ⟨serial, ">R", .primitive .toReturn⟩)
    (bounds : Bounds) :
    runInput bounds (m.reading "0 >R") = some (.ok .next { m with
      input := []
      output := ""
      returns := .value 0 :: m.returns
      log := m.log.add ⟨.debug, "call", ">R", some (.number m.depth)⟩ }) := by
  have hzero : Text.nextWord (m.reading "0 >R").input = (some "0", " >R".toList) := by
    change Text.nextWord "0 >R".toList = _
    decide
  have hmove : Text.nextWord " >R".toList = (some ">R", []) := by decide
  rw [runInput_of_nextWord hzero, dispatch_of_immediate (by exact hmode)]
  change runInput bounds { m with
    input := " >R".toList, output := "", stack := .value 0 :: m.stack } = _
  rw [runInput_of_nextWord hmove, dispatch_of_immediate (by exact hmode)]
  dsimp only
  rw [hclassify]
  exact runInput_of_nil Text.words_nil

/-- However many values the return stack holds, a line can move one more there. -/
theorem exists_reachable_returns (n : Nat) :
    ∃ m, Reachable m ∧ m.mode = .immediate ∧ m.dictionary = Machine.new.dictionary ∧
      m.stack = [] ∧ m.returns = List.replicate n (.value 0) := by
  induction n with
  | zero => exact ⟨Machine.new, .new, rfl, rfl, rfl, rfl⟩
  | succ n ih =>
    obtain ⟨m, hm, hmode, hdictionary, hstack, hreturns⟩ := ih
    obtain ⟨serial, hclassify⟩ := classify_toReturn
    rw [← hdictionary] at hclassify
    have hrun := runInput_toReturn hmode hclassify { passes := 0 }
    have hline := congrArg (Option.map answer) hrun
    refine ⟨_, hm.line 0 hline, hmode, hdictionary, hstack, ?_⟩
    exact congrArg (List.cons (.value 0)) hreturns

section Answer

variable {dictionary : Dictionary} {limit : Nat} {ws : List String}

/-- What the words make of the draft that a colon opens, if there is room for its mark. -/
def draftOf (dictionary : Dictionary) (limit : Nat) (ws : List String) : Except Fault Draft :=
  if 0 < limit then Draft.takeWords dictionary limit {} ws else .error .tooDeep

/-- The answer to a line that opens a definition and goes on with the words `ws`. -/
def definitionAnswer (dictionary : Dictionary) (limit : Nat) (ws : List String) : String :=
  match draftOf dictionary limit ws with
  | .error fault => " ? " ++ fault.message
  | .ok _ => if ws.getLast? = some ";" then " ok" else " compiled"

theorem draftOf_mono (dictionary : Dictionary) (ws : List String) {limit' : Nat}
    (hle : limit ≤ limit') :
    draftOf dictionary limit ws = .error .tooDeep ∨
      draftOf dictionary limit' ws = draftOf dictionary limit ws := by
  unfold draftOf
  by_cases hroom : 0 < limit
  · rw [if_pos hroom, if_pos (by omega)]
    exact Draft.takeWords_mono {} dictionary ws hle
  · exact .inl (if_neg hroom)

theorem draftOf_eq_tooDeep_iff :
    draftOf dictionary limit ws = .error .tooDeep ↔
      ∃ ws₁ limit' draft, ws₁ <+: ws ∧ Draft.takeWords dictionary limit' {} ws₁ = .ok draft ∧
        limit < draft.marks.length := by
  unfold draftOf
  by_cases hroom : 0 < limit
  · rw [if_pos hroom]
    exact Draft.takeWords_eq_tooDeep_iff hroom
  · rw [if_neg hroom]
    refine ⟨fun _ => ⟨[], 0, {}, List.nil_prefix, rfl, ?_⟩, fun _ => rfl⟩
    exact Nat.lt_of_le_of_lt (Nat.le_of_not_lt hroom) Nat.zero_lt_one

theorem Fault.eq_tooDeep_of_message {fault : Fault} (h : fault.message = "nesting too deep") :
    fault = .tooDeep := by
  have hfront {first rest : String} (hrest : first ++ rest = "nesting too deep") :
      first.toList <+: "nesting too deep".toList := by
    rw [← hrest, String.toList_append]
    exact List.prefix_append _ _
  cases fault with
  | tooDeep => rfl
  | stackUnderflow | returnStackUnderflow | compileOnly | interpretOnly | noNameGiven | notLooping
  | divisionByZero => exact absurd h (by decide)
  | undefinedWord name => exact absurd (hfront h) (by decide)
  | unknownToken text => exact absurd (hfront h) (by decide)
  | unclosed opener => exact absurd (hfront h) (by decide)
  | missing opener => exact absurd (hfront h) (by decide)
  | invalidChar code => exact absurd (hfront h) (by decide)

theorem definitionAnswer_eq_tooDeep_iff :
    definitionAnswer dictionary limit ws = " ? nesting too deep" ↔
      draftOf dictionary limit ws = .error .tooDeep := by
  unfold definitionAnswer
  constructor
  · intro h
    split at h
    · rename_i fault hdraft
      have hmessage : fault.message = "nesting too deep" := (String.append_right_inj " ? ").mp h
      rw [hdraft, Fault.eq_tooDeep_of_message hmessage]
    · split at h <;> exact absurd h (by decide)
  · intro h
    rw [h]
    rfl

theorem definitionAnswer_mono {limit' : Nat} (hle : limit ≤ limit') :
    definitionAnswer dictionary limit ws = definitionAnswer dictionary limit' ws ∨
      definitionAnswer dictionary limit ws = " ? nesting too deep" := by
  rcases draftOf_mono dictionary ws hle with hdeep | hsame
  · exact .inr (definitionAnswer_eq_tooDeep_iff.mpr hdeep)
  · left
    unfold definitionAnswer
    rw [hsame]

end Answer

theorem bodyOf_of_takeWords_end {dictionary : Dictionary} {limit : Nat} {ws : List String}
    {last : String} {draft : Draft} (hroom : 0 < limit)
    (hend : (classify dictionary last).structural? = some .semicolon)
    (htake : Draft.takeWords dictionary limit {} (ws ++ [last]) = .ok draft) :
    ∃ body, bodyOf dictionary limit ws = .ok body := by
  obtain ⟨next, hbefore, hrest⟩ := takeWords_append_eq_ok htake
  obtain ⟨ended, hlast, -⟩ := Draft.takeWords_cons_eq_ok hrest
  obtain ⟨body, hbody⟩ := Draft.body_of_take_end hend hlast
  refine ⟨body, ?_⟩
  simp only [bodyOf, if_pos hroom, hbefore, hbody]

theorem not_mem_of_dropLast {ws : List String} {w : String} (hfront : w ∉ ws.dropLast)
    (hlast : ws.getLast? ≠ some w) : w ∉ ws := by
  rcases List.eq_nil_or_concat ws with rfl | ⟨front, last, rfl⟩
  · exact List.not_mem_nil
  · rw [List.concat_eq_append, List.dropLast_concat] at hfront
    rw [List.concat_eq_append, List.getLast?_concat] at hlast
    rw [List.concat_eq_append, List.mem_append, List.mem_singleton]
    rintro (hw | rfl)
    · exact hfront hw
    · exact hlast rfl

/-- A line that opens a definition, and has nothing behind the word that ends it, is answered by
what its words make of a draft. -/
theorem evaluate_definition {m : Machine} (hsound : m.dictionary.Sound)
    (hmode : m.mode = .immediate) (hcolon : m.dictionary.readAhead? ":" = some .colon)
    (hend : m.dictionary.structural? ";" = some .semicolon) {line name : String}
    {ws : List String} (hopens : OpensDefinition m.dictionary line.toList name ws)
    (hlast : ";" ∉ ws.dropLast) (bounds : Bounds) :
    ∃ m', evaluate bounds m line =
      some (definitionAnswer m.dictionary m.markLimit ws, m') := by
  have hdraft := hopens.forDraft hsound hlast
  have hfront : ∀ w ∈ ws.dropLast, (classify m.dictionary w).ForDraft :=
    fun w hw => hdraft w (List.dropLast_subset ws hw) fun h => hlast (h ▸ hw)
  unfold definitionAnswer draftOf
  by_cases hroom : 0 < m.markLimit
  · rw [if_pos hroom]
    cases htake : Draft.takeWords m.dictionary m.markLimit {} ws with
    | error fault =>
      obtain ⟨m', hline, -⟩ :=
        evaluate_of_opens_error bounds hmode hcolon hopens hfront (.inr ⟨hroom, htake⟩)
      exact ⟨m', hline⟩
    | ok draft =>
      dsimp only
      split
      · rename_i hsemicolon
        obtain ⟨front, rfl⟩ := List.getLast?_eq_some_iff.mp hsemicolon
        rw [List.dropLast_concat] at hfront
        obtain ⟨body, hbody⟩ := bodyOf_of_takeWords_end hroom (classify_semicolon hend) htake
        obtain ⟨m', hline, -, -⟩ := evaluate_of_opens_body bounds hmode hcolon hopens
          (classify_semicolon hend) hfront hbody
        exact ⟨m', hline⟩
      · rename_i hopen
        have hall : ∀ w ∈ ws, (classify m.dictionary w).ForDraft :=
          fun w hw => hdraft w hw fun h => not_mem_of_dropLast hlast hopen (h ▸ hw)
        obtain ⟨m', hline, -⟩ := evaluate_of_opens bounds hmode hcolon hopens hall hroom htake
        exact ⟨m', hline⟩
  · rw [if_neg hroom]
    obtain ⟨m', hline, -⟩ :=
      evaluate_of_opens_error bounds hmode hcolon hopens hfront (.inl ⟨hroom, rfl⟩)
    exact ⟨m', hline⟩

theorem Draft.length_marks_pos (draft : Draft) : 0 < draft.marks.length := by
  unfold Draft.marks
  rw [List.length_append, List.length_singleton]
  exact Nat.succ_pos _

/-- The answer to a definition depends on how many values are on the return stack, and not on what
they are or on what the data stack holds. More values can only turn it into a complaint that
structures nest too deep, and that is told exactly if the values and the marks open at once are more
than the greatest depth. -/
theorem definition_answered_by_room {m m' : Machine} (hm : Reachable m) (hm' : Reachable m')
    (hmode : m.mode = .immediate) (hmode' : m'.mode = .immediate)
    (hdictionary : m'.dictionary = m.dictionary)
    (hcolon : m.dictionary.readAhead? ":" = some .colon)
    (hend : m.dictionary.structural? ";" = some .semicolon) {line name : String}
    {ws : List String} (hopens : OpensDefinition m.dictionary line.toList name ws)
    (hlast : ";" ∉ ws.dropLast) (passes passes' : Nat) :
    ∃ text text' m₁ m₁', evaluate { passes } m line = some (text, m₁) ∧
      evaluate { passes := passes' } m' line = some (text', m₁') ∧
      (m.returns.length = m'.returns.length → text = text') ∧
      (m'.returns.length ≤ m.returns.length → text = text' ∨ text = " ? nesting too deep") ∧
      (text = " ? nesting too deep" ↔
        ∃ ws₁ limit draft, ws₁ <+: ws ∧ Draft.takeWords m.dictionary limit {} ws₁ = .ok draft ∧
          maxDepth < m.returns.length + draft.marks.length) := by
  obtain ⟨m₁, hline⟩ := evaluate_definition (steady_of_reachable hm).dictionary hmode hcolon hend
    hopens hlast { passes }
  rw [← hdictionary] at hcolon hend hopens
  obtain ⟨m₁', hline'⟩ := evaluate_definition (steady_of_reachable hm').dictionary hmode' hcolon
    hend hopens hlast { passes := passes' }
  rw [hdictionary] at hline'
  refine ⟨_, _, m₁, m₁', hline, hline', ?_, ?_, ?_⟩
  · intro hlength
    rw [show m.markLimit = m'.markLimit by unfold markLimit; rw [hlength]]
  · intro hle
    apply definitionAnswer_mono
    unfold markLimit
    omega
  · rw [definitionAnswer_eq_tooDeep_iff, draftOf_eq_tooDeep_iff]
    have hfull (draft : Draft) : m.markLimit < draft.marks.length ↔
        maxDepth < m.returns.length + draft.marks.length := by
      have hpos := draft.length_marks_pos
      unfold markLimit
      omega
    simp only [hfull]

/-- One branch more than the values on the return stack leave room for. -/
theorem branch_on_values_too_deep :
    ∃ m m₁, Reachable m ∧ m.returns = List.replicate 255 (.value 0) ∧
      evaluate { passes := 0 } m ": X IF THEN ;" = some (" ? nesting too deep", m₁) := by
  obtain ⟨m, hm, hmode, hdictionary, -, hreturns⟩ := exists_reachable_returns 255
  have hcolon : m.dictionary.readAhead? ":" = some .colon := hdictionary ▸ new_colon
  have hheld (s : Structural) : m.dictionary.structural? s.name = some s :=
    hdictionary ▸ new_structural s
  have hwords : Text.words ": X IF THEN ;".toList = ":" :: "X" :: (["IF", "THEN"] ++ [";"]) :=
    @words_definitionLine "X" ["IF", "THEN"] (by decide) (by decide)
  have hdraft : ∀ w ∈ ["IF", "THEN"], (classify m.dictionary w).ForDraft := by
    intro w hw
    rcases List.mem_cons.mp hw with rfl | hw
    · exact forDraft_structural (hheld .ifWord) nofun
    · rw [List.mem_singleton.mp hw]
      exact forDraft_structural (hheld .thenWord) nofun
  have hopens := opensDefinition_of_forDraft (hheld .semicolon) hwords hdraft
  have hif : Draft.takeWords m.dictionary 2 {} ["IF"] = .ok ⟨[], [.thenPart []]⟩ :=
    Draft.takeWords_cons_of_ok (take_structural (hheld .ifWord) {}) []
  obtain ⟨text, text', m₁, m₁', hline, -, -, -, hdeep⟩ := definition_answered_by_room hm .new hmode
    rfl hdictionary.symm hcolon (hheld .semicolon) hopens (by decide) 0 0
  have htext : text = " ? nesting too deep" := by
    refine hdeep.mpr ⟨["IF"], 2, _, ⟨["THEN", ";"], rfl⟩, hif, ?_⟩
    rw [hreturns, List.length_replicate]
    decide
  rw [htext] at hline
  exact ⟨m, m₁, hm, hreturns, hline⟩

/-- Values moved to the return stack are in the way of a definition that opens no structure. -/
theorem definition_answer_depends_on_values :
    ∃ m m₁ m₁', Reachable m ∧ m.mode = .immediate ∧ m.dictionary = Machine.new.dictionary ∧
      m.returns = List.replicate 256 (.value 0) ∧
      evaluate { passes := 0 } m ": X ;" = some (" ? nesting too deep", m₁) ∧
      evaluate { passes := 0 } Machine.new ": X ;" = some (" ok", m₁') := by
  obtain ⟨m, hm, hmode, hdictionary, -, hreturns⟩ := exists_reachable_returns 256
  have hwords : Text.words ": X ;".toList = ":" :: "X" :: ([] ++ [";"]) :=
    @words_definitionLine "X" [] (by decide) nofun
  have hempty : ∀ w ∈ ([] : List String), (classify m.dictionary w).ForDraft := nofun
  have hfull : ¬ 0 < m.markLimit := by
    unfold markLimit
    rw [hreturns, List.length_replicate]
    decide
  have hbody : bodyOf m.dictionary m.markLimit [] = .error .tooDeep := if_neg hfull
  obtain ⟨m₁, hline, -⟩ := evaluate_of_bodyOf_error { passes := 0 } hmode
    (hdictionary ▸ new_colon) (hdictionary ▸ new_structural .semicolon) hwords hempty hbody
  have hbody' : bodyOf Machine.new.dictionary Machine.new.markLimit [] = .ok [] := rfl
  obtain ⟨m₁', hline', -⟩ := evaluate_of_bodyOf { passes := 0 } rfl new_colon
    (new_structural .semicolon) hwords nofun hbody'
  exact ⟨m, m₁, m₁', hm, hmode, hdictionary, hreturns, hline, hline'⟩

end ForthMachine
