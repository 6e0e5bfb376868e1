import ForthMachine.Proofs.Drafts

/-!
# Lines that hold a definition

A line with a colon, a name, the words of a body and a semicolon is answered by what the words
make of an empty draft: the body is installed, or the fault of the first word that does not fit is
told and the dictionary stays as it was.
-/

set_option autoImplicit false

namespace ForthMachine

open Machine

namespace Behavior

def structural? : Behavior → Option Structural
  | .structural s => some s
  | _ => none

def readAhead? : Behavior → Option ReadAhead
  | .readAhead r => some r
  | _ => none

def comment? : Behavior → Option Comment
  | .comment c => some c
  | _ => none

theorem eq_of_structural? {behavior : Behavior} {s : Structural}
    (h : behavior.structural? = some s) : behavior = .structural s := by
  cases behavior <;> simp_all [structural?]

theorem eq_of_comment? {behavior : Behavior} {c : Comment}
    (h : behavior.comment? = some c) : behavior = .comment c := by
  cases behavior <;> simp_all [comment?]

theorem eq_of_readAhead? {behavior : Behavior} {r : ReadAhead}
    (h : behavior.readAhead? = some r) : behavior = .readAhead r := by
  cases behavior <;> simp_all [readAhead?]

end Behavior

namespace Token

def structural? : Token → Option Structural
  | .call word => word.behavior.structural?
  | _ => none

def comment? : Token → Option Comment
  | .call word => word.behavior.comment?
  | _ => none

theorem call_of_structural? {token : Token} {s : Structural} (h : token.structural? = some s) :
    ∃ word, token = .call word ∧ word.behavior = .structural s := by
  cases token with
  | call word => exact ⟨word, rfl, Behavior.eq_of_structural? h⟩
  | number _ | unresolved _ | counted _ _ | branch _ _ | indefinite _ _ | leave => cases h

theorem call_of_comment? {token : Token} {c : Comment} (h : token.comment? = some c) :
    ∃ word, token = .call word ∧ word.behavior = .comment c := by
  cases token with
  | call word => exact ⟨word, rfl, Behavior.eq_of_comment? h⟩
  | number _ | unresolved _ | counted _ _ | branch _ _ | indefinite _ _ | leave => cases h

theorem forDraft_iff {token : Token} :
    token.ForDraft ↔ token.structural? ≠ some .semicolon ∧ token.comment? = none := by
  cases token with
  | call word =>
    cases hb : word.behavior <;>
      simp [ForDraft, structural?, comment?, Behavior.structural?, Behavior.comment?, hb]
  | number _ | unresolved _ | counted _ _ | branch _ _ | indefinite _ _ | leave =>
    simp [ForDraft, structural?, comment?]

end Token

namespace Dictionary

/-- What a word does to the structure of a definition, if it does anything to it. -/
def structural? (dictionary : Dictionary) (name : String) : Option Structural :=
  (dictionary.find? name).bind (·.behavior.structural?)

def readAhead? (dictionary : Dictionary) (name : String) : Option ReadAhead :=
  (dictionary.find? name).bind (·.behavior.readAhead?)

def comment? (dictionary : Dictionary) (name : String) : Option Comment :=
  (dictionary.find? name).bind (·.behavior.comment?)

end Dictionary

theorem classify_of_find? {dictionary : Dictionary} {name : String} {word : Word}
    {fault : Text.Numeral.Fault} (hname : Text.Numeral.parse name = .error fault)
    (h : dictionary.find? name = some word) : classify dictionary name = .call word := by
  simp [classify, hname, h]

theorem find?_of_classify {dictionary : Dictionary} {name : String} {word : Word}
    (h : classify dictionary name = .call word) : dictionary.find? name = some word := by
  unfold classify at h
  split at h
  · cases h
  · split at h
    · rename_i hfind
      cases h
      exact hfind
    · cases h

theorem Structural.parse_name (s : Structural) :
    Text.Numeral.parse s.name = .error .invalidDigit := by
  cases s <;> rfl

theorem ReadAhead.parse_name (r : ReadAhead) :
    Text.Numeral.parse r.name = .error .invalidDigit := by
  cases r <;> rfl

theorem Comment.parse_name (c : Comment) :
    Text.Numeral.parse c.name = .error .invalidDigit := by
  cases c <;> rfl

theorem new_colon : Machine.new.dictionary.readAhead? ":" = some .colon := by
  decide +kernel

theorem new_structural (s : Structural) :
    Machine.new.dictionary.structural? s.name = some s := by
  cases s <;> decide +kernel

theorem classify_of_structural? {dictionary : Dictionary} {s : Structural}
    (h : dictionary.structural? s.name = some s) :
    ∃ word, classify dictionary s.name = .call word ∧ word.behavior = .structural s := by
  obtain ⟨word, hfind, hs⟩ := Option.bind_eq_some_iff.mp h
  exact ⟨word, classify_of_find? s.parse_name hfind, Behavior.eq_of_structural? hs⟩

theorem classify_of_readAhead? {dictionary : Dictionary} {r : ReadAhead}
    (h : dictionary.readAhead? r.name = some r) :
    ∃ word, classify dictionary r.name = .call word ∧ word.behavior = .readAhead r := by
  obtain ⟨word, hfind, hr⟩ := Option.bind_eq_some_iff.mp h
  exact ⟨word, classify_of_find? r.parse_name hfind, Behavior.eq_of_readAhead? hr⟩

theorem classify_comment {dictionary : Dictionary} {c : Comment}
    (h : dictionary.comment? c.name = some c) :
    (classify dictionary c.name).comment? = some c := by
  obtain ⟨word, hfind, hc⟩ := Option.bind_eq_some_iff.mp h
  rw [classify_of_find? c.parse_name hfind]
  exact hc

theorem dispatch_of_compile {m : Machine} (h : m.mode = .compile) (bounds : Bounds)
    (word : String) :
    dispatch bounds word m = some (compile (classify m.dictionary word) m) := by
  simp [dispatch, h]

theorem dispatch_of_immediate {m : Machine} (h : m.mode = .immediate) (bounds : Bounds)
    (word : String) :
    dispatch bounds word m = interpret bounds (classify m.dictionary word) m := by
  simp [dispatch, h]

theorem runInput_of_runs (bounds : Bounds) {m : Machine} {name : String} {word : Word}
    {text : List Char} (hmode : m.mode = .immediate)
    (hnext : Text.nextWord m.input = (some name, text))
    (hclassify : classify m.dictionary name = .call word) (hruns : word.behavior.Runs) :
    runInput bounds m =
      ((callWord bounds word { m with input := text }).map outsideLoops).bind (resume bounds) := by
  rw [runInput_of_nextWord hnext, dispatch_of_immediate (m := { m with input := text }) hmode,
    hclassify, interpret_call_of_runs bounds hruns]

namespace Comment

def skip : Comment → List Char → List Char
  | paren, text => (Text.splitAt ')' text).2
  | backslash, text => (Text.splitLine text).2

theorem effect_eq (c : Comment) (m : Machine) :
    c.effect m = .ok () { m with input := c.skip m.input } := by
  cases c <;> rfl

theorem length_skip_le (c : Comment) (text : List Char) : (c.skip text).length ≤ text.length := by
  cases c <;> exact Text.length_splitAt_le _ text

end Comment

/-- The words that the compiler finds in a text. Comments are skipped up to the word that ends the
definition; behind that word the text is none of the compiler's business. -/
def bodyWords (dictionary : Dictionary) (text : List Char) : List String :=
  match _h : Text.nextWord text with
  | (none, _) => []
  | (some word, rest) =>
    match (classify dictionary word).comment? with
    | some c => bodyWords dictionary (c.skip rest)
    | none =>
      word :: if (classify dictionary word).structural? = some .semicolon then Text.words rest
        else bodyWords dictionary rest
termination_by text.length
decreasing_by
  · exact Nat.lt_of_le_of_lt (c.length_skip_le rest) (Text.length_nextWord_lt _h)
  · exact Text.length_nextWord_lt _h

section BodyWords

variable {dictionary : Dictionary} {text rest : List Char} {word : String}

theorem bodyWords_of_none (h : Text.nextWord text = (none, rest)) :
    bodyWords dictionary text = [] := by
  rw [bodyWords]
  split
  · rfl
  · rename_i hnext
    rw [h] at hnext
    cases hnext

theorem bodyWords_of_comment (h : Text.nextWord text = (some word, rest)) {c : Comment}
    (hcomment : (classify dictionary word).comment? = some c) :
    bodyWords dictionary text = bodyWords dictionary (c.skip rest) := by
  rw [bodyWords]
  split
  · rename_i hnext
    rw [h] at hnext
    cases hnext
  · rename_i hnext
    rw [h] at hnext
    cases hnext
    simp only [hcomment]

theorem bodyWords_of_word (h : Text.nextWord text = (some word, rest))
    (hcomment : (classify dictionary word).comment? = none) :
    bodyWords dictionary text =
      word :: if (classify dictionary word).structural? = some .semicolon then Text.words rest
        else bodyWords dictionary rest := by
  rw [bodyWords]
  split
  · rename_i hnext
    rw [h] at hnext
    cases hnext
  · rename_i hnext
    rw [h] at hnext
    cases hnext
    simp only [hcomment]

theorem bodyWords_eq_words
    (h : ∀ w ∈ Text.words text, (classify dictionary w).comment? = none) :
    bodyWords dictionary text = Text.words text := by
  induction text using bodyWords.induct dictionary with
  | case1 text rest hnext => rw [bodyWords_of_none hnext, Text.words_of_nextWord_none hnext]
  | case2 text word rest hnext c hcomment ih =>
    rw [Text.words_of_nextWord hnext] at h
    rw [h word List.mem_cons_self] at hcomment
    cases hcomment
  | case3 text word rest hnext hcomment ih =>
    rw [Text.words_of_nextWord hnext] at h ⊢
    rw [bodyWords_of_word hnext hcomment, ih fun w hw => h w (List.mem_cons_of_mem word hw),
      ite_self]

end BodyWords

/-- What the words of a body make of a draft, up to the first word that does not fit. -/
def Draft.takeWords (dictionary : Dictionary) (limit : Nat) (draft : Draft) :
    List String → Except Fault Draft
  | [] => .ok draft
  | word :: words =>
    match draft.take limit (classify dictionary word) with
    | .error fault => .error fault
    | .ok draft => draft.takeWords dictionary limit words

theorem Draft.takeWords_cons_of_ok {dictionary : Dictionary} {limit : Nat} {draft draft' : Draft}
    {w : String} (h : draft.take limit (classify dictionary w) = .ok draft') (ws : List String) :
    draft.takeWords dictionary limit (w :: ws) = draft'.takeWords dictionary limit ws := by
  simp only [takeWords, h]

theorem Draft.takeWords_cons_of_error {dictionary : Dictionary} {limit : Nat} {draft : Draft}
    {w : String} {fault : Fault} (h : draft.take limit (classify dictionary w) = .error fault)
    (ws : List String) : draft.takeWords dictionary limit (w :: ws) = .error fault := by
  simp only [takeWords, h]

theorem Draft.takeWords_cons_eq_ok {dictionary : Dictionary} {limit : Nat} {draft draft' : Draft}
    {w : String} {ws : List String} (h : draft.takeWords dictionary limit (w :: ws) = .ok draft') :
    ∃ next, draft.take limit (classify dictionary w) = .ok next ∧
      next.takeWords dictionary limit ws = .ok draft' := by
  cases htake : draft.take limit (classify dictionary w) with
  | error fault =>
    rw [takeWords_cons_of_error htake] at h
    cases h
  | ok next =>
    rw [takeWords_cons_of_ok htake] at h
    exact ⟨next, rfl, h⟩

section TakeWords

variable {dictionary : Dictionary} {limit : Nat} {draft draft' : Draft} {ws ws' : List String}
variable {fault : Fault}

theorem takeWords_append_of_ok (h : draft.takeWords dictionary limit ws = .ok draft') :
    draft.takeWords dictionary limit (ws ++ ws') = draft'.takeWords dictionary limit ws' := by
  induction ws generalizing draft with
  | nil =>
    cases h
    rfl
  | cons w ws ih =>
    obtain ⟨next, hfirst, hrest⟩ := Draft.takeWords_cons_eq_ok h
    rw [List.cons_append, Draft.takeWords_cons_of_ok hfirst]
    exact ih hrest

theorem takeWords_append_of_error (h : draft.takeWords dictionary limit ws = .error fault) :
    draft.takeWords dictionary limit (ws ++ ws') = .error fault := by
  induction ws generalizing draft with
  | nil => cases h
  | cons w ws ih =>
    rw [List.cons_append]
    cases hw : draft.take limit (classify dictionary w) with
    | error fault' =>
      rw [Draft.takeWords_cons_of_error hw] at h ⊢
      exact h
    | ok next =>
      rw [Draft.takeWords_cons_of_ok hw] at h ⊢
      exact ih h

theorem takeWords_append_eq_ok (h : draft.takeWords dictionary limit (ws ++ ws') = .ok draft') :
    ∃ next, draft.takeWords dictionary limit ws = .ok next ∧
      next.takeWords dictionary limit ws' = .ok draft' := by
  cases hfirst : draft.takeWords dictionary limit ws with
  | ok next =>
    rw [takeWords_append_of_ok hfirst] at h
    exact ⟨next, rfl, h⟩
  | error fault =>
    rw [takeWords_append_of_error hfirst] at h
    cases h

end TakeWords

theorem Draft.body_of_take_end {draft draft' : Draft} {token : Token} {limit : Nat}
    (hend : token.structural? = some .semicolon) (htake : draft.take limit token = .ok draft') :
    ∃ body, draft.body = .ok body := by
  obtain ⟨entry, rfl, hb⟩ := Token.call_of_structural? hend
  simp only [Draft.take, hb, Draft.shape] at htake
  cases hbody : draft.body with
  | ok body => exact ⟨body, rfl⟩
  | error fault =>
    rw [hbody] at htake
    cases htake

/-- The definition of `name` is complete, and nothing of it is left on the stacks. -/
structure Defined (below : Machine) (name : String) (body : List Token) (m : Machine) : Prop where
  mode : m.mode = .immediate
  compiling : m.compiling = none
  stack : m.stack = below.stack
  returns : m.returns = below.returns
  dictionary : m.dictionary = below.dictionary.install name (.definition body)
  exiting : m.exiting = below.exiting
  level : m.log.level = below.log.level

/-- What the compiler does with a word of an open definition: the word shapes the draft or is added
to it, starts a comment, ends the definition, or fails. -/
inductive Compiles (below : Machine) (name : String) (draft : Draft) (m : Machine) (word : String) :
    Outcome Flow → Prop where
  | taken {draft' : Draft} {m' : Machine} (forDraft : (classify below.dictionary word).ForDraft)
      (take : draft.take below.markLimit (classify below.dictionary word) = .ok draft')
      (drafting : Drafting below name draft' m') (quiet : Quiet m m') :
      Compiles below name draft m word (.ok .next m')
  | skipped {c : Comment} {m' : Machine}
      (comment : (classify below.dictionary word).comment? = some c)
      (drafting : Drafting below name draft m') (input : m'.input = c.skip m.input)
      (output : m'.output = m.output) (depth : m'.depth = m.depth) :
      Compiles below name draft m word (.ok .next m')
  | ended {body : List Token} {m' : Machine}
      (ends : (classify below.dictionary word).structural? = some .semicolon)
      (complete : draft.body = .ok body) (defined : Defined below name body m')
      (quiet : Quiet m m') : Compiles below name draft m word (.ok .next m')
  | failed {fault : Fault} {m' : Machine}
      (take : draft.take below.markLimit (classify below.dictionary word) = .error fault)
      (dictionary : m'.dictionary = below.dictionary) (quiet : Quiet m m') :
      Compiles below name draft m word (.error fault m')

namespace Drafting

variable {below m : Machine} {name : String} {draft draft' : Draft} {fault : Fault}
variable {body : List Token} {rest : List String}

theorem withInput (h : Drafting below name draft m) (text : List Char) :
    Drafting below name draft { m with input := text } :=
  { h with }

theorem closeDefinition_eq (h : Drafting below name draft m) (hbody : draft.body = .ok body) :
    ∃ m', closeDefinition m = .ok () m' ∧ Defined below name body m' := by
  obtain ⟨current, contexts⟩ := draft
  cases contexts with
  | cons context outer => cases hbody
  | nil =>
    obtain rfl : current = body := by simpa [Draft.body] using hbody
    have hstack : m.stack = pendings current ++ .opened .colon :: below.stack := by
      simp [h.stack, Draft.cells]
    have hreturns : m.returns = .opened .colon :: below.returns := by
      simp [h.returns, Draft.marks]
    unfold closeDefinition
    rw [Action.bind_of_ok (closeStructure_eq hreturns List.mem_cons_self)]
    rw [Action.bind_of_ok (popPending_eq (m := { m with returns := below.returns }) hstack)]
    unfold installDefinition
    rw [Action.bind_of_ok (by rfl)]
    dsimp only
    rw [h.compiling]
    dsimp only
    rw [Action.bind_of_ok (by rfl), Action.bind_of_ok (by rfl)]
    have hdictionary : m.dictionary.install name (.definition current) =
        below.dictionary.install name (.definition current) := by
      rw [h.dictionary]
    dsimp only
    split
    · refine ⟨_, rfl, rfl, rfl, rfl, rfl, hdictionary, h.exiting, ?_⟩
      exact ((Log.add_level _ _).trans (Log.add_level _ _)).trans h.level
    · refine ⟨_, rfl, rfl, rfl, rfl, rfl, hdictionary, h.exiting, ?_⟩
      exact (Log.add_level _ _).trans h.level

theorem compile_of_end (h : Drafting below name draft m) {word : String}
    (hend : (classify below.dictionary word).structural? = some .semicolon)
    (hbody : draft.body = .ok body) :
    ∃ m', compile (classify below.dictionary word) m = .ok .next m' ∧
      Defined below name body m' ∧ Quiet m m' := by
  obtain ⟨entry, hclassify, hb⟩ := Token.call_of_structural? hend
  have hnote := h.note ⟨.debug, "compile", ";", none⟩
  obtain ⟨m', hclose, hdefined⟩ := hnote.closeDefinition_eq hbody
  have hquiet := Action.Obeys.closeDefinition (m.note ⟨.debug, "compile", ";", none⟩)
  rw [hclose] at hquiet
  refine ⟨m', ?_, hdefined, Quiet.trans (Action.Obeys.tell _ _ _ _ m) hquiet⟩
  rw [hclassify]
  simp only [compile, hb]
  exact (Action.bind_of_ok rfl).trans (Action.bind_of_ok hclose)

theorem compile_of_comment (h : Drafting below name draft m) {word : String} {c : Comment}
    (hcomment : (classify below.dictionary word).comment? = some c) :
    ∃ m', compile (classify below.dictionary word) m = .ok .next m' ∧
      Drafting below name draft m' ∧ m'.input = c.skip m.input ∧ m'.output = m.output ∧
      m'.depth = m.depth := by
  obtain ⟨entry, hclassify, hb⟩ := Token.call_of_comment? hcomment
  have hnote := h.note ⟨.debug, "compile", c.name, none⟩
  refine ⟨_, ?_, hnote.withInput (c.skip m.input), rfl, rfl, rfl⟩
  rw [hclassify]
  simp only [compile, hb]
  exact (Action.bind_of_ok rfl).trans (Action.bind_of_ok (c.effect_eq _))

theorem compile_cases (h : Drafting below name draft m) (word : String) :
    Compiles below name draft m word (compile (classify below.dictionary word) m) := by
  cases htake : draft.take below.markLimit (classify below.dictionary word) with
  | error fault =>
    obtain ⟨m', hcompile, hdictionary, hquiet⟩ := h.compile_of_take_error htake
    rw [hcompile]
    exact .failed htake hdictionary hquiet
  | ok draft' =>
    cases hcomment : (classify below.dictionary word).comment? with
    | some c =>
      obtain ⟨m', hcompile, hdrafting, hinput, houtput, hdepth⟩ := h.compile_of_comment hcomment
      rw [hcompile]
      exact .skipped hcomment hdrafting hinput houtput hdepth
    | none =>
      by_cases hend : (classify below.dictionary word).structural? = some .semicolon
      · obtain ⟨body, hbody⟩ := Draft.body_of_take_end hend htake
        obtain ⟨m', hcompile, hdefined, hquiet⟩ := h.compile_of_end hend hbody
        rw [hcompile]
        exact .ended hend hbody hdefined hquiet
      · have hdraft : (classify below.dictionary word).ForDraft :=
          Token.forDraft_iff.mpr ⟨hend, hcomment⟩
        obtain ⟨m', hcompile, hdrafting, hquiet⟩ := h.compile_of_take hdraft htake
        rw [hcompile]
        exact .taken hdraft htake hdrafting hquiet

theorem dispatch_eq (h : Drafting below name draft m) (bounds : Bounds) (word : String)
    (text : List Char) : dispatch bounds word { m with input := text } =
      some (compile (classify below.dictionary word) { m with input := text }) := by
  rw [dispatch_of_compile (m := { m with input := text }) h.mode, ← h.dictionary]

theorem runInput_eq_resume (h : Drafting below name draft m) (bounds : Bounds) {word : String}
    {text : List Char} (hnext : Text.nextWord m.input = (some word, text)) :
    runInput bounds m =
      resume bounds (compile (classify below.dictionary word) { m with input := text }) := by
  rw [runInput_of_nextWord hnext, h.dispatch_eq]
  rfl

theorem runInput_of_comments (h : Drafting below name draft m) (bounds : Bounds) :
    ∃ m', runInput bounds m = runInput bounds m' ∧ Drafting below name draft m' ∧
      bodyWords below.dictionary m'.input = bodyWords below.dictionary m.input ∧
      (∀ {word text}, Text.nextWord m'.input = (some word, text) →
        (classify below.dictionary word).comment? = none) ∧
      m'.output = m.output ∧ m'.depth = m.depth := by
  generalize htext : m.input = text
  induction text using bodyWords.induct below.dictionary generalizing m with
  | case1 text rest hnext =>
    refine ⟨m, rfl, h, by rw [htext], ?_, rfl, rfl⟩
    intro word text' hword
    rw [htext, hnext] at hword
    cases hword
  | case2 text word rest hnext c hcomment ih =>
    rw [← htext] at hnext ⊢
    obtain ⟨m₁, hcompile, hdrafting, hinput, houtput, hdepth⟩ :=
      (h.withInput rest).compile_of_comment hcomment
    obtain ⟨m', hrun, hdrafting', hwords, hword, houtput', hdepth'⟩ := ih hdrafting hinput
    refine ⟨m', ?_, hdrafting', ?_, hword, houtput'.trans houtput, hdepth'.trans hdepth⟩
    · rw [h.runInput_eq_resume bounds hnext, hcompile]
      exact hrun
    · rw [hwords, bodyWords_of_comment hnext hcomment]
  | case3 text word rest hnext hcomment =>
    refine ⟨m, rfl, h, by rw [htext], ?_, rfl, rfl⟩
    intro word' text' hword
    rw [htext, hnext] at hword
    cases hword
    exact hcomment

/-- The next word that the compiler finds is compiled, in front of the text behind it. -/
theorem runInput_of_bodyWords (h : Drafting below name draft m) (bounds : Bounds) {word : String}
    (hwords : bodyWords below.dictionary m.input = word :: rest) :
    ∃ m', runInput bounds m = resume bounds (compile (classify below.dictionary word) m') ∧
      Drafting below name draft m' ∧
      (if (classify below.dictionary word).structural? = some .semicolon then Text.words m'.input
        else bodyWords below.dictionary m'.input) = rest ∧
      m'.output = m.output ∧ m'.depth = m.depth := by
  obtain ⟨m₁, hrun, hdrafting, hsame, hcomment, houtput, hdepth⟩ := h.runInput_of_comments bounds
  rw [← hsame] at hwords
  rcases hnext : Text.nextWord m₁.input with ⟨first, text⟩
  cases first with
  | none =>
    rw [bodyWords_of_none hnext] at hwords
    cases hwords
  | some first =>
    rw [bodyWords_of_word hnext (hcomment hnext)] at hwords
    obtain ⟨rfl, hrest⟩ := List.cons.inj hwords
    exact ⟨{ m₁ with input := text }, hrun.trans (hdrafting.runInput_eq_resume bounds hnext),
      hdrafting.withInput text, hrest, houtput, hdepth⟩

theorem runInput_of_no_bodyWords (h : Drafting below name draft m) (bounds : Bounds)
    (hwords : bodyWords below.dictionary m.input = []) :
    ∃ m', runInput bounds m = some (.ok .next m') ∧ Drafting below name draft m' ∧
      m'.output = m.output ∧ m'.depth = m.depth := by
  obtain ⟨m₁, hrun, hdrafting, hsame, hcomment, houtput, hdepth⟩ := h.runInput_of_comments bounds
  rw [← hsame] at hwords
  rcases hnext : Text.nextWord m₁.input with ⟨first, text⟩
  cases first with
  | none =>
    have hnil : runInput bounds m₁ = some (.ok .next { m₁ with input := [] }) :=
      runInput_of_nil (Text.words_of_nextWord_none hnext)
    exact ⟨_, hrun.trans hnil, hdrafting.withInput [], houtput, hdepth⟩
  | some first =>
    rw [bodyWords_of_word hnext (hcomment hnext)] at hwords
    cases hwords

theorem runInput_of_take (h : Drafting below name draft m) (bounds : Bounds) {word : String}
    (hwords : bodyWords below.dictionary m.input = word :: rest)
    (hdraft : (classify below.dictionary word).ForDraft)
    (htake : draft.take below.markLimit (classify below.dictionary word) = .ok draft') :
    ∃ m', runInput bounds m = runInput bounds m' ∧ Drafting below name draft' m' ∧
      bodyWords below.dictionary m'.input = rest ∧ m'.output = m.output ∧ m'.depth = m.depth := by
  obtain ⟨m₁, hrun, h₁, hrest, houtput, hdepth⟩ := h.runInput_of_bodyWords bounds hwords
  rw [if_neg (Token.forDraft_iff.mp hdraft).1] at hrest
  obtain ⟨m', hcompile, hdrafting, hquiet⟩ := h₁.compile_of_take hdraft htake
  rw [hcompile] at hrun
  exact ⟨m', hrun, hdrafting, by rw [hquiet.input, hrest], hquiet.output.trans houtput,
    hquiet.depth.trans hdepth⟩

theorem runInput_of_take_error (h : Drafting below name draft m) (bounds : Bounds) {word : String}
    (hwords : bodyWords below.dictionary m.input = word :: rest)
    (htake : draft.take below.markLimit (classify below.dictionary word) = .error fault) :
    ∃ m', runInput bounds m = some (.error fault m') ∧ m'.dictionary = below.dictionary ∧
      m'.output = m.output := by
  obtain ⟨m₁, hrun, h₁, -, houtput, -⟩ := h.runInput_of_bodyWords bounds hwords
  obtain ⟨m', hcompile, hdictionary, hquiet⟩ := h₁.compile_of_take_error htake
  rw [hcompile] at hrun
  exact ⟨m', hrun, hdictionary, hquiet.output.trans houtput⟩

/-- The words of a body are taken one after the other, up to the first that does not fit. -/
theorem runInput_of_takeWords (bounds : Bounds) {ws : List String} (h : Drafting below name draft m)
    (hwords : bodyWords below.dictionary m.input = ws ++ rest)
    (hdraft : ∀ w ∈ ws, (classify below.dictionary w).ForDraft)
    (htake : draft.takeWords below.dictionary below.markLimit ws = .ok draft') :
    ∃ m', runInput bounds m = runInput bounds m' ∧ Drafting below name draft' m' ∧
      bodyWords below.dictionary m'.input = rest ∧ m'.output = m.output ∧ m'.depth = m.depth := by
  induction ws generalizing draft m with
  | nil =>
    cases htake
    exact ⟨m, rfl, h, hwords, rfl, rfl⟩
  | cons w ws ih =>
    obtain ⟨next, hfirst, hrest⟩ := Draft.takeWords_cons_eq_ok htake
    obtain ⟨m₁, hrun, hdrafting, htext, houtput, hdepth⟩ :=
      h.runInput_of_take bounds hwords (hdraft w List.mem_cons_self) hfirst
    obtain ⟨m₂, hrun', hdrafting', htext', houtput', hdepth'⟩ :=
      ih hdrafting htext (fun v hv => hdraft v (List.mem_cons_of_mem w hv)) hrest
    exact ⟨m₂, hrun.trans hrun', hdrafting', htext', houtput'.trans houtput,
      hdepth'.trans hdepth⟩

theorem runInput_of_takeWords_error (bounds : Bounds) {ws : List String}
    (h : Drafting below name draft m) (hwords : bodyWords below.dictionary m.input = ws)
    (hdraft : ∀ w ∈ ws.dropLast, (classify below.dictionary w).ForDraft)
    (htake : draft.takeWords below.dictionary below.markLimit ws = .error fault) :
    ∃ m', runInput bounds m = some (.error fault m') ∧ m'.dictionary = below.dictionary ∧
      m'.output = m.output := by
  induction ws generalizing draft m with
  | nil => cases htake
  | cons w ws ih =>
    cases hfirst : draft.take below.markLimit (classify below.dictionary w) with
    | error fault' =>
      rw [Draft.takeWords_cons_of_error hfirst] at htake
      cases htake
      exact h.runInput_of_take_error bounds hwords hfirst
    | ok next =>
      rw [Draft.takeWords_cons_of_ok hfirst] at htake
      -- The words go on, for the first of them fits.
      have hne : ws ≠ [] := by
        rintro rfl
        cases htake
      rw [List.dropLast_cons_of_ne_nil hne] at hdraft
      obtain ⟨m₁, hrun, hdrafting, htext, houtput, -⟩ :=
        h.runInput_of_take bounds hwords (hdraft w List.mem_cons_self) hfirst
      obtain ⟨m₂, hrun', hdictionary, houtput'⟩ :=
        ih hdrafting htext (fun v hv => hdraft v (List.mem_cons_of_mem w hv)) htake
      exact ⟨m₂, hrun.trans hrun', hdictionary, houtput'.trans houtput⟩

theorem runInput_of_body (h : Drafting below name draft m) (bounds : Bounds) {last : String}
    (hend : (classify below.dictionary last).structural? = some .semicolon)
    (hwords : bodyWords below.dictionary m.input = [last]) (hbody : draft.body = .ok body) :
    ∃ m', runInput bounds m = some (.ok .next m') ∧ Defined below name body m' ∧
      m'.output = m.output ∧ m'.depth = m.depth := by
  obtain ⟨m₁, hrun, h₁, hrest, houtput, hdepth⟩ := h.runInput_of_bodyWords bounds hwords
  rw [if_pos hend] at hrest
  obtain ⟨m', hcompile, hdefined, hquiet⟩ := h₁.compile_of_end hend hbody
  rw [hcompile] at hrun
  have hnil : runInput bounds m' = some (.ok .next { m' with input := [] }) := by
    apply runInput_of_nil
    rw [hquiet.input, hrest]
  exact ⟨_, hrun.trans hnil, { hdefined with }, hquiet.output.trans houtput,
    hquiet.depth.trans hdepth⟩

end Drafting

section Colon

variable {m : Machine} {name : String} {text : List Char}

def Machine.named (m : Machine) (name : String) (text : List Char) : Machine :=
  { { m with input := text }.note ⟨.debug, ":", "compiling", some (.text name)⟩ with
    compiling := some name
    mode := .compile }

@[simp] theorem Machine.named_returns (m : Machine) (name : String) (text : List Char) :
    (m.named name text).returns = m.returns := rfl

theorem openDefinition_of_nextWord (hnext : Text.nextWord m.input = (some name, text)) :
    openDefinition m = openStructure .colon (m.named name text) := by
  unfold openDefinition
  rw [Action.bind_of_ok (readWord_of_nextWord hnext)]
  rfl

theorem openDefinition_of_room (hnext : Text.nextWord m.input = (some name, text))
    (hroom : 0 < m.markLimit) :
    ∃ m', openDefinition m = .ok () m' ∧ Drafting m name {} m' ∧ m'.input = text ∧
      m'.output = m.output ∧ m'.depth = m.depth := by
  unfold Machine.markLimit at hroom
  refine ⟨_, (openDefinition_of_nextWord hnext).trans (if_neg ?_), ?_, rfl, rfl, rfl⟩
  · rw [Machine.named_returns]
    omega
  · refine ⟨rfl, rfl, rfl, rfl, rfl, rfl, Log.add_level _ _, ?_⟩
    simp only [Draft.marks, List.flatMap_nil, List.nil_append, List.length_singleton]
    omega

theorem openDefinition_of_full (hnext : Text.nextWord m.input = (some name, text))
    (hroom : ¬ 0 < m.markLimit) :
    openDefinition m = .error .tooDeep (m.named name text) := by
  unfold Machine.markLimit at hroom
  refine (openDefinition_of_nextWord hnext).trans (if_pos ?_)
  rw [Machine.named_returns]
  omega

/-- The body that the words of a definition make, where `limit` is the greatest number of marks. -/
def bodyOf (dictionary : Dictionary) (limit : Nat) (ws : List String) : Except Fault (List Token) :=
  if 0 < limit then
    match Draft.takeWords dictionary limit {} ws with
    | .ok draft => draft.body
    | .error fault => .error fault
  else .error .tooDeep

variable {ws : List String} {body : List Token} {fault : Fault}

theorem dispatch_colon (bounds : Bounds) (hmode : m.mode = .immediate)
    (hcolon : m.dictionary.readAhead? ":" = some .colon) :
    dispatch bounds ":" m = some ((do openDefinition; return .next : Action Flow)
      (m.note ⟨.debug, "interpret", ":", none⟩)) := by
  obtain ⟨word, hclassify, hword⟩ := classify_of_readAhead? (r := .colon) hcolon
  rw [dispatch_of_immediate hmode]
  simp only [show ":" = ReadAhead.colon.name from rfl, hclassify, interpret, hword]
  rfl

theorem runInput_of_colon (bounds : Bounds) (hmode : m.mode = .immediate)
    (hcolon : m.dictionary.readAhead? ":" = some .colon)
    (hnext : Text.nextWord m.input = (some ":", text)) :
    runInput bounds m = resume bounds ((do openDefinition; return .next : Action Flow)
      ({ m with input := text }.note ⟨.debug, "interpret", ":", none⟩)) := by
  rw [runInput_of_nextWord hnext,
    dispatch_colon bounds (m := { m with input := text }) hmode hcolon]
  rfl

/-- The text starts with a colon and a name, and the compiler finds the words `ws` behind them. -/
def OpensDefinition (dictionary : Dictionary) (text : List Char) (name : String)
    (ws : List String) : Prop :=
  ∃ text' rest, Text.nextWord text = (some ":", text') ∧ Text.nextWord text' = (some name, rest) ∧
    bodyWords dictionary rest = ws

theorem opensDefinition_of_words {dictionary : Dictionary}
    (hwords : Text.words text = ":" :: name :: ws)
    (hcomment : ∀ w ∈ ws, (classify dictionary w).comment? = none) :
    OpensDefinition dictionary text name ws := by
  obtain ⟨text', hnext, htext'⟩ := Text.nextWord_of_words_cons hwords
  obtain ⟨rest, hnext', hrest⟩ := Text.nextWord_of_words_cons htext'
  refine ⟨text', rest, hnext, hnext', ?_⟩
  rw [← hrest] at hcomment ⊢
  exact bodyWords_eq_words hcomment

theorem runInput_of_name (bounds : Bounds) (hmode : m.mode = .immediate)
    (hcolon : m.dictionary.readAhead? ":" = some .colon)
    (hopens : OpensDefinition m.dictionary m.input name ws) (hroom : 0 < m.markLimit) :
    ∃ m', runInput bounds m = runInput bounds m' ∧ Drafting m name {} m' ∧
      bodyWords m.dictionary m'.input = ws ∧ m'.output = m.output ∧ m'.depth = m.depth := by
  obtain ⟨text, text', hnext, hnext', hwords⟩ := hopens
  obtain ⟨m', hopen, h, hinput, houtput, hdepth⟩ := openDefinition_of_room
    (m := { m with input := text }.note ⟨.debug, "interpret", ":", none⟩) hnext' hroom
  refine ⟨m', ?_, ?_, by rw [hinput, hwords], houtput, hdepth⟩
  · rw [runInput_of_colon bounds hmode hcolon hnext, Action.bind_of_ok hopen]
    rfl
  · exact { h with level := h.level.trans (Log.add_level _ _) }

theorem runInput_of_name_full (bounds : Bounds) (hmode : m.mode = .immediate)
    (hcolon : m.dictionary.readAhead? ":" = some .colon)
    (hopens : OpensDefinition m.dictionary m.input name ws) (hroom : ¬ 0 < m.markLimit) :
    ∃ m', runInput bounds m = some (.error .tooDeep m') ∧ m'.dictionary = m.dictionary ∧
      m'.output = m.output := by
  obtain ⟨text, text', hnext, hnext', -⟩ := hopens
  have hfull := openDefinition_of_full
    (m := { m with input := text }.note ⟨.debug, "interpret", ":", none⟩) hnext' hroom
  have hopen : (do openDefinition; return .next : Action Flow)
      ({ m with input := text }.note ⟨.debug, "interpret", ":", none⟩) = .error .tooDeep _ :=
    Action.bind_of_error hfull
  rw [runInput_of_colon bounds hmode hcolon hnext, hopen]
  exact ⟨_, rfl, rfl, rfl⟩

section Line

variable (bounds : Bounds) {line : String} (hmode : m.mode = .immediate)
variable (hcolon : m.dictionary.readAhead? ":" = some .colon)
include hmode hcolon

theorem evaluate_of_opens (hopens : OpensDefinition m.dictionary line.toList name ws)
    (hdraft : ∀ w ∈ ws, (classify m.dictionary w).ForDraft) (hroom : 0 < m.markLimit)
    {draft : Draft} (htake : Draft.takeWords m.dictionary m.markLimit {} ws = .ok draft) :
    ∃ m', evaluate bounds m line = some (" compiled", m') ∧ Drafting m name draft m' := by
  obtain ⟨m₁, hrun₁, h₁, htext₁, houtput₁, -⟩ :=
    runInput_of_name (m := m.reading line) bounds hmode hcolon hopens hroom
  obtain ⟨m₂, hrun₂, h₂, htext₂, houtput₂, -⟩ :=
    h₁.runInput_of_takeWords bounds (htext₁.trans ws.append_nil.symm) hdraft htake
  obtain ⟨m₃, hrun₃, h₃, houtput₃, -⟩ := h₂.runInput_of_no_bodyWords bounds htext₂
  have houtput : m₃.output = "" := houtput₃.trans (houtput₂.trans houtput₁)
  have hline := evaluate_of_next (hrun₁.trans (hrun₂.trans hrun₃)) houtput
  rw [if_pos h₃.mode] at hline
  exact ⟨{ m₃ with output := "" }, hline, { h₃ with }⟩

/-- A line that opens a definition and ends it installs the body that its words make. -/
theorem evaluate_of_opens_body {last : String}
    (hopens : OpensDefinition m.dictionary line.toList name (ws ++ [last]))
    (hend : (classify m.dictionary last).structural? = some .semicolon)
    (hdraft : ∀ w ∈ ws, (classify m.dictionary w).ForDraft)
    (hbody : bodyOf m.dictionary m.markLimit ws = .ok body) :
    ∃ m', evaluate bounds m line = some (" ok", m') ∧ Defined m name body m' ∧
      m'.depth = m.depth := by
  unfold bodyOf at hbody
  split at hbody
  · rename_i hroom
    split at hbody
    · rename_i draft htake
      obtain ⟨m₁, hrun₁, h₁, htext₁, houtput₁, hdepth₁⟩ :=
        runInput_of_name (m := m.reading line) bounds hmode hcolon hopens hroom
      obtain ⟨m₂, hrun₂, h₂, htext₂, houtput₂, hdepth₂⟩ :=
        h₁.runInput_of_takeWords bounds htext₁ hdraft htake
      obtain ⟨m₃, hrun₃, h₃, houtput₃, hdepth₃⟩ := h₂.runInput_of_body bounds hend htext₂ hbody
      have houtput : m₃.output = "" := houtput₃.trans (houtput₂.trans houtput₁)
      have hline := evaluate_of_next (hrun₁.trans (hrun₂.trans hrun₃)) houtput
      rw [if_neg (by simp [h₃.mode])] at hline
      exact ⟨{ m₃ with output := "" }, hline, { h₃ with }, hdepth₃.trans (hdepth₂.trans hdepth₁)⟩
    · cases hbody
  · cases hbody

theorem evaluate_of_opens_error (hopens : OpensDefinition m.dictionary line.toList name ws)
    (hdraft : ∀ w ∈ ws.dropLast, (classify m.dictionary w).ForDraft)
    (hfault : ¬ 0 < m.markLimit ∧ fault = .tooDeep ∨
      0 < m.markLimit ∧ Draft.takeWords m.dictionary m.markLimit {} ws = .error fault) :
    ∃ m', evaluate bounds m line = some (" ? " ++ fault.message, m') ∧
      m'.dictionary = m.dictionary := by
  suffices hrun : ∃ m', runInput bounds (m.reading line) = some (.error fault m') ∧
      m'.dictionary = m.dictionary ∧ m'.output = "" by
    obtain ⟨m', hrun, hdictionary, houtput⟩ := hrun
    obtain ⟨m₁, hline, hkept⟩ := evaluate_of_error hrun houtput
    exact ⟨m₁, hline, hkept.trans hdictionary⟩
  rcases hfault with ⟨hroom, rfl⟩ | ⟨hroom, htake⟩
  · exact runInput_of_name_full (m := m.reading line) bounds hmode hcolon hopens hroom
  · obtain ⟨m₁, hrun₁, h₁, htext₁, houtput₁, -⟩ :=
      runInput_of_name (m := m.reading line) bounds hmode hcolon hopens hroom
    obtain ⟨m₂, hrun₂, hdictionary, houtput₂⟩ :=
      h₁.runInput_of_takeWords_error bounds htext₁ hdraft htake
    exact ⟨m₂, hrun₁.trans hrun₂, hdictionary, houtput₂.trans houtput₁⟩

/-- Where the words make no body, the first of them that does not fit is out of place, or the
word that ends the definition is. -/
theorem evaluate_of_opens_body_error {last : String}
    (hopens : OpensDefinition m.dictionary line.toList name (ws ++ [last]))
    (hend : (classify m.dictionary last).structural? = some .semicolon)
    (hdraft : ∀ w ∈ ws, (classify m.dictionary w).ForDraft)
    (hbody : bodyOf m.dictionary m.markLimit ws = .error fault) :
    ∃ m', evaluate bounds m line = some (" ? " ++ fault.message, m') ∧
      m'.dictionary = m.dictionary := by
  have hdraft' : ∀ w ∈ (ws ++ [last]).dropLast, (classify m.dictionary w).ForDraft := by
    rwa [List.dropLast_concat]
  apply evaluate_of_opens_error bounds hmode hcolon hopens hdraft'
  unfold bodyOf at hbody
  split at hbody
  · rename_i hroom
    refine .inr ⟨hroom, ?_⟩
    split at hbody
    · rename_i draft htake
      obtain ⟨word, hclassify, hword⟩ := Token.call_of_structural? hend
      rw [takeWords_append_of_ok htake]
      apply Draft.takeWords_cons_of_error
      simp only [hclassify, Draft.take, hword, Draft.shape, hbody]
      rfl
    · rename_i fault' htake
      cases hbody
      exact takeWords_append_of_error htake
  · rename_i hroom
    cases hbody
    exact .inl ⟨hroom, rfl⟩

end Line

section Words

variable (bounds : Bounds) {line : String} (hmode : m.mode = .immediate)
variable (hcolon : m.dictionary.readAhead? ":" = some .colon)
variable (hend : m.dictionary.structural? ";" = some .semicolon)
variable (hwords : Text.words line.toList = ":" :: name :: (ws ++ [";"]))
variable (hdraft : ∀ w ∈ ws, (classify m.dictionary w).ForDraft)
include hend

theorem classify_semicolon : (classify m.dictionary ";").structural? = some .semicolon := by
  obtain ⟨word, hclassify, hword⟩ := classify_of_structural? (s := .semicolon) hend
  rw [show ";" = Structural.semicolon.name from rfl, hclassify, Token.structural?, hword]
  rfl

include hwords hdraft

theorem opensDefinition_of_forDraft :
    OpensDefinition m.dictionary line.toList name (ws ++ [";"]) := by
  apply opensDefinition_of_words hwords
  refine List.forall_mem_append.mpr ⟨fun w hw => (Token.forDraft_iff.mp (hdraft w hw)).2, ?_⟩
  intro w hw
  obtain rfl := List.mem_singleton.mp hw
  obtain ⟨word, hclassify, hword⟩ := Token.call_of_structural? (classify_semicolon hend)
  rw [hclassify, Token.comment?, hword]
  rfl

include hmode hcolon

theorem evaluate_of_bodyOf (hbody : bodyOf m.dictionary m.markLimit ws = .ok body) :
    ∃ m', evaluate bounds m line = some (" ok", m') ∧ Defined m name body m' ∧
      m'.depth = m.depth :=
  evaluate_of_opens_body bounds hmode hcolon (opensDefinition_of_forDraft hend hwords hdraft)
    (classify_semicolon hend) hdraft hbody

theorem evaluate_of_bodyOf_error (hbody : bodyOf m.dictionary m.markLimit ws = .error fault) :
    ∃ m', evaluate bounds m line = some (" ? " ++ fault.message, m') ∧
      m'.dictionary = m.dictionary :=
  evaluate_of_opens_body_error bounds hmode hcolon (opensDefinition_of_forDraft hend hwords hdraft)
    (classify_semicolon hend) hdraft hbody

end Words

end Colon

end ForthMachine
