import ForthMachine.Proofs.Calls
import ForthMachine.Proofs.Faults

/-!
# How deep accepted definitions nest

While a definition is compiled, its marks stand for the runs that its structures will make, one
inside the other, and so the room for marks bounds the nesting of its body. Only the word that ends
a loop with a flag makes a run that no mark stands for: the branch that turns the flag around.
-/

set_option autoImplicit false

namespace ForthMachine

open Machine

@[simp] theorem nestingAll_append (tokens tokens' : List Token) :
    Token.nestingAll (tokens ++ tokens') =
      max (Token.nestingAll tokens) (Token.nestingAll tokens') := by
  induction tokens with
  | nil => simp [Token.nestingAll]
  | cons token tokens ih => simp only [List.cons_append, Token.nestingAll, ih, Nat.max_assoc]

@[simp] theorem nestingAll_singleton (token : Token) :
    Token.nestingAll [token] = token.nesting := by
  simp [Token.nestingAll]

def Token.CallsDefinition : Token → Prop
  | .call word =>
    match word.behavior with
    | .definition _ => True
    | _ => False
  | _ => False

instance : DecidablePred Token.CallsDefinition
  | .call ⟨_, _, .definition _⟩ => isTrue trivial
  | .call ⟨_, _, .primitive _⟩ | .call ⟨_, _, .structural _⟩ | .call ⟨_, _, .readAhead _⟩
  | .call ⟨_, _, .comment _⟩ => isFalse id
  | .number _ | .unresolved _ | .counted _ _ | .branch _ _ | .indefinite _ _ | .leave =>
    isFalse id

namespace Draft

/-- The tokens in front of a structure and in its parts nest no deeper than there is room for, where
`outside` marks are open around it. -/
def ContextFits (limit outside : Nat) : Context → Prop
  | .thenPart before | .loopPart before | .beginPart before =>
    Token.nestingAll before + outside ≤ limit
  | .elsePart before tokens | .whilePart before tokens =>
    Token.nestingAll before + outside ≤ limit ∧ Token.nestingAll tokens + outside + 1 ≤ limit

def ContextsFit (limit : Nat) : List Context → Prop
  | [] => True
  | context :: outer =>
    ContextFits limit (marks ⟨[], outer⟩).length context ∧ ContextsFit limit outer

/-- No token of the draft nests deeper than `limit`, counted from the outermost run. -/
structure Fits (limit : Nat) (draft : Draft) : Prop where
  current : Token.nestingAll draft.current + draft.marks.length ≤ limit
  contexts : ContextsFit limit draft.contexts

namespace Fits

variable {limit room : Nat} {draft draft' : Draft}

theorem start (h : 0 < limit) : Fits limit {} :=
  ⟨h, trivial⟩

theorem add (h : draft.Fits limit) {token : Token} (htoken : token.nesting = 0) :
    (draft.add token).Fits limit := by
  refine ⟨?_, h.contexts⟩
  have hcurrent := h.current
  change Token.nestingAll (draft.current ++ [token]) + draft.marks.length ≤ limit
  rw [nestingAll_append, nestingAll_singleton, htoken]
  omega

section Structures

variable {before tokens : List Token} {context : Context} {outer : List Context} {token : Token}

theorem uncons (h : Fits limit ⟨tokens, context :: outer⟩) :
    Token.nestingAll tokens + (context.marks.length + (marks ⟨[], outer⟩).length) ≤ limit ∧
      ContextFits limit (marks ⟨[], outer⟩).length context ∧ ContextsFit limit outer := by
  have hcurrent := h.current
  rw [length_marks_cons] at hcurrent
  exact ⟨hcurrent, h.contexts⟩

theorem enter (hroom : context.marks.length + (marks ⟨[], outer⟩).length ≤ limit)
    (hcontext : ContextFits limit (marks ⟨[], outer⟩).length context)
    (houter : ContextsFit limit outer) : Fits limit ⟨[], context :: outer⟩ := by
  refine ⟨?_, hcontext, houter⟩
  rw [length_marks_cons]
  simp only [Token.nestingAll]
  omega

/-- A structure that is closed is one token among those in front of it. -/
theorem leave (hbefore : Token.nestingAll before + (marks ⟨[], outer⟩).length ≤ limit)
    (htoken : token.nesting + (marks ⟨[], outer⟩).length ≤ limit)
    (houter : ContextsFit limit outer) : Fits limit ⟨before ++ [token], outer⟩ := by
  refine ⟨?_, houter⟩
  change Token.nestingAll (before ++ [token]) + (marks ⟨[], outer⟩).length ≤ limit
  rw [nestingAll_append, nestingAll_singleton]
  omega

end Structures

theorem shape (h : draft.Fits limit) {s : Structural} (hroom : room ≤ limit)
    (huntil : s = .untilWord → draft.marks.length < limit)
    (hshape : draft.shape room s = .ok draft') : draft'.Fits limit := by
  cases Draft.shapes_of_shape hshape with
  | semicolon tokens => exact h
  | leaveWord => exact h.add rfl
  | ifWord hlt | doWord hlt | beginWord hlt =>
    refine enter ?_ h.current h.contexts
    change 1 + draft.marks.length ≤ limit
    omega
  | elseWord before tokens outer =>
    obtain ⟨htokens, hbefore, houter⟩ := h.uncons
    simp only [Context.marks, List.length_singleton] at htokens
    refine enter ?_ ⟨hbefore, ?_⟩ houter
    · simp only [Context.marks, List.length_singleton]
      omega
    · omega
  | whileWord hlt =>
    obtain ⟨htokens, hbefore, houter⟩ := h.uncons
    rw [length_marks_cons] at hlt
    simp only [Context.marks, List.length_singleton] at htokens hlt
    refine enter ?_ ⟨hbefore, ?_⟩ houter
    · simp only [Context.marks, List.length_cons, List.length_nil]
      omega
    · omega
  | ifThen before tokens outer =>
    obtain ⟨htokens, hbefore, houter⟩ := h.uncons
    simp only [Context.marks, List.length_singleton] at htokens
    refine leave hbefore ?_ houter
    simp only [Token.nesting, Token.nestingAll]
    omega
  | elseThen before ifTrue tokens outer =>
    obtain ⟨htokens, ⟨hbefore, hifTrue⟩, houter⟩ := h.uncons
    simp only [Context.marks, List.length_singleton] at htokens
    refine leave hbefore ?_ houter
    simp only [Token.nesting]
    omega
  | loopWord before tokens outer | plusLoop before tokens outer =>
    obtain ⟨htokens, hbefore, houter⟩ := h.uncons
    simp only [Context.marks, List.length_singleton] at htokens
    refine leave hbefore ?_ houter
    simp only [Token.nesting]
    omega
  | untilWord before tokens outer =>
    obtain ⟨htokens, hbefore, houter⟩ := h.uncons
    have hlt := huntil rfl
    rw [length_marks_cons] at hlt
    simp only [Context.marks, List.length_singleton] at htokens hlt
    refine leave hbefore ?_ houter
    -- The branch at the end of the condition is one run deeper than the condition.
    simp only [untilLoop, Token.nesting, nestingAll_append, Token.nestingAll]
    omega
  | repeatWord before condition tokens outer =>
    obtain ⟨htokens, ⟨hbefore, hcondition⟩, houter⟩ := h.uncons
    simp only [Context.marks, List.length_cons, List.length_nil] at htokens
    refine leave hbefore ?_ houter
    simp only [Token.nesting]
    omega

theorem take (h : draft.Fits limit) {token : Token} (hroom : room ≤ limit)
    (hcalls : ¬ token.CallsDefinition)
    (huntil : token.structural? = some .untilWord → draft.marks.length < limit)
    (htake : draft.take room token = .ok draft') : draft'.Fits limit := by
  cases token with
  | number n =>
    cases htake
    exact h.add rfl
  | call word =>
    obtain ⟨serial, name, behavior⟩ := word
    cases behavior with
    | primitive p =>
      cases htake
      exact h.add rfl
    | definition body => exact absurd trivial hcalls
    | structural s => exact h.shape hroom (fun hs => huntil (congrArg some hs)) htake
    | readAhead r => cases htake
    | comment c =>
      cases htake
      exact h
  | unresolved _ | counted _ _ | branch _ _ | indefinite _ _ | leave => cases htake

theorem takeWords {dictionary : Dictionary} (hsound : dictionary.Sound) {ws : List String}
    (h : draft.Fits limit) (hroom : room ≤ limit)
    (hcalls : ∀ w ∈ ws, ¬ (classify dictionary w).CallsDefinition)
    (huntil : ∀ ws₁ ws₂ next, ws = ws₁ ++ "UNTIL" :: ws₂ →
      draft.takeWords dictionary room ws₁ = .ok next → next.marks.length < limit)
    (htake : draft.takeWords dictionary room ws = .ok draft') : draft'.Fits limit := by
  induction ws generalizing draft with
  | nil =>
    cases htake
    exact h
  | cons w ws ih =>
    obtain ⟨next, hfirst, hrest⟩ := takeWords_cons_eq_ok htake
    have hnext : next.Fits limit := by
      refine h.take hroom (hcalls w List.mem_cons_self) ?_ hfirst
      intro hs
      exact huntil [] ws draft (congrArg (· :: ws) (eq_name_of_structural? hsound hs)) rfl
    apply ih hnext (fun v hv => hcalls v (List.mem_cons_of_mem w hv)) ?_ hrest
    intro ws₁ ws₂ after hws htakes
    refine huntil (w :: ws₁) ws₂ after (congrArg (w :: ·) hws) ?_
    rw [takeWords_cons_of_ok hfirst, htakes]

theorem body (h : draft.Fits limit) {body : List Token} (hbody : draft.body = .ok body) :
    Token.nestingAll body + 1 ≤ limit := by
  obtain ⟨tokens, contexts⟩ := draft
  cases contexts with
  | cons context outer => cases hbody
  | nil =>
    cases hbody
    exact h.current

end Fits

end Draft

section Calls

variable {dictionary : Dictionary} {room limit : Nat} {ws : List String} {body : List Token}

theorem nestingAll_of_bodyOf (hsound : dictionary.Sound) (hroom : room ≤ limit)
    (hcalls : ∀ w ∈ ws, ¬ (classify dictionary w).CallsDefinition)
    (huntil : ∀ ws₁ ws₂ draft, ws = ws₁ ++ "UNTIL" :: ws₂ →
      Draft.takeWords dictionary room {} ws₁ = .ok draft → draft.marks.length < limit)
    (hbody : bodyOf dictionary room ws = .ok body) : Token.nestingAll body + 1 ≤ limit := by
  unfold bodyOf at hbody
  split at hbody
  · rename_i hpos
    split at hbody
    · rename_i draft htake
      have hstart : Draft.Fits limit {} := .start (Nat.lt_of_lt_of_le hpos hroom)
      exact (hstart.takeWords hsound hroom hcalls huntil htake).body hbody
    · cases hbody
  · cases hbody

end Calls

theorem Fault.OfRun.ne_tooDeep {nesting depth : Nat} {fault : Fault}
    (h : fault.OfRun (some maxDepth) nesting depth) (hfits : depth + nesting ≤ maxDepth) :
    fault ≠ .tooDeep := by
  rintro rfl
  rcases h with hprimitive | ⟨-, hdeep⟩
  · exact hprimitive
  · simp only [Option.any_some, decide_eq_true_eq] at hdeep
    omega

theorem not_cutOff_of_run {bounds : Bounds} {o : Option (Outcome Flow)}
    (hread : ∀ {m}, o = some (.ok .next m) → Text.words m.input = [])
    (hfault : ∀ {m fault}, o = some (.error fault m) → fault ≠ .tooDeep) :
    cutOff ((o.map outsideLoops).bind (resume bounds)) = false := by
  rcases o with - | ⟨flow, m⟩ | ⟨fault, m⟩
  · rfl
  · cases flow with
    | leave | quit => rfl
    | next =>
      change cutOff (runInput bounds m) = false
      rw [runInput_of_nil (hread rfl)]
      rfl
  · have hne := hfault rfl
    change cutOff (some (.error fault m)) = false
    cases fault <;> first | rfl | exact absurd rfl hne

/-- A call at the prompt is the outermost run, and has room for as many runs as there are marks. -/
theorem call_not_cutOff {m : Machine} (hm : Steady m) (hmode : m.mode = .immediate)
    {name : String} (hname : ¬ Text.IsNumeral name) (hword : Text.IsWord name) {word : Word}
    {body : List Token} (hfind : m.dictionary.find? name = some word)
    (hbody : word.behavior = .definition body) (hfits : Token.nestingAll body + 1 ≤ maxDepth)
    (passes : Nat) : cutOff (runInput { passes } (m.reading name)) = false := by
  obtain ⟨-, hvalues⟩ := hm.of_immediate hmode
  have hsound : Token.AllSound body := by
    have hbehavior := (hm.dictionary.find? hfind).behavior
    rwa [hbody] at hbehavior
  obtain ⟨text, entry, htext, hrun⟩ := runInput_of_definition { passes } (m := m.reading name) hmode
    (Text.words_toList hword) (classify_of_not_isNumeral hname hfind) hbody
  rw [hrun]
  apply not_cutOff_of_run
  · intro m₁ hcall
    have hinput : m₁.input = text := (nested_keepsPlace { passes } body hcall).1.input
    rw [hinput, htext]
  · intro m₁ fault hcall
    have hstart : HoldsValues ({ m.reading name with input := text }.note entry) :=
      ⟨hvalues.stack, hvalues.returns⟩
    have hfault := (runTokens_tame { passes } body hsound).nested hstart hcall
    apply hfault.ne_tooDeep
    change m.depth + (Token.nestingAll body + 1) ≤ maxDepth
    rw [hm.depth]
    omega

/-- The body of an accepted definition that calls no other definition has room to run, unless the
word that ends a loop with a flag finds all marks in use. -/
theorem accepted_definition_runs {m m₁ : Machine} (hm : Reachable m)
    (hmode : m.mode = .immediate) (hcolon : m.dictionary.readAhead? ":" = some .colon)
    (hend : m.dictionary.structural? ";" = some .semicolon) {line name : String}
    {ws : List String} (hopens : OpensDefinition m.dictionary line.toList name (ws ++ [";"]))
    (hlast : ";" ∉ ws) (hname : ¬ Text.IsNumeral name) {passes : Nat}
    (haccepted : evaluate { passes } m line = some (" ok", m₁))
    (hcalls : ∀ w ∈ ws, ¬ (classify m.dictionary w).CallsDefinition)
    (huntil : ∀ ws₁ ws₂ draft, ws = ws₁ ++ "UNTIL" :: ws₂ →
      Draft.takeWords m.dictionary m.markLimit {} ws₁ = .ok draft →
        draft.marks.length < maxDepth) :
    ∃ word body, m₁.dictionary.find? name = some word ∧ word.behavior = .definition body ∧
      Token.nestingAll body + 1 ≤ maxDepth ∧
      ∀ m₂ passes', Reachable m₂ → m₂.mode = .immediate →
        m₂.dictionary.find? name = some word →
          cutOff (runInput { passes := passes' } (m₂.reading name)) = false := by
  have hsound := (steady_of_reachable hm).dictionary
  have hword : Text.IsWord name := by
    obtain ⟨text, rest, -, hnext, -⟩ := hopens
    exact Text.isWord_of_nextWord hnext
  have hdraft : ∀ w ∈ ws, (classify m.dictionary w).ForDraft := by
    have hfront : ";" ∉ (ws ++ [";"]).dropLast := by rwa [List.dropLast_concat]
    intro w hw
    exact hopens.forDraft hsound hfront w (List.mem_append_left _ hw) fun h => hlast (h ▸ hw)
  cases hbody : bodyOf m.dictionary m.markLimit ws with
  | error fault =>
    obtain ⟨m', hline, -⟩ := evaluate_of_opens_body_error { passes } hmode hcolon hopens
      (classify_semicolon hend) hdraft hbody
    rw [haccepted] at hline
    exact absurd (congrArg Prod.fst (Option.some.inj hline)).symm (fault_ne_ok _)
  | ok body =>
    obtain ⟨m', hline, hdefined, -⟩ := evaluate_of_opens_body { passes } hmode hcolon hopens
      (classify_semicolon hend) hdraft hbody
    rw [haccepted] at hline
    obtain rfl : m₁ = m' := congrArg Prod.snd (Option.some.inj hline)
    have hfits : Token.nestingAll body + 1 ≤ maxDepth :=
      nestingAll_of_bodyOf hsound (Nat.sub_le _ _) hcalls huntil hbody
    refine ⟨⟨m.dictionary.installed, name, .definition body⟩, body, ?_, rfl, hfits, ?_⟩
    · rw [hdefined.dictionary]
      exact m.dictionary.find?_install_self name _
    · intro m₂ passes' hm₂ hmode₂ hfind
      exact call_not_cutOff (steady_of_reachable hm₂) hmode₂ hname hword hfind rfl hfits passes'

/-- A loop that a flag ends, with marks left for the branch that turns the flag around. -/
theorem accepted_loop_runs :
    ∃ m₁, evaluate { passes := 0 } Machine.new ": W BEGIN 1 UNTIL ;" = some (" ok", m₁) ∧
      cutOff (runInput { passes := 1 } (m₁.reading "W")) = false := by
  have hline : (evaluate { passes := 0 } Machine.new ": W BEGIN 1 UNTIL ;").map (fun answered =>
      (answered.1, answered.2.mode)) = some (" ok", .immediate) := by
    decide +kernel
  obtain ⟨⟨text, m₁⟩, haccepted, hanswer⟩ := Option.map_eq_some_iff.mp hline
  obtain ⟨rfl, hmode⟩ := Prod.mk.inj hanswer
  have hwords : Text.words ": W BEGIN 1 UNTIL ;".toList =
      ":" :: "W" :: (["BEGIN", "1", "UNTIL"] ++ [";"]) :=
    @words_definitionLine "W" ["BEGIN", "1", "UNTIL"] (by decide) (by decide)
  have hderives : Derives Machine.new.dictionary ["BEGIN", "1", "UNTIL"]
      [untilLoop [.number 1]] 1 :=
    (Derives.plain (w := "1") trivial).untilLoop
  have hpiece : Piece Machine.new.dictionary Machine.new.markLimit _ _ 1 :=
    hderives.piece new_structural
  have hopens := opensDefinition_of_forDraft (new_structural .semicolon) hwords hpiece.forDraft
  have htaken : Draft.takeWords Machine.new.dictionary Machine.new.markLimit {} ["BEGIN", "1"] =
      .ok ⟨[.number 1], [.beginPart []]⟩ :=
    (Draft.takeWords_cons_of_ok (take_structural (new_structural .beginWord) {}) ["1"]).trans
      (Draft.takeWords_cons_of_ok rfl [])
  obtain ⟨word, body, hfind, -, -, hruns⟩ := accepted_definition_runs .new rfl new_colon
    (new_structural .semicolon) hopens (by decide) (by decide) haccepted (by decide +kernel) (by
      intro ws₁ ws₂ draft hws htake
      have hfront : ws₁ = ["BEGIN", "1"] := by
        rcases ws₁ with - | ⟨w₁, - | ⟨w₂, - | ⟨w₃, ws₁⟩⟩⟩ <;> simp_all
      rw [hfront, htaken] at htake
      cases htake
      decide)
  exact ⟨m₁, haccepted, hruns m₁ 1 (Reachable.new.line 0 haccepted) hmode hfind⟩

/-- Branches, each inside the next, around a loop that a flag ends. -/
def towerWords : Nat → List String
  | 0 => ["BEGIN", "1", "UNTIL"]
  | height + 1 => "1" :: "IF" :: (towerWords height ++ ["THEN"])

def towerBody : Nat → List Token
  | 0 => [untilLoop [.number 1]]
  | height + 1 => [.number 1, .branch (towerBody height) []]

theorem isWord_of_mem_towerWords {height : Nat} {w : String} (h : w ∈ towerWords height) :
    Text.IsWord w := by
  induction height with
  | zero =>
    have hwords : ∀ v ∈ towerWords 0, Text.IsWord v := by decide
    exact hwords w h
  | succ height ih =>
    rcases List.mem_cons.mp h with rfl | h
    · decide
    rcases List.mem_cons.mp h with rfl | h
    · decide
    rcases List.mem_append.mp h with h | h
    · exact ih h
    · obtain rfl := List.mem_singleton.mp h
      decide

theorem towerWords_derives (dictionary : Dictionary) (height : Nat) :
    Derives dictionary (towerWords height) (towerBody height) (height + 1) := by
  have hone : Derives dictionary ["1"] [.number 1] 0 := .plain (w := "1") trivial
  induction height with
  | zero => exact hone.untilLoop
  | succ height ih =>
    have hbranch := hone.append ih.ifThen
    rwa [Nat.zero_max] at hbranch

section Deepest

variable {passes : Nat} {m m' : Machine} {fault : Fault}

theorem nested_of_full (h : m.depth = maxDepth) (run : Run) :
    nested (some maxDepth) run m = some (.error .tooDeep m) := by
  unfold nested
  rw [if_pos (by simp [h])]

theorem nested_of_room (h : m.depth < maxDepth) {run : Run}
    (hrun : run { m with depth := m.depth + 1 } = some (.error fault m')) :
    nested (some maxDepth) run m = some (.error fault { m' with depth := m'.depth - 1 }) := by
  unfold nested
  rw [if_neg (by simpa using h), hrun]
  rfl

theorem runTokens_branch {ifTrue ifFalse : List Token}
    (h : nested (some maxDepth) (runTokens { passes } ifTrue) m = some (.error fault m')) :
    runTokens { passes } [.number 1, .branch ifTrue ifFalse] m = some (.error fault m') := by
  have hpop : pop { m with stack := .value 1 :: m.stack } = .ok 1 m := rfl
  have htrue : (1 : Int64) ≠ 0 := by decide
  simp only [runTokens, runToken, hpop, if_pos htrue, h]

theorem runTokens_indefinite {condition body : List Token}
    (h : nested (some maxDepth) (runTokens { passes := passes + 1 } condition) m =
      some (.error fault m')) :
    runTokens { passes := passes + 1 } [.indefinite condition body] m =
      some (.error fault m') := by
  simp only [runTokens, runToken, indefiniteLoop, h]

theorem tower_tooDeep (passes height : Nat) (hdepth : m.depth + height + 1 = maxDepth) :
    ∃ m', runTokens { passes := passes + 1 } (towerBody height) m = some (.error .tooDeep m') ∧
      m'.output = m.output := by
  -- Every branch is one run deeper than the one around it.
  induction height generalizing m with
  | zero =>
    have hturn : runTokens { passes := passes + 1 }
        ([.number 1] ++ [.branch [.number (flag false)] [.number (flag true)]])
        { m with depth := m.depth + 1 } = some (.error .tooDeep { m with depth := m.depth + 1 }) :=
      runTokens_branch (nested_of_full hdepth _)
    exact ⟨_, runTokens_indefinite (nested_of_room (by omega) hturn), rfl⟩
  | succ height ih =>
    obtain ⟨m', hinner, houtput⟩ := ih (m := { m with depth := m.depth + 1 }) (by
      change m.depth + 1 + height + 1 = maxDepth
      omega)
    exact ⟨_, runTokens_branch (nested_of_room (by omega) hinner), houtput⟩

theorem evaluate_tower (passes : Nat) {height serial : Nat} (hmode : m.mode = .immediate)
    (hdepth : m.depth + height + 2 = maxDepth)
    (hfind : m.dictionary.find? "T" = some ⟨serial, "T", .definition (towerBody height)⟩) :
    ∃ m', evaluate { passes := passes + 1 } m "T" = some (" ? nesting too deep", m') := by
  obtain ⟨text, entry, -, hrun⟩ := runInput_of_definition { passes := passes + 1 }
    (m := m.reading "T") hmode (Text.words_toList (by decide))
    (classify_of_not_isNumeral (by decide) hfind) rfl
  obtain ⟨m', htower, houtput⟩ := tower_tooDeep passes height
    (m := { ({ m.reading "T" with input := text }.note entry) with depth := m.depth + 1 }) (by
      change m.depth + 1 + height + 1 = maxDepth
      omega)
  have hcall := nested_of_room (m := { m.reading "T" with input := text }.note entry)
    (by change m.depth < maxDepth; omega) htower
  rw [hcall] at hrun
  obtain ⟨m₁, hline, -⟩ := evaluate_of_error hrun houtput
  exact ⟨m₁, hline⟩

end Deepest

/-- The tower that has as many marks open at once as there may be. -/
theorem accepted_tower_too_deep :
    ∃ m₁ m₂, evaluate { passes := 0 } Machine.new (definitionLine "T" (towerWords 254)) =
        some (" ok", m₁) ∧
      evaluate { passes := 1 } m₁ "T" = some (" ? nesting too deep", m₂) := by
  have hpiece : Piece Machine.new.dictionary Machine.new.markLimit (towerWords 254) (towerBody 254)
      255 := (towerWords_derives _ 254).piece new_structural
  obtain ⟨m₁, hline, hdefined, hdepth⟩ := evaluate_of_bodyOf { passes := 0 } rfl new_colon
    (new_structural .semicolon)
    (@words_definitionLine "T" (towerWords 254) (by decide) fun _ => isWord_of_mem_towerWords)
    hpiece.forDraft (hpiece.bodyOf_eq (by decide))
  have hfind : m₁.dictionary.find? "T" =
      some ⟨Machine.new.dictionary.installed, "T", .definition (towerBody 254)⟩ := by
    rw [hdefined.dictionary]
    exact Dictionary.find?_install_self _ _ _
  have hroom : m₁.depth + 254 + 2 = maxDepth := by
    rw [hdepth]
    rfl
  obtain ⟨m₂, hcall⟩ := evaluate_tower 0 hdefined.mode hroom hfind
  exact ⟨m₁, m₂, hline, hcall⟩

end ForthMachine
