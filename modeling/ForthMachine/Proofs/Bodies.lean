import ForthMachine.Proofs.Definitions

/-!
# What bodies are made of

The tokens of a definition come from words of its line and from the words that fold tokens into
one. They are made of numbers, calls of words that run, structures and `LEAVE` at every depth, and
so are the bodies of the words they call. A built-in word is only ever found under its own name.
-/

set_option autoImplicit false

namespace ForthMachine

open Machine

def Text.IsNumeral (word : String) : Prop :=
  (Numeral.parse word).isOk = true

instance : DecidablePred Text.IsNumeral := fun word =>
  inferInstanceAs (Decidable ((Text.Numeral.parse word).isOk = true))

theorem classify_of_not_isNumeral {dictionary : Dictionary} {name : String} {word : Word}
    (hname : ¬ Text.IsNumeral name) (hfind : dictionary.find? name = some word) :
    classify dictionary name = .call word := by
  cases hparse : Text.Numeral.parse name with
  | ok n =>
    rw [Text.IsNumeral, hparse] at hname
    exact absurd rfl hname
  | error fault => exact classify_of_find? hparse hfind

mutual

/-- What a definition may be made of, down to the words that it calls. -/
def Token.Sound : Token → Prop
  | .number _ => True
  | .call word => word.behavior.Runs ∧ ¬ Text.IsNumeral word.name ∧ Word.Sound word
  | .unresolved _ => False
  | .counted body step => Token.AllSound body ∧ (step = .fixed 1 ∨ step = .fromStack)
  | .branch ifTrue ifFalse => Token.AllSound ifTrue ∧ Token.AllSound ifFalse
  | .indefinite condition body => Token.AllSound condition ∧ Token.AllSound body
  | .leave => True
termination_by structural token => token

/-- A built-in word has its own name, and a definition a sound body. -/
def Word.Sound : Word → Prop
  | ⟨_, name, behavior⟩ => Text.IsWord name ∧ Behavior.SoundAs name behavior
termination_by structural word => word

def Behavior.SoundAs (name : String) : Behavior → Prop
  | .primitive p => name = p.name
  | .structural s => name = s.name
  | .readAhead r => name = r.name
  | .comment c => name = c.name
  | .definition body => Token.AllSound body
termination_by structural behavior => behavior

def Token.AllSound : List Token → Prop
  | [] => True
  | token :: tokens => Token.Sound token ∧ Token.AllSound tokens
termination_by structural tokens => tokens

end

theorem Token.allSound_iff {tokens : List Token} :
    Token.AllSound tokens ↔ ∀ token ∈ tokens, token.Sound := by
  induction tokens with
  | nil => simp [Token.AllSound]
  | cons token tokens ih => simp [Token.AllSound, ih]

theorem Token.AllSound.append {tokens tokens' : List Token} (h : Token.AllSound tokens)
    (h' : Token.AllSound tokens') : Token.AllSound (tokens ++ tokens') := by
  rw [Token.allSound_iff] at *
  intro token htoken
  rcases List.mem_append.mp htoken with htoken | htoken
  · exact h token htoken
  · exact h' token htoken

theorem Token.AllSound.concat {tokens : List Token} {token : Token} (h : Token.AllSound tokens)
    (htoken : token.Sound) : Token.AllSound (tokens ++ [token]) :=
  h.append ⟨htoken, trivial⟩

theorem untilLoop_sound {body : List Token} (h : Token.AllSound body) : (untilLoop body).Sound :=
  ⟨h.concat ⟨⟨trivial, trivial⟩, ⟨trivial, trivial⟩⟩, trivial⟩

theorem Word.Sound.isWord {word : Word} (h : word.Sound) : Text.IsWord word.name := by
  obtain ⟨serial, name, behavior⟩ := word
  exact h.1

theorem Word.Sound.behavior {word : Word} (h : word.Sound) :
    word.behavior.SoundAs word.name := by
  obtain ⟨serial, name, behavior⟩ := word
  exact h.2

structure Dictionary.Sound (dictionary : Dictionary) : Prop where
  named : dictionary.IsNamed
  words : ∀ word ∈ dictionary.words, word.Sound

namespace Dictionary.Sound

variable {dictionary : Dictionary} {name : String}

theorem empty : Dictionary.Sound {} :=
  ⟨isNamed_empty, List.forall_mem_nil _⟩

theorem install (h : dictionary.Sound) (hname : Text.IsWord name) {behavior : Behavior}
    (hbehavior : behavior.SoundAs name) : (dictionary.install name behavior).Sound where
  named := h.named.install name behavior
  words word hword := by
    rcases mem_words_install hword with rfl | hword
    · exact ⟨hname, hbehavior⟩
    · exact h.words word hword

theorem find? (h : dictionary.Sound) {word : Word} (hfind : dictionary.find? name = some word) :
    word.Sound :=
  h.words word (mem_words_of_find? hfind)

end Dictionary.Sound

theorem Primitive.isWord_name (p : Primitive) : Text.IsWord p.name := by
  cases p <;> decide

theorem ReadAhead.isWord_name (r : ReadAhead) : Text.IsWord r.name := by
  cases r <;> decide

theorem Comment.isWord_name (c : Comment) : Text.IsWord c.name := by
  cases c <;> decide

theorem Structural.isWord_name (s : Structural) : Text.IsWord s.name := by
  cases s <;> decide

/-- What is kept by the installation of a built-in word under its own name, the dictionary of a new
machine has. -/
theorem new_dictionary_induction {P : Dictionary → Prop} (empty : P {})
    (install : ∀ {dictionary : Dictionary} {name : String} {behavior : Behavior}, P dictionary →
      Text.IsWord name → behavior.SoundAs name → (∀ body, behavior ≠ .definition body) →
        P (dictionary.install name behavior)) : P Machine.new.dictionary := by
  have hprimitives := List.foldlRecOn (motive := P) Primitive.all
    (fun d p => d.install p.name (.primitive p)) empty
    fun _ h p _ => install h p.isWord_name rfl nofun
  have hreadAheads := List.foldlRecOn (motive := P) ReadAhead.all
    (fun d r => d.install r.name (.readAhead r)) hprimitives
    fun _ h r _ => install h r.isWord_name rfl nofun
  have hcomments := List.foldlRecOn (motive := P) Comment.all
    (fun d c => d.install c.name (.comment c)) hreadAheads
    fun _ h c _ => install h c.isWord_name rfl nofun
  exact List.foldlRecOn (motive := P) Structural.all
    (fun d s => d.install s.name (.structural s)) hcomments
    fun _ h s _ => install h s.isWord_name rfl nofun

theorem new_dictionary_sound : Machine.new.dictionary.Sound :=
  new_dictionary_induction .empty fun h hname hbehavior _ => h.install hname hbehavior

theorem classify_call {dictionary : Dictionary} (h : dictionary.Sound) {name : String} {word : Word}
    (hclassify : classify dictionary name = .call word) :
    word.Sound ∧ word.name = name ∧ ¬ Text.IsNumeral word.name := by
  have hfind := find?_of_classify hclassify
  have hname := h.named.find? hfind
  refine ⟨h.find? hfind, hname, ?_⟩
  intro hnumeral
  unfold classify at hclassify
  split at hclassify
  · cases hclassify
  · rename_i hparse
    rw [hname, Text.IsNumeral, hparse] at hnumeral
    cases hnumeral

theorem eq_name_of_structural? {dictionary : Dictionary} (h : dictionary.Sound) {w : String}
    {s : Structural} (hs : (classify dictionary w).structural? = some s) : w = s.name := by
  obtain ⟨word, hclassify, hb⟩ := Token.call_of_structural? hs
  obtain ⟨hword, hname, -⟩ := classify_call h hclassify
  have hbehavior := hword.behavior
  rwa [hb, hname] at hbehavior

theorem forDraft_of_ne {dictionary : Dictionary} (hsound : dictionary.Sound) {w : String}
    (hend : w ≠ ";") (hcomment : (classify dictionary w).comment? = none) :
    (classify dictionary w).ForDraft := by
  refine Token.forDraft_iff.mpr ⟨?_, hcomment⟩
  intro h
  exact hend (eq_name_of_structural? hsound h)

theorem comment?_of_mem_bodyWords {dictionary : Dictionary} (hsound : dictionary.Sound)
    {text : List Char} (hend : ";" ∉ (bodyWords dictionary text).dropLast) :
    ∀ w ∈ bodyWords dictionary text, (classify dictionary w).comment? = none := by
  induction text using bodyWords.induct dictionary with
  | case1 text rest hnext =>
    rw [bodyWords_of_none hnext]
    intro w hw
    cases hw
  | case2 text word rest hnext c hcomment ih =>
    rw [bodyWords_of_comment hnext hcomment] at hend ⊢
    exact ih hend
  | case3 text word rest hnext hcomment ih =>
    rw [bodyWords_of_word hnext hcomment] at hend ⊢
    intro w hw
    rcases List.mem_cons.mp hw with rfl | hw
    · exact hcomment
    · rw [List.dropLast_cons_of_ne_nil (List.ne_nil_of_mem hw)] at hend
      have hgoesOn : (classify dictionary word).structural? ≠ some .semicolon := by
        intro hs
        rw [eq_name_of_structural? hsound hs] at hend
        exact hend List.mem_cons_self
      rw [if_neg hgoesOn] at hend hw
      exact ih (fun hmem => hend (List.mem_cons_of_mem word hmem)) w hw

theorem OpensDefinition.forDraft {dictionary : Dictionary} (hsound : dictionary.Sound)
    {text : List Char} {name : String} {ws : List String}
    (hopens : OpensDefinition dictionary text name ws) (hlast : ";" ∉ ws.dropLast) :
    ∀ w ∈ ws, w ≠ ";" → (classify dictionary w).ForDraft := by
  obtain ⟨text', rest, -, -, rfl⟩ := hopens
  intro w hw hne
  exact forDraft_of_ne hsound hne (comment?_of_mem_bodyWords hsound hlast w hw)

def Context.Sound : Context → Prop
  | .thenPart before | .loopPart before | .beginPart before => Token.AllSound before
  | .elsePart before ifTrue => Token.AllSound before ∧ Token.AllSound ifTrue
  | .whilePart before condition => Token.AllSound before ∧ Token.AllSound condition

structure Draft.Sound (draft : Draft) : Prop where
  current : Token.AllSound draft.current
  contexts : ∀ context ∈ draft.contexts, context.Sound

namespace Draft.Sound

variable {draft draft' : Draft} {limit : Nat}

theorem start : Draft.Sound {} :=
  ⟨trivial, fun _ hcontext => by cases hcontext⟩

theorem add (h : draft.Sound) {token : Token} (htoken : token.Sound) : (draft.add token).Sound :=
  ⟨h.current.concat htoken, h.contexts⟩

theorem uncons {tokens : List Token} {context : Context} {outer : List Context}
    (h : Draft.Sound ⟨tokens, context :: outer⟩) :
    Token.AllSound tokens ∧ context.Sound ∧ ∀ other ∈ outer, other.Sound :=
  ⟨h.current, List.forall_mem_cons.mp h.contexts⟩

theorem shape (h : draft.Sound) {s : Structural} (hshape : draft.shape limit s = .ok draft') :
    draft'.Sound := by
  cases Draft.shapes_of_shape hshape with
  | semicolon tokens => exact h
  | leaveWord => exact h.add trivial
  | ifWord room | doWord room | beginWord room =>
    exact ⟨trivial, List.forall_mem_cons.mpr ⟨h.current, h.contexts⟩⟩
  | elseWord before tokens outer =>
    obtain ⟨htokens, hbefore, houter⟩ := h.uncons
    exact ⟨trivial, List.forall_mem_cons.mpr ⟨⟨hbefore, htokens⟩, houter⟩⟩
  | whileWord room =>
    obtain ⟨htokens, hbefore, houter⟩ := h.uncons
    exact ⟨trivial, List.forall_mem_cons.mpr ⟨⟨hbefore, htokens⟩, houter⟩⟩
  | ifThen before tokens outer =>
    obtain ⟨htokens, hbefore, houter⟩ := h.uncons
    exact ⟨Token.AllSound.concat hbefore ⟨htokens, trivial⟩, houter⟩
  | elseThen before ifTrue tokens outer =>
    obtain ⟨htokens, ⟨hbefore, hifTrue⟩, houter⟩ := h.uncons
    exact ⟨Token.AllSound.concat hbefore ⟨hifTrue, htokens⟩, houter⟩
  | loopWord before tokens outer =>
    obtain ⟨htokens, hbefore, houter⟩ := h.uncons
    exact ⟨Token.AllSound.concat hbefore ⟨htokens, .inl rfl⟩, houter⟩
  | plusLoop before tokens outer =>
    obtain ⟨htokens, hbefore, houter⟩ := h.uncons
    exact ⟨Token.AllSound.concat hbefore ⟨htokens, .inr rfl⟩, houter⟩
  | untilWord before tokens outer =>
    obtain ⟨htokens, hbefore, houter⟩ := h.uncons
    exact ⟨Token.AllSound.concat hbefore (untilLoop_sound htokens), houter⟩
  | repeatWord before condition tokens outer =>
    obtain ⟨htokens, ⟨hbefore, hcondition⟩, houter⟩ := h.uncons
    exact ⟨Token.AllSound.concat hbefore ⟨hcondition, htokens⟩, houter⟩

theorem body (h : draft.Sound) {body : List Token} (hbody : draft.body = .ok body) :
    Token.AllSound body := by
  unfold Draft.body at hbody
  split at hbody <;> cases hbody
  exact h.current

theorem take (h : draft.Sound) {dictionary : Dictionary} (hdictionary : dictionary.Sound)
    {name : String} (htake : draft.take limit (classify dictionary name) = .ok draft') :
    draft'.Sound := by
  cases hclassify : classify dictionary name with
  | number n =>
    rw [hclassify] at htake
    cases htake
    exact h.add trivial
  | call word =>
    obtain ⟨hsound, -, hnumeral⟩ := classify_call hdictionary hclassify
    rw [hclassify] at htake
    cases hb : word.behavior with
    | primitive _ | definition _ =>
      simp only [Draft.take, hb] at htake
      cases htake
      refine h.add ⟨?_, hnumeral, hsound⟩
      rw [hb]
      trivial
    | structural s =>
      simp only [Draft.take, hb] at htake
      exact h.shape htake
    | readAhead r =>
      simp only [Draft.take, hb] at htake
      cases htake
    | comment c =>
      simp only [Draft.take, hb] at htake
      cases htake
      exact h
  | unresolved name | counted body step | branch ifTrue ifFalse | indefinite condition body
  | leave =>
    rw [hclassify] at htake
    cases htake

end Draft.Sound

end ForthMachine
