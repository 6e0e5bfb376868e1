import ForthMachine.Proofs.Shape

/-!
# The grammar of definitions

A body is a sequence of numbers, calls and structures, and its tree is its derivation. The words
of a definition are taken by the compiler exactly if the grammar derives them and their structures
fit on the return stack, and then the tree of the derivation is installed.
-/

set_option autoImplicit false

namespace ForthMachine

open Machine

/-- Tokens that are compiled to themselves. -/
def Token.Plain : Token → Prop
  | .number _ => True
  | .call word => word.behavior.Runs
  | _ => False

instance : DecidablePred Token.Plain
  | .number _ => isTrue trivial
  | .call word => inferInstanceAs (Decidable word.behavior.Runs)
  | .unresolved _ | .counted _ _ | .branch _ _ | .indefinite _ _ | .leave => isFalse id

/-- The words derive the tokens, and at most so many marks of their structures are open at once. -/
inductive Derives (dictionary : Dictionary) : List String → List Token → Nat → Prop where
  | nil : Derives dictionary [] [] 0
  | append {ws ws' : List String} {tokens tokens' : List Token} {open₁ open₂ : Nat}
      (first : Derives dictionary ws tokens open₁) (rest : Derives dictionary ws' tokens' open₂) :
      Derives dictionary (ws ++ ws') (tokens ++ tokens') (max open₁ open₂)
  | plain {w : String} (h : (classify dictionary w).Plain) :
      Derives dictionary [w] [classify dictionary w] 0
  | leave : Derives dictionary ["LEAVE"] [.leave] 0
  | ifThen {ws : List String} {ifTrue : List Token} {marks : Nat}
      (body : Derives dictionary ws ifTrue marks) :
      Derives dictionary ("IF" :: (ws ++ ["THEN"])) [.branch ifTrue []] (marks + 1)
  | ifElse {ws ws' : List String} {ifTrue ifFalse : List Token} {open₁ open₂ : Nat}
      (first : Derives dictionary ws ifTrue open₁) (second : Derives dictionary ws' ifFalse open₂) :
      Derives dictionary ("IF" :: (ws ++ "ELSE" :: (ws' ++ ["THEN"]))) [.branch ifTrue ifFalse]
        (max open₁ open₂ + 1)
  | loop {ws : List String} {body : List Token} {marks : Nat}
      (inside : Derives dictionary ws body marks) :
      Derives dictionary ("DO" :: (ws ++ ["LOOP"])) [.counted body (.fixed 1)] (marks + 1)
  | plusLoop {ws : List String} {body : List Token} {marks : Nat}
      (inside : Derives dictionary ws body marks) :
      Derives dictionary ("DO" :: (ws ++ ["+LOOP"])) [.counted body .fromStack] (marks + 1)
  | untilLoop {ws : List String} {body : List Token} {marks : Nat}
      (inside : Derives dictionary ws body marks) :
      Derives dictionary ("BEGIN" :: (ws ++ ["UNTIL"])) [untilLoop body] (marks + 1)
  | whileLoop {ws ws' : List String} {condition body : List Token} {open₁ open₂ : Nat}
      (first : Derives dictionary ws condition open₁)
      (second : Derives dictionary ws' body open₂) :
      Derives dictionary ("BEGIN" :: (ws ++ "WHILE" :: (ws' ++ ["REPEAT"])))
        [.indefinite condition body] (max (open₁ + 1) (open₂ + 2))

namespace Draft

def addAll (draft : Draft) (tokens : List Token) : Draft :=
  { draft with current := draft.current ++ tokens }

@[simp] theorem marks_addAll (draft : Draft) (tokens : List Token) :
    (draft.addAll tokens).marks = draft.marks := rfl

end Draft

section Take

variable {dictionary : Dictionary} {limit : Nat}

theorem take_of_plain {token : Token} (h : token.Plain) (draft : Draft) :
    draft.take limit token = .ok (draft.add token) := by
  cases token with
  | number n => rfl
  | call word =>
    cases hb : word.behavior with
    | primitive _ | definition _ => simp only [Draft.take, hb]
    | structural _ | readAhead _ | comment _ => simp [Token.Plain, hb, Behavior.Runs] at h
  | unresolved name | counted body step | branch ifTrue ifFalse | indefinite condition body
  | leave => simp [Token.Plain] at h

theorem take_structural {s : Structural} (h : dictionary.structural? s.name = some s)
    (draft : Draft) : draft.take limit (classify dictionary s.name) = draft.shape limit s := by
  obtain ⟨word, hclassify, hb⟩ := classify_of_structural? h
  simp only [hclassify, Draft.take, hb]

end Take

/-- What the words of a piece of a body do to every draft that they are added to: they add the
tokens, unless their marks do not fit. -/
structure Piece (dictionary : Dictionary) (limit : Nat) (ws : List String) (tokens : List Token)
    (marks : Nat) : Prop where
  fits : ∀ draft : Draft, marks + draft.marks.length ≤ limit →
    draft.takeWords dictionary limit ws = .ok (draft.addAll tokens)
  full : ∀ draft : Draft, draft.marks.length ≤ limit → limit < marks + draft.marks.length →
    draft.takeWords dictionary limit ws = .error .tooDeep
  forDraft : ∀ w ∈ ws, (classify dictionary w).ForDraft

theorem forDraft_structural {dictionary : Dictionary} {s : Structural}
    (h : dictionary.structural? s.name = some s) (hs : s ≠ .semicolon) :
    (classify dictionary s.name).ForDraft := by
  obtain ⟨word, hclassify, hb⟩ := classify_of_structural? h
  simp only [hclassify, Token.ForDraft, hb]
  exact hs

theorem forDraft_of_plain {token : Token} (h : token.Plain) : token.ForDraft := by
  cases token with
  | call word =>
    cases hb : word.behavior with
    | primitive _ | definition _ => simp only [Token.ForDraft, hb]
    | structural _ | readAhead _ | comment _ => simp [Token.Plain, hb, Behavior.Runs] at h
  | number n | unresolved name | counted body step | branch ifTrue ifFalse
  | indefinite condition body | leave => trivial

namespace Piece

variable {dictionary : Dictionary} {limit : Nat} {ws ws' : List String}
variable {tokens tokens' : List Token} {open₁ open₂ marks : Nat}

theorem nil : Piece dictionary limit [] [] 0 where
  fits draft _ := by simp [Draft.takeWords, Draft.addAll]
  full draft hdraft hfull := by omega
  forDraft := by simp

theorem append (first : Piece dictionary limit ws tokens open₁)
    (rest : Piece dictionary limit ws' tokens' open₂) :
    Piece dictionary limit (ws ++ ws') (tokens ++ tokens') (max open₁ open₂) where
  fits draft hfits := by
    rw [takeWords_append_of_ok (first.fits draft (by omega)),
      rest.fits (draft.addAll tokens) (by rw [Draft.marks_addAll]; omega)]
    simp [Draft.addAll]
  full draft hdraft hfull := by
    by_cases hfirst : open₁ + draft.marks.length ≤ limit
    · rw [takeWords_append_of_ok (first.fits draft hfirst)]
      exact rest.full (draft.addAll tokens) hdraft (by rw [Draft.marks_addAll]; omega)
    · exact takeWords_append_of_error (first.full draft hdraft (by omega))
  forDraft := List.forall_mem_append.mpr ⟨first.forDraft, rest.forDraft⟩

theorem plain {w : String} (h : (classify dictionary w).Plain) :
    Piece dictionary limit [w] [classify dictionary w] 0 where
  fits draft _ := Draft.takeWords_cons_of_ok (take_of_plain h draft) []
  full draft hdraft hfull := by omega
  forDraft := List.forall_mem_singleton.mpr (forDraft_of_plain h)

theorem leave (hleave : dictionary.structural? "LEAVE" = some .leaveWord) :
    Piece dictionary limit ["LEAVE"] [.leave] 0 where
  fits draft _ := by
    refine Draft.takeWords_cons_of_ok ?_ []
    exact take_structural (s := .leaveWord) hleave draft
  full draft hdraft hfull := by omega
  forDraft := List.forall_mem_singleton.mpr
    (forDraft_structural (s := .leaveWord) hleave nofun)

section Structures

variable (opening closing : Structural) (context : List Token → Context) {token : Token}
variable (hopening : dictionary.structural? opening.name = some opening)
variable (hclosing : dictionary.structural? closing.name = some closing)
variable (hmarks : ∀ before, (context before).marks.length = 1)
variable (hopen : ∀ draft : Draft, draft.shape limit opening =
  draft.descend limit (context draft.current))

include hmarks in
theorem length_marks (draft : Draft) (tokens : List Token) :
    (Draft.marks ⟨tokens, context draft.current :: draft.contexts⟩).length =
      draft.marks.length + 1 := by
  rw [Draft.length_marks_cons, hmarks]
  exact Nat.add_comm _ _

include hopening hopen

theorem open_of_lt {draft : Draft} (h : draft.marks.length < limit) (ws : List String) :
    draft.takeWords dictionary limit (opening.name :: ws) =
      Draft.takeWords dictionary limit ⟨[], context draft.current :: draft.contexts⟩ ws := by
  apply Draft.takeWords_cons_of_ok
  rw [take_structural hopening, hopen]
  exact if_pos h

theorem open_of_le {draft : Draft} (h : limit ≤ draft.marks.length) (ws : List String) :
    draft.takeWords dictionary limit (opening.name :: ws) = .error .tooDeep := by
  apply Draft.takeWords_cons_of_error
  rw [take_structural hopening, hopen]
  exact if_neg (Nat.not_lt.mpr h)

include hclosing hmarks

theorem enclose (hparts : opening ≠ .semicolon ∧ closing ≠ .semicolon)
    (inside : Piece dictionary limit ws tokens marks)
    (hclose : ∀ before outer, Draft.shape limit ⟨tokens, context before :: outer⟩ closing =
      .ok ⟨before ++ [token], outer⟩) :
    Piece dictionary limit (opening.name :: (ws ++ [closing.name])) [token] (marks + 1) where
  fits draft hfits := by
    have hlength := length_marks context hmarks draft []
    rw [open_of_lt opening context hopening hopen (by omega),
      takeWords_append_of_ok (inside.fits _ (by omega))]
    refine Draft.takeWords_cons_of_ok ?_ []
    rw [take_structural hclosing]
    exact hclose draft.current draft.contexts
  full draft hdraft hfull := by
    have hlength := length_marks context hmarks draft []
    by_cases hroom : draft.marks.length < limit
    · rw [open_of_lt opening context hopening hopen hroom]
      exact takeWords_append_of_error (inside.full _ (by omega) (by omega))
    · exact open_of_le opening context hopening hopen (by omega) _
  forDraft := by
    refine List.forall_mem_cons.mpr ⟨forDraft_structural hopening hparts.1, ?_⟩
    refine List.forall_mem_append.mpr ⟨inside.forDraft, ?_⟩
    exact List.forall_mem_singleton.mpr (forDraft_structural hclosing hparts.2)

/-- A structure of two parts, where the word between them may open `extra` marks more. -/
theorem divide (middle : Structural) (context' : List Token → List Token → Context) (extra : Nat)
    (hmiddle : dictionary.structural? middle.name = some middle)
    (hparts : opening ≠ .semicolon ∧ middle ≠ .semicolon ∧ closing ≠ .semicolon)
    (hmarks' : ∀ before tokens, (context' before tokens).marks.length = extra + 1)
    (first : Piece dictionary limit ws tokens open₁)
    (second : Piece dictionary limit ws' tokens' open₂)
    (hgo : ∀ before outer, (Draft.marks ⟨[], context' before tokens :: outer⟩).length ≤ limit →
      Draft.shape limit ⟨tokens, context before :: outer⟩ middle =
        .ok ⟨[], context' before tokens :: outer⟩)
    (hstop : ∀ before outer, (Draft.marks ⟨[], context before :: outer⟩).length ≤ limit →
      limit < (Draft.marks ⟨[], context' before tokens :: outer⟩).length →
      Draft.shape limit ⟨tokens, context before :: outer⟩ middle = .error .tooDeep)
    (hclose : ∀ before outer, Draft.shape limit ⟨tokens', context' before tokens :: outer⟩ closing =
      .ok ⟨before ++ [token], outer⟩) :
    Piece dictionary limit
      (opening.name :: (ws ++ middle.name :: (ws' ++ [closing.name]))) [token]
      (max (open₁ + 1) (open₂ + extra + 1)) := by
  have hlength (draft : Draft) :
      (Draft.marks ⟨[], context draft.current :: draft.contexts⟩).length =
        draft.marks.length + 1 := length_marks context hmarks draft []
  have hlength' (draft : Draft) :
      (Draft.marks ⟨[], context' draft.current tokens :: draft.contexts⟩).length =
        extra + 1 + draft.marks.length := by
    rw [Draft.length_marks_cons, hmarks']
    rfl
  have hdivided {draft : Draft} (h : extra + 1 + draft.marks.length ≤ limit) :
      Draft.take limit ⟨tokens, context draft.current :: draft.contexts⟩
        (classify dictionary middle.name) =
        .ok ⟨[], context' draft.current tokens :: draft.contexts⟩ := by
    rw [take_structural hmiddle]
    exact hgo _ _ (by rw [hlength']; exact h)
  refine ⟨?fits, ?full, ?forDraft⟩
  case fits =>
    intro draft hfits
    have hopened := hlength draft
    have hsecond := hlength' draft
    rw [open_of_lt opening context hopening hopen (by omega),
      takeWords_append_of_ok (first.fits _ (by omega))]
    refine (Draft.takeWords_cons_of_ok (hdivided (by omega)) _).trans ?_
    rw [takeWords_append_of_ok (second.fits _ (by omega))]
    refine Draft.takeWords_cons_of_ok ?_ []
    rw [take_structural hclosing]
    exact hclose draft.current draft.contexts
  case full =>
    intro draft hdraft hfull
    have hopened := hlength draft
    have hsecond := hlength' draft
    -- The marks do not fit at the opening word, in the first part, at the word in the middle, or
    -- in the second part.
    by_cases hroom : draft.marks.length < limit
    · rw [open_of_lt opening context hopening hopen hroom]
      by_cases hfirst : open₁ + (draft.marks.length + 1) ≤ limit
      · rw [takeWords_append_of_ok (first.fits _ (by omega))]
        by_cases hmid : extra + 1 + draft.marks.length ≤ limit
        · refine (Draft.takeWords_cons_of_ok (hdivided hmid) _).trans ?_
          exact takeWords_append_of_error (second.full _ (by omega) (by omega))
        · apply Draft.takeWords_cons_of_error
          rw [take_structural hmiddle]
          exact hstop _ _ (by omega) (by omega)
      · exact takeWords_append_of_error (first.full _ (by omega) (by omega))
    · exact open_of_le opening context hopening hopen (by omega) _
  case forDraft =>
    refine List.forall_mem_cons.mpr ⟨forDraft_structural hopening hparts.1, ?_⟩
    refine List.forall_mem_append.mpr ⟨first.forDraft, ?_⟩
    refine List.forall_mem_cons.mpr ⟨forDraft_structural hmiddle hparts.2.1, ?_⟩
    refine List.forall_mem_append.mpr ⟨second.forDraft, ?_⟩
    exact List.forall_mem_singleton.mpr (forDraft_structural hclosing hparts.2.2)

end Structures

theorem ifThen (hif : dictionary.structural? "IF" = some .ifWord)
    (hthen : dictionary.structural? "THEN" = some .thenWord)
    (inside : Piece dictionary limit ws tokens marks) :
    Piece dictionary limit ("IF" :: (ws ++ ["THEN"])) [.branch tokens []] (marks + 1) :=
  enclose .ifWord .thenWord .thenPart hif hthen (fun _ => rfl) (fun _ => rfl) ⟨nofun, nofun⟩
    inside fun _ _ => rfl

theorem ifElse (hif : dictionary.structural? "IF" = some .ifWord)
    (helse : dictionary.structural? "ELSE" = some .elseWord)
    (hthen : dictionary.structural? "THEN" = some .thenWord)
    (first : Piece dictionary limit ws tokens open₁)
    (second : Piece dictionary limit ws' tokens' open₂) :
    Piece dictionary limit ("IF" :: (ws ++ "ELSE" :: (ws' ++ ["THEN"]))) [.branch tokens tokens']
      (max open₁ open₂ + 1) := by
  have h : Piece dictionary limit ("IF" :: (ws ++ "ELSE" :: (ws' ++ ["THEN"])))
      [.branch tokens tokens'] (max (open₁ + 1) (open₂ + 0 + 1)) := by
    refine divide .ifWord .thenWord .thenPart hif hthen (fun _ => rfl) (fun _ => rfl)
      .elseWord .elsePart 0 helse ⟨nofun, nofun, nofun⟩ (fun _ _ => rfl) first second
      (fun _ _ _ => rfl) ?_ fun _ _ => rfl
    intro before outer hle hlt
    exact absurd hle (Nat.not_le.mpr hlt)
  rwa [Nat.add_zero, Nat.add_max_add_right] at h

theorem loop (hdo : dictionary.structural? "DO" = some .doWord)
    (hloop : dictionary.structural? "LOOP" = some .loopWord)
    (inside : Piece dictionary limit ws tokens marks) :
    Piece dictionary limit ("DO" :: (ws ++ ["LOOP"])) [.counted tokens (.fixed 1)] (marks + 1) :=
  enclose .doWord .loopWord .loopPart hdo hloop (fun _ => rfl) (fun _ => rfl) ⟨nofun, nofun⟩
    inside fun _ _ => rfl

theorem plusLoop (hdo : dictionary.structural? "DO" = some .doWord)
    (hloop : dictionary.structural? "+LOOP" = some .plusLoop)
    (inside : Piece dictionary limit ws tokens marks) :
    Piece dictionary limit ("DO" :: (ws ++ ["+LOOP"])) [.counted tokens .fromStack] (marks + 1) :=
  enclose .doWord .plusLoop .loopPart hdo hloop (fun _ => rfl) (fun _ => rfl) ⟨nofun, nofun⟩
    inside fun _ _ => rfl

theorem untilLoop (hbegin : dictionary.structural? "BEGIN" = some .beginWord)
    (huntil : dictionary.structural? "UNTIL" = some .untilWord)
    (inside : Piece dictionary limit ws tokens marks) :
    Piece dictionary limit ("BEGIN" :: (ws ++ ["UNTIL"])) [ForthMachine.untilLoop tokens]
      (marks + 1) :=
  enclose .beginWord .untilWord .beginPart hbegin huntil (fun _ => rfl) (fun _ => rfl)
    ⟨nofun, nofun⟩ inside fun _ _ => rfl

theorem whileLoop (hbegin : dictionary.structural? "BEGIN" = some .beginWord)
    (hwhile : dictionary.structural? "WHILE" = some .whileWord)
    (hrepeat : dictionary.structural? "REPEAT" = some .repeatWord)
    (first : Piece dictionary limit ws tokens open₁)
    (second : Piece dictionary limit ws' tokens' open₂) :
    Piece dictionary limit ("BEGIN" :: (ws ++ "WHILE" :: (ws' ++ ["REPEAT"])))
      [.indefinite tokens tokens'] (max (open₁ + 1) (open₂ + 2)) := by
  refine divide .beginWord .repeatWord .beginPart hbegin hrepeat (fun _ => rfl) (fun _ => rfl)
    .whileWord .whilePart 1 hwhile ⟨nofun, nofun, nofun⟩ (fun _ _ => rfl) first second ?_ ?_
    fun _ _ => rfl
  · intro before outer hle
    rw [Draft.length_marks_cons] at hle
    refine if_pos ?_
    rw [Draft.length_marks_cons]
    simp only [Context.marks, List.length_cons, List.length_nil] at hle ⊢
    omega
  · intro before outer _ hlt
    refine if_neg ?_
    rw [Draft.length_marks_cons] at hlt ⊢
    simp only [Context.marks, List.length_cons, List.length_nil] at hlt ⊢
    omega

end Piece

theorem Draft.length_marks_start : (Draft.marks {}).length = 1 := rfl

section Held

variable {dictionary : Dictionary} {limit : Nat} {ws : List String} {tokens : List Token}
variable {marks : Nat}

theorem Piece.bodyOf_eq (h : Piece dictionary limit ws tokens marks) (hfits : marks + 1 ≤ limit) :
    bodyOf dictionary limit ws = .ok tokens := by
  have htake := h.fits {} hfits
  unfold bodyOf
  rw [if_pos (by omega), htake]
  simp [Draft.addAll, Draft.body]

variable (hheld : ∀ s : Structural, dictionary.structural? s.name = some s)
include hheld

theorem Derives.piece (h : Derives dictionary ws tokens marks) :
    Piece dictionary limit ws tokens marks := by
  induction h with
  | nil => exact .nil
  | append _ _ first rest => exact first.append rest
  | plain h => exact .plain h
  | leave => exact .leave (hheld .leaveWord)
  | ifThen _ inside => exact .ifThen (hheld .ifWord) (hheld .thenWord) inside
  | ifElse _ _ first second =>
    exact .ifElse (hheld .ifWord) (hheld .elseWord) (hheld .thenWord) first second
  | loop _ inside => exact .loop (hheld .doWord) (hheld .loopWord) inside
  | plusLoop _ inside => exact .plusLoop (hheld .doWord) (hheld .plusLoop) inside
  | untilLoop _ inside => exact .untilLoop (hheld .beginWord) (hheld .untilWord) inside
  | whileLoop _ _ first second =>
    exact .whileLoop (hheld .beginWord) (hheld .whileWord) (hheld .repeatWord) first second

end Held

def Context.before : Context → List Token
  | .thenPart before | .elsePart before _ | .loopPart before | .beginPart before
  | .whilePart before _ => before

/-- The words since the structure was opened, up to the part that is open. There are `outside`
marks around the structure. -/
def Context.Opened (dictionary : Dictionary) (limit outside : Nat) : Context → List String → Prop
  | .thenPart _, ws => ws = ["IF"]
  | .elsePart _ ifTrue, ws => ∃ ws' marks, Derives dictionary ws' ifTrue marks ∧
      marks + (outside + 1) ≤ limit ∧ ws = "IF" :: (ws' ++ ["ELSE"])
  | .loopPart _, ws => ws = ["DO"]
  | .beginPart _, ws => ws = ["BEGIN"]
  | .whilePart _ condition, ws => ∃ ws' marks, Derives dictionary ws' condition marks ∧
      marks + (outside + 1) ≤ limit ∧ ws = "BEGIN" :: (ws' ++ ["WHILE"])

/-- The words since the colon derive the draft, as far as it goes. -/
inductive Spelled (dictionary : Dictionary) (limit : Nat) : List String → Draft → Prop where
  | top {ws : List String} {tokens : List Token} {marks : Nat}
      (derived : Derives dictionary ws tokens marks) (fits : marks + 1 ≤ limit) :
      Spelled dictionary limit ws ⟨tokens, []⟩
  | inside {ws ws' ws'' : List String} {context : Context} {outer : List Context}
      {tokens : List Token} {marks : Nat}
      (around : Spelled dictionary limit ws ⟨context.before, outer⟩)
      (opened : context.Opened dictionary limit (Draft.marks ⟨[], outer⟩).length ws')
      (derived : Derives dictionary ws'' tokens marks)
      (fits : marks + (Draft.marks ⟨tokens, context :: outer⟩).length ≤ limit) :
      Spelled dictionary limit (ws ++ (ws' ++ ws'')) ⟨tokens, context :: outer⟩

namespace Spelled

variable {dictionary : Dictionary} {limit : Nat} {ws ws' : List String} {draft draft' : Draft}
variable {tokens : List Token} {marks : Nat}

theorem extend (h : Spelled dictionary limit ws draft) (hmore : Derives dictionary ws' tokens marks)
    (hfits : marks + draft.marks.length ≤ limit) :
    Spelled dictionary limit (ws ++ ws') (draft.addAll tokens) := by
  cases h with
  | top derived fits =>
    refine .top (derived.append hmore) ?_
    simp only [Draft.marks, List.flatMap_nil, List.nil_append, List.length_singleton] at hfits
    omega
  | inside around opened derived fits =>
    rw [List.append_assoc, List.append_assoc]
    refine .inside around opened (derived.append hmore) ?_
    simp only [Draft.marks] at hfits fits ⊢
    omega

theorem descend {context : Context} {word : String} (h : Spelled dictionary limit ws draft)
    (hroom : draft.marks.length < limit) (hbefore : context.before = draft.current)
    (hmarks : context.marks.length = 1)
    (hopened : context.Opened dictionary limit (Draft.marks ⟨[], draft.contexts⟩).length [word]) :
    Spelled dictionary limit (ws ++ [word]) ⟨[], context :: draft.contexts⟩ := by
  have hinside : Spelled dictionary limit (ws ++ ([word] ++ []))
      ⟨[], context :: draft.contexts⟩ := by
    refine .inside (hbefore ▸ h) hopened .nil ?_
    rw [Draft.length_marks_cons, hmarks, Nat.zero_add, Nat.add_comm]
    exact hroom
  rwa [List.append_nil] at hinside

theorem length_marks_le (h : Spelled dictionary limit ws draft) : draft.marks.length ≤ limit := by
  cases h with
  | top derived fits =>
    simp only [Draft.marks, List.flatMap_nil, List.nil_append, List.length_singleton]
    omega
  | inside around opened derived fits => omega

theorem close {context : Context} {outer : List Context} {token : Token} {word : String}
    (h : Spelled dictionary limit ws ⟨tokens, context :: outer⟩)
    (hclose : ∀ {opening words : List String} {marks outside : Nat},
      context.Opened dictionary limit outside opening → Derives dictionary words tokens marks →
      marks + (context.marks.length + outside) ≤ limit →
      ∃ total, Derives dictionary (opening ++ (words ++ [word])) [token] total ∧
        total + outside ≤ limit) :
    Spelled dictionary limit (ws ++ [word]) ⟨context.before ++ [token], outer⟩ := by
  cases h with
  | inside around opened derived fits =>
    rw [Draft.length_marks_cons] at fits
    obtain ⟨total, hderived, htotal⟩ := hclose opened derived fits
    have hclosed := around.extend hderived htotal
    rw [List.append_assoc, List.append_assoc]
    exact hclosed

theorem enclose {context : Context} {outer : List Context} {token : Token} {opening word : String}
    (h : Spelled dictionary limit ws ⟨tokens, context :: outer⟩)
    (hopened : ∀ {outside words}, context.Opened dictionary limit outside words → words = [opening])
    (hmarks : context.marks.length = 1)
    (hderives : ∀ {words marks}, Derives dictionary words tokens marks →
      Derives dictionary (opening :: (words ++ [word])) [token] (marks + 1)) :
    Spelled dictionary limit (ws ++ [word]) ⟨context.before ++ [token], outer⟩ := by
  apply h.close
  intro opening' words marks outside hopen hderived hfits
  rw [hmarks] at hfits
  rw [hopened hopen]
  exact ⟨_, hderives hderived, by omega⟩

theorem divide {context' : Context} {outer : List Context} {word : String}
    {context : Context} (h : Spelled dictionary limit ws ⟨tokens, context :: outer⟩)
    (hbefore : context'.before = context.before)
    (hfits : (Draft.marks ⟨[], context' :: outer⟩).length ≤ limit)
    (hdivide : ∀ {opening words : List String} {marks outside : Nat},
      context.Opened dictionary limit outside opening → Derives dictionary words tokens marks →
      marks + (context.marks.length + outside) ≤ limit →
      context'.Opened dictionary limit outside (opening ++ (words ++ [word]))) :
    Spelled dictionary limit (ws ++ [word]) ⟨[], context' :: outer⟩ := by
  cases h with
  | inside around opened derived fits =>
    rw [Draft.length_marks_cons] at fits
    rw [← hbefore] at around
    have hdivided := around.inside (hdivide opened derived fits) .nil (by omega)
    rw [List.append_nil] at hdivided
    rw [List.append_assoc, List.append_assoc]
    exact hdivided

theorem shape {s : Structural} (hs : s ≠ .semicolon) (h : Spelled dictionary limit ws draft)
    (hshape : draft.shape limit s = .ok draft') :
    Spelled dictionary limit (ws ++ [s.name]) draft' := by
  have hlength := h.length_marks_le
  cases Draft.shapes_of_shape hshape with
  | semicolon tokens => exact absurd rfl hs
  | ifWord room | doWord room | beginWord room => exact h.descend room rfl rfl rfl
  | leaveWord => exact h.extend .leave (by omega)
  | elseWord before tokens outer =>
    refine h.divide rfl hlength ?_
    intro opening words marks outside hopened hderived hfits
    change marks + (1 + outside) ≤ limit at hfits
    rw [show opening = ["IF"] from hopened]
    exact ⟨words, marks, hderived, by omega, rfl⟩
  | ifThen before tokens outer => exact h.enclose id rfl .ifThen
  | elseThen before ifTrue tokens outer =>
    refine h.close ?_
    intro opening words marks outside hopened hderived hfits
    change marks + (1 + outside) ≤ limit at hfits
    obtain ⟨words', marks', hfirst, hfits', rfl⟩ := hopened
    exact ⟨_, by simpa [Structural.name] using hfirst.ifElse hderived, by omega⟩
  | loopWord before tokens outer => exact h.enclose id rfl .loop
  | plusLoop before tokens outer => exact h.enclose id rfl .plusLoop
  | untilWord before tokens outer => exact h.enclose id rfl .untilLoop
  | @whileWord before tokens outer room =>
    have hroom : (Draft.marks ⟨[], .whilePart before tokens :: outer⟩).length ≤ limit := by
      rw [Draft.length_marks_cons] at room ⊢
      simp only [Context.marks, List.length_cons, List.length_nil] at room ⊢
      omega
    refine h.divide rfl hroom ?_
    intro opening words marks outside hopened hderived hfits
    change marks + (1 + outside) ≤ limit at hfits
    rw [show opening = ["BEGIN"] from hopened]
    exact ⟨words, marks, hderived, by omega, rfl⟩
  | repeatWord before condition tokens outer =>
    refine h.close ?_
    intro opening words marks outside hopened hderived hfits
    change marks + (2 + outside) ≤ limit at hfits
    obtain ⟨words', marks', hfirst, hfits', rfl⟩ := hopened
    exact ⟨_, by simpa [Structural.name] using hfirst.whileLoop hderived, by omega⟩

theorem take {w : String} (hsound : dictionary.Sound) (h : Spelled dictionary limit ws draft)
    (hdraft : (classify dictionary w).ForDraft)
    (htake : draft.take limit (classify dictionary w) = .ok draft') :
    Spelled dictionary limit (ws ++ [w]) draft' := by
  by_cases hplain : (classify dictionary w).Plain
  · rw [take_of_plain hplain] at htake
    cases htake
    exact h.extend (.plain hplain) (by rw [Nat.zero_add]; exact h.length_marks_le)
  · cases hclassify : classify dictionary w with
    | call word =>
      rw [hclassify] at htake hdraft hplain
      obtain ⟨hword, hname, -⟩ := classify_call hsound hclassify
      have hbehavior := hword.behavior
      cases hb : word.behavior with
      | primitive _ | definition _ => simp [Token.Plain, hb, Behavior.Runs] at hplain
      | structural s =>
        simp only [Draft.take, hb] at htake
        simp only [Token.ForDraft, hb] at hdraft
        rw [hb, hname] at hbehavior
        rw [show w = s.name from hbehavior]
        exact h.shape hdraft htake
      | readAhead r =>
        simp only [Draft.take, hb] at htake
        cases htake
      | comment c => simp [Token.ForDraft, hb] at hdraft
    | number n => simp [hclassify, Token.Plain] at hplain
    | unresolved name | counted body step | branch ifTrue ifFalse | indefinite condition body
    | leave =>
      rw [hclassify] at htake
      cases htake

theorem takeWords (hsound : dictionary.Sound) (h : Spelled dictionary limit ws draft)
    (hdraft : ∀ w ∈ ws', (classify dictionary w).ForDraft)
    (htake : draft.takeWords dictionary limit ws' = .ok draft') :
    Spelled dictionary limit (ws ++ ws') draft' := by
  induction ws' generalizing ws draft with
  | nil =>
    cases htake
    rw [List.append_nil]
    exact h
  | cons w ws' ih =>
    cases hw : draft.take limit (classify dictionary w) with
    | error fault =>
      rw [Draft.takeWords_cons_of_error hw] at htake
      cases htake
    | ok next =>
      rw [Draft.takeWords_cons_of_ok hw] at htake
      have hnext := h.take hsound (hdraft w List.mem_cons_self) hw
      have hrest := ih hnext (fun v hv => hdraft v (List.mem_cons_of_mem w hv)) htake
      rwa [List.append_assoc] at hrest

end Spelled

section Accepted

variable {dictionary : Dictionary} {limit : Nat} {ws : List String} {tokens tokens' : List Token}
variable {marks marks' : Nat}

theorem derives_of_bodyOf (hsound : dictionary.Sound)
    (hdraft : ∀ w ∈ ws, (classify dictionary w).ForDraft)
    (hbody : bodyOf dictionary limit ws = .ok tokens) :
    ∃ marks, Derives dictionary ws tokens marks ∧ marks + 1 ≤ limit := by
  unfold bodyOf at hbody
  split at hbody
  · rename_i hroom
    split at hbody
    · rename_i draft htake
      have hstart : Spelled dictionary limit [] {} := .top .nil hroom
      have hspelled := hstart.takeWords hsound hdraft htake
      rw [List.nil_append] at hspelled
      cases hspelled with
      | top derived fits =>
        cases hbody
        exact ⟨_, derived, fits⟩
      | inside around opened derived fits => cases hbody
    · cases hbody
  · cases hbody

section Unique

variable (hheld : ∀ s : Structural, dictionary.structural? s.name = some s)
variable (h : Derives dictionary ws tokens marks) (h' : Derives dictionary ws tokens' marks')
include hheld h h'

theorem Derives.marks_le : marks ≤ marks' := by
  have hpiece : Piece dictionary (marks' + 1) ws tokens marks := h.piece hheld
  have hpiece' : Piece dictionary (marks' + 1) ws tokens' marks' := h'.piece hheld
  apply Nat.le_of_not_lt
  intro hlt
  have hfull := hpiece.full {} (by rw [Draft.length_marks_start]; omega)
    (by rw [Draft.length_marks_start]; omega)
  rw [hpiece'.fits {} (Nat.le_refl _)] at hfull
  cases hfull

/-- A sequence of words has one derivation at most. -/
theorem Derives.tokens_eq : tokens = tokens' := by
  have hle := h.marks_le hheld h'
  have hpiece : Piece dictionary (marks' + 1) ws tokens marks := h.piece hheld
  have hpiece' : Piece dictionary (marks' + 1) ws tokens' marks' := h'.piece hheld
  have hbody := hpiece.bodyOf_eq (by omega)
  rw [hpiece'.bodyOf_eq (by omega)] at hbody
  cases hbody
  rfl

end Unique

def Compilable (dictionary : Dictionary) (w : String) : Prop :=
  (∃ s : Structural, w = s.name) ∨ (classify dictionary w).Plain

theorem Derives.compilable (h : Derives dictionary ws tokens marks) :
    ∀ w ∈ ws, Compilable dictionary w := by
  have hcons (s : Structural) {ws : List String} (hws : ∀ w ∈ ws, Compilable dictionary w) :
      ∀ w ∈ s.name :: ws, Compilable dictionary w :=
    List.forall_mem_cons.mpr ⟨.inl ⟨s, rfl⟩, hws⟩
  have hsnoc (s : Structural) {ws ws' : List String} (hws : ∀ w ∈ ws, Compilable dictionary w)
      (hws' : ∀ w ∈ ws', Compilable dictionary w) :
      ∀ w ∈ ws ++ (s.name :: ws'), Compilable dictionary w :=
    List.forall_mem_append.mpr ⟨hws, hcons s hws'⟩
  have hnil : ∀ w ∈ ([] : List String), Compilable dictionary w := by simp
  induction h with
  | nil => exact hnil
  | append _ _ first rest => exact List.forall_mem_append.mpr ⟨first, rest⟩
  | plain h => exact List.forall_mem_cons.mpr ⟨.inr h, hnil⟩
  | leave => exact hcons .leaveWord hnil
  | ifThen _ inside => exact hcons .ifWord (hsnoc .thenWord inside hnil)
  | ifElse _ _ first second =>
    exact hcons .ifWord (hsnoc .elseWord first (hsnoc .thenWord second hnil))
  | loop _ inside => exact hcons .doWord (hsnoc .loopWord inside hnil)
  | plusLoop _ inside => exact hcons .doWord (hsnoc .plusLoop inside hnil)
  | untilLoop _ inside => exact hcons .beginWord (hsnoc .untilWord inside hnil)
  | whileLoop _ _ first second =>
    exact hcons .beginWord (hsnoc .whileWord first (hsnoc .repeatWord second hnil))

end Accepted

def definitionLine (name : String) (ws : List String) : String :=
  " ".intercalate (":" :: name :: (ws ++ [";"]))

theorem words_definitionLine {name : String} {ws : List String} (hname : Text.IsWord name)
    (hws : ∀ w ∈ ws, Text.IsWord w) :
    Text.words (definitionLine name ws).toList = ":" :: name :: (ws ++ [";"]) := by
  apply Text.words_intercalate
  refine List.forall_mem_cons.mpr ⟨ReadAhead.colon.isWord_name, ?_⟩
  refine List.forall_mem_cons.mpr ⟨hname, List.forall_mem_append.mpr ⟨hws, ?_⟩⟩
  exact List.forall_mem_singleton.mpr Structural.semicolon.isWord_name

theorem fault_ne_ok (message : String) : " ? " ++ message ≠ " ok" := by
  intro h
  have hchars := congrArg String.toList h
  simp at hchars

/-- A line with a definition is accepted exactly if the grammar derives its words and the marks of
its structures fit on the return stack, and then the tree of the derivation is installed. -/
theorem accepted_iff_derives (name : String) (ws : List String) {m : Machine} (hm : Reachable m)
    (hmode : m.mode = .immediate)
    (hcolon : m.dictionary.readAhead? ":" = some .colon)
    (hheld : ∀ s : Structural, m.dictionary.structural? s.name = some s)
    (hname : Text.IsWord name) (hws : ∀ w ∈ ws, Text.IsWord w) (hend : ";" ∉ ws)
    (hcomment : ∀ w ∈ ws, (classify m.dictionary w).comment? = none) (passes : Nat) :
    ∃ text m', evaluate { passes } m (definitionLine name ws) = some (text, m') ∧
      (text = " ok" ↔ (∀ w ∈ ws, Compilable m.dictionary w) ∧
        ∃ body marks, Derives m.dictionary ws body marks ∧
          m.returns.length + (marks + 1) ≤ maxDepth) ∧
      (text = " ok" → ∀ body marks, Derives m.dictionary ws body marks →
        m'.dictionary = m.dictionary.install name (.definition body)) := by
  have hsound := (steady_of_reachable hm).dictionary
  have hwords := words_definitionLine hname hws
  have hdraft : ∀ w ∈ ws, (classify m.dictionary w).ForDraft := by
    intro w hw
    exact forDraft_of_ne hsound (fun h => hend (h ▸ hw)) (hcomment w hw)
  have hlimit (marks : Nat) :
      marks + 1 ≤ m.markLimit ↔ m.returns.length + (marks + 1) ≤ maxDepth := by
    unfold markLimit
    omega
  cases hbody : bodyOf m.dictionary m.markLimit ws with
  | ok body =>
    obtain ⟨m', hline, hdefined, -⟩ :=
      evaluate_of_bodyOf { passes } hmode hcolon (hheld .semicolon) hwords hdraft hbody
    obtain ⟨marks, hderives, hfits⟩ := derives_of_bodyOf hsound hdraft hbody
    refine ⟨_, m', hline, ⟨fun _ => ⟨hderives.compilable, body, marks, hderives, ?_⟩, fun _ => rfl⟩,
      ?_⟩
    · exact (hlimit marks).mp hfits
    · intro _ body' marks' hderives'
      rw [hderives'.tokens_eq hheld hderives]
      exact hdefined.dictionary
  | error fault =>
    obtain ⟨m', hline, -⟩ :=
      evaluate_of_bodyOf_error { passes } hmode hcolon (hheld .semicolon) hwords hdraft hbody
    refine ⟨_, m', hline, ⟨fun hok => absurd hok (fault_ne_ok _), ?_⟩,
      fun hok => absurd hok (fault_ne_ok _)⟩
    rintro ⟨-, body, marks, hderives, hfits⟩
    have hpiece : Piece m.dictionary m.markLimit ws body marks := hderives.piece hheld
    rw [hpiece.bodyOf_eq ((hlimit marks).mpr hfits)] at hbody
    cases hbody

/-- A branch whose word for the other case is missing. -/
theorem accepted_branch :
    ∃ m', evaluate { passes := 0 } Machine.new ": W IF 1 THEN ;" = some (" ok", m') ∧
      m'.dictionary =
        Machine.new.dictionary.install "W" (.definition [.branch [.number 1] []]) := by
  have hderives : Derives Machine.new.dictionary ["IF", "1", "THEN"] [.branch [.number 1] []] 1 :=
    .ifThen (.plain (w := "1") trivial)
  obtain ⟨text, m', hline, hiff, htree⟩ := accepted_iff_derives "W" ["IF", "1", "THEN"] .new rfl
    new_colon new_structural (by decide) (by decide) (by decide) (by decide +kernel) 0
  have htext := hiff.mpr ⟨hderives.compilable, _, _, hderives, by decide⟩
  subst htext
  exact ⟨m', hline, htree rfl _ _ hderives⟩

end ForthMachine
