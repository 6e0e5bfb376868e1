import ForthMachine.Proofs.Lines

/-!
# Drafts of definitions

A definition that is still open is a tree with one path left open, from the colon to the tokens
compiled last. The two stacks of a machine are two readings of that path: one has its tokens and
marks, the other its marks alone. Every word that shapes a definition is a step of the tree.
-/

set_option autoImplicit false

namespace ForthMachine

open Machine

/-- A structure that is open around the tokens compiled last, with the tokens in front of it and
in its parts that are complete. -/
inductive Context where
  | thenPart (before : List Token)
  | elsePart (before ifTrue : List Token)
  | loopPart (before : List Token)
  | beginPart (before : List Token)
  | whilePart (before condition : List Token)

def pendings (tokens : List Token) : List Cell :=
  (tokens.map Cell.pending).reverse

@[simp] theorem pendings_nil : pendings [] = [] := rfl

@[simp] theorem pendings_concat (tokens : List Token) (token : Token) :
    pendings (tokens ++ [token]) = .pending token :: pendings tokens := by
  simp [pendings]

namespace Context

def opener : Context → Opener
  | thenPart _ => .ifWord
  | elsePart _ _ => .elseWord
  | loopPart _ => .doWord
  | beginPart _ => .beginWord
  | whilePart _ _ => .whileWord

/-- The marks of the structure on the return stack, the innermost first. -/
def marks : Context → List Opener
  | thenPart _ => [.ifWord]
  | elsePart _ _ => [.elseWord]
  | loopPart _ => [.doWord]
  | beginPart _ => [.beginWord]
  | whilePart _ _ => [.whileWord, .beginWord]

/-- The cells of the structure on the data stack, top first. -/
def cells : Context → List Cell
  | thenPart before => .opened .ifWord :: pendings before
  | elsePart before ifTrue =>
    .opened .elseWord :: (pendings ifTrue ++ .opened .ifWord :: pendings before)
  | loopPart before => .opened .doWord :: pendings before
  | beginPart before => .opened .beginWord :: pendings before
  | whilePart before condition =>
    .opened .whileWord :: (pendings condition ++ .opened .beginWord :: pendings before)

end Context

/-- The tokens compiled last, and the structures around them, the innermost first. -/
structure Draft where
  current : List Token := []
  contexts : List Context := []

namespace Draft

def marks (draft : Draft) : List Opener :=
  draft.contexts.flatMap Context.marks ++ [.colon]

def cells (draft : Draft) : List Cell :=
  pendings draft.current ++ (draft.contexts.flatMap Context.cells ++ [.opened .colon])

def add (draft : Draft) (token : Token) : Draft :=
  { draft with current := draft.current ++ [token] }

theorem length_marks_of_contexts {draft : Draft} {context : Context} {outer : List Context}
    (h : draft.contexts = context :: outer) :
    draft.marks.length = context.marks.length + (marks ⟨[], outer⟩).length := by
  simp [marks, h]

theorem length_marks_cons (tokens : List Token) (context : Context) (outer : List Context) :
    (marks ⟨tokens, context :: outer⟩).length =
      context.marks.length + (marks ⟨[], outer⟩).length :=
  length_marks_of_contexts rfl

/-- Opens a structure, if fewer than `limit` marks are on the return stack. -/
def descend (limit : Nat) (draft : Draft) (context : Context) : Except Fault Draft :=
  if draft.marks.length < limit then .ok ⟨[], context :: draft.contexts⟩ else .error .tooDeep

/-- What is wrong with a word that needs a structure opened by `wanted`. -/
def mismatch (draft : Draft) (wanted : Opener) : Fault :=
  match draft.contexts with
  | [] => .missing wanted
  | context :: _ => .unclosed context.opener

def closeLoop (draft : Draft) (step : Step) : Except Fault Draft :=
  match draft.contexts with
  | .loopPart before :: outer => .ok ⟨before ++ [.counted draft.current step], outer⟩
  | _ => .error (draft.mismatch .doWord)

def body (draft : Draft) : Except Fault (List Token) :=
  match draft.contexts with
  | [] => .ok draft.current
  | context :: _ => .error (.unclosed context.opener)

/-- What a word that shapes definitions makes of the draft, where `limit` is the greatest number
of marks. The word that ends the definition leaves a complete draft as it is. -/
def shape (limit : Nat) (draft : Draft) : Structural → Except Fault Draft
  | .semicolon => draft.body.map fun _ => draft
  | .ifWord => draft.descend limit (.thenPart draft.current)
  | .elseWord =>
    match draft.contexts with
    | .thenPart before :: outer => .ok ⟨[], .elsePart before draft.current :: outer⟩
    | _ => .error (draft.mismatch .ifWord)
  | .thenWord =>
    match draft.contexts with
    | .thenPart before :: outer => .ok ⟨before ++ [.branch draft.current []], outer⟩
    | .elsePart before ifTrue :: outer => .ok ⟨before ++ [.branch ifTrue draft.current], outer⟩
    | _ => .error (draft.mismatch .ifWord)
  | .doWord => draft.descend limit (.loopPart draft.current)
  | .loopWord => draft.closeLoop (.fixed 1)
  | .plusLoop => draft.closeLoop .fromStack
  | .beginWord => draft.descend limit (.beginPart draft.current)
  | .untilWord =>
    match draft.contexts with
    | .beginPart before :: outer => .ok ⟨before ++ [untilLoop draft.current], outer⟩
    | _ => .error (draft.mismatch .beginWord)
  | .whileWord =>
    match draft.contexts with
    | .beginPart before :: outer =>
      if draft.marks.length < limit then .ok ⟨[], .whilePart before draft.current :: outer⟩
      else .error .tooDeep
    | _ => .error (draft.mismatch .beginWord)
  | .repeatWord =>
    match draft.contexts with
    | .whilePart before condition :: outer =>
      .ok ⟨before ++ [.indefinite condition draft.current], outer⟩
    | _ => .error (draft.mismatch .whileWord)
  | .leaveWord => .ok (draft.add .leave)

/-- What a token of the line makes of the draft. Comments are no part of it. -/
def take (limit : Nat) (draft : Draft) : Token → Except Fault Draft
  | .number n => .ok (draft.add (.number n))
  | .call word =>
    match word.behavior with
    | .primitive _ | .definition _ => .ok (draft.add (.call word))
    | .structural s => draft.shape limit s
    | .readAhead _ => .error .interpretOnly
    | .comment _ => .ok draft
  | .unresolved name => .error (.undefinedWord name)
  | token => .error (.unknownToken token.text)

/-- The drafts before and behind a word that shapes the definition. -/
inductive Shapes (limit : Nat) : Structural → Draft → Draft → Prop where
  | semicolon (tokens : List Token) : Shapes limit .semicolon ⟨tokens, []⟩ ⟨tokens, []⟩
  | ifWord {draft : Draft} (room : draft.marks.length < limit) :
      Shapes limit .ifWord draft ⟨[], .thenPart draft.current :: draft.contexts⟩
  | elseWord (before tokens : List Token) (outer : List Context) :
      Shapes limit .elseWord ⟨tokens, .thenPart before :: outer⟩
        ⟨[], .elsePart before tokens :: outer⟩
  | ifThen (before tokens : List Token) (outer : List Context) :
      Shapes limit .thenWord ⟨tokens, .thenPart before :: outer⟩
        ⟨before ++ [.branch tokens []], outer⟩
  | elseThen (before ifTrue tokens : List Token) (outer : List Context) :
      Shapes limit .thenWord ⟨tokens, .elsePart before ifTrue :: outer⟩
        ⟨before ++ [.branch ifTrue tokens], outer⟩
  | doWord {draft : Draft} (room : draft.marks.length < limit) :
      Shapes limit .doWord draft ⟨[], .loopPart draft.current :: draft.contexts⟩
  | loopWord (before tokens : List Token) (outer : List Context) :
      Shapes limit .loopWord ⟨tokens, .loopPart before :: outer⟩
        ⟨before ++ [.counted tokens (.fixed 1)], outer⟩
  | plusLoop (before tokens : List Token) (outer : List Context) :
      Shapes limit .plusLoop ⟨tokens, .loopPart before :: outer⟩
        ⟨before ++ [.counted tokens .fromStack], outer⟩
  | beginWord {draft : Draft} (room : draft.marks.length < limit) :
      Shapes limit .beginWord draft ⟨[], .beginPart draft.current :: draft.contexts⟩
  | untilWord (before tokens : List Token) (outer : List Context) :
      Shapes limit .untilWord ⟨tokens, .beginPart before :: outer⟩
        ⟨before ++ [untilLoop tokens], outer⟩
  | whileWord {before tokens : List Token} {outer : List Context}
      (room : (marks ⟨tokens, .beginPart before :: outer⟩).length < limit) :
      Shapes limit .whileWord ⟨tokens, .beginPart before :: outer⟩
        ⟨[], .whilePart before tokens :: outer⟩
  | repeatWord (before condition tokens : List Token) (outer : List Context) :
      Shapes limit .repeatWord ⟨tokens, .whilePart before condition :: outer⟩
        ⟨before ++ [.indefinite condition tokens], outer⟩
  | leaveWord (draft : Draft) : Shapes limit .leaveWord draft (draft.add .leave)

theorem shapes_of_shape {limit : Nat} {draft draft' : Draft} {s : Structural}
    (h : draft.shape limit s = .ok draft') : Shapes limit s draft draft' := by
  obtain ⟨tokens, contexts⟩ := draft
  cases s with
  | semicolon =>
    simp only [shape, body] at h
    split at h <;> cases h
    exact .semicolon tokens
  | ifWord | doWord | beginWord =>
    simp only [shape, descend] at h
    split at h <;> cases h
    constructor
    assumption
  | whileWord =>
    simp only [shape] at h
    split at h
    · split at h <;> cases h
      exact .whileWord (by assumption)
    · cases h
  | elseWord | thenWord | untilWord | repeatWord =>
    simp only [shape] at h
    split at h <;> cases h <;> constructor
  | loopWord | plusLoop =>
    simp only [shape, closeLoop] at h
    split at h <;> cases h
    constructor
  | leaveWord =>
    cases h
    exact .leaveWord _

end Draft

/-- The machine has the definition of `name` open at `draft`, on top of the stacks of `below`. -/
structure Drafting (below : Machine) (name : String) (draft : Draft) (m : Machine) : Prop where
  mode : m.mode = .compile
  compiling : m.compiling = some name
  stack : m.stack = draft.cells ++ below.stack
  returns : m.returns = draft.marks.map Cell.opened ++ below.returns
  dictionary : m.dictionary = below.dictionary
  exiting : m.exiting = below.exiting
  level : m.log.level = below.log.level
  room : draft.marks.length + below.returns.length ≤ maxDepth

def Draft.place (draft : Draft) (below m : Machine) : Machine :=
  { m with
    stack := draft.cells ++ below.stack
    returns := draft.marks.map Cell.opened ++ below.returns }

/-- The number of marks there is room for. -/
def Machine.markLimit (below : Machine) : Nat := maxDepth - below.returns.length

namespace Drafting

variable {below m : Machine} {name : String} {draft draft' : Draft}

theorem place (h : Drafting below name draft m)
    (hroom : draft'.marks.length + below.returns.length ≤ maxDepth) :
    Drafting below name draft' (draft'.place below m) :=
  { h with stack := rfl, returns := rfl, room := hroom }

theorem returns_of_contexts (h : Drafting below name draft m) {context : Context}
    {outer : List Context} (hcontexts : draft.contexts = context :: outer) :
    m.returns = context.marks.map Cell.opened ++
      ((Draft.marks ⟨[], outer⟩).map .opened ++ below.returns) := by
  simp [h.returns, Draft.marks, hcontexts]

theorem stack_of_contexts (h : Drafting below name draft m) {context : Context}
    {outer : List Context} (hcontexts : draft.contexts = context :: outer) :
    m.stack = pendings draft.current ++
      (context.cells ++ (outer.flatMap Context.cells ++ .opened .colon :: below.stack)) := by
  simp [h.stack, Draft.cells, hcontexts]

theorem openStructure_eq (h : Drafting below name draft m) (opener : Opener) :
    openStructure opener m =
      if draft.marks.length < below.markLimit then
        .ok () { m with
          returns := .opened opener :: m.returns
          stack := .opened opener :: m.stack }
      else .error .tooDeep m := by
  have hlength : m.returns.length = draft.marks.length + below.returns.length := by
    rw [h.returns, List.length_append, List.length_map]
  have hroom := h.room
  unfold openStructure markLimit
  rw [hlength]
  by_cases hlt : draft.marks.length + below.returns.length < maxDepth
  · rw [if_neg (by omega), if_pos (by omega)]
  · rw [if_pos (by omega), if_neg (by omega)]

theorem topOpener?_eq (h : Drafting below name draft m) :
    m.topOpener? = some ((draft.contexts.head?.map Context.opener).getD .colon) := by
  unfold topOpener?
  rw [h.returns]
  unfold Draft.marks
  cases draft.contexts with
  | nil => rfl
  | cons context outer => cases context <;> rfl

theorem closeStructure_of_not_mem (h : Drafting below name draft m) {opener : Opener}
    {others : List Opener} (hcolon : Opener.colon ∉ opener :: others)
    (hmem : ∀ context outer, draft.contexts = context :: outer →
      context.opener ∉ opener :: others) :
    closeStructure opener others m = .error (draft.mismatch opener) m := by
  unfold closeStructure Draft.mismatch
  rw [h.topOpener?_eq]
  cases hcontexts : draft.contexts with
  | nil => exact (if_neg hcolon).trans (if_pos rfl)
  | cons context outer =>
    have hnot : context.opener ≠ .colon := by cases context <;> simp [Context.opener]
    exact (if_neg (hmem context outer hcontexts)).trans (if_neg hnot)

theorem openStructure_of_room (h : Drafting below name draft m) (context : Context)
    (hmarks : context.marks = [context.opener])
    (hcells : context.cells = .opened context.opener :: pendings draft.current)
    (hroom : draft.marks.length < below.markLimit) :
    openStructure context.opener m =
      .ok () (Draft.place ⟨[], context :: draft.contexts⟩ below m) := by
  rw [h.openStructure_eq, if_pos hroom, h.stack, h.returns]
  simp [Draft.place, Draft.cells, Draft.marks, hcells, hmarks]

theorem openStructure_of_full (h : Drafting below name draft m) {context : Context} {fault : Fault}
    (hshape : draft.descend below.markLimit context = .error fault) :
    openStructure context.opener m = .error fault m := by
  unfold Draft.descend at hshape
  rw [h.openStructure_eq]
  split at hshape
  · cases hshape
  · rename_i hlt
    cases hshape
    exact if_neg hlt

end Drafting

section Folding

variable {m : Machine} {opener top : Opener} {others : List Opener} {tokens : List Token}
variable {cells rest : List Cell}

theorem popPending_eq (h : m.stack = pendings tokens ++ .opened opener :: cells) :
    popPending opener m = .ok tokens { m with stack := cells } := by
  unfold popPending
  rw [h, pendings, splitPending_append, List.append_nil]
  rfl

theorem closeStructure_eq (h : m.returns = .opened top :: rest) (hmem : top ∈ opener :: others) :
    closeStructure opener others m = .ok top { m with returns := rest } := by
  unfold closeStructure topOpener?
  rw [h]
  exact if_pos hmem

theorem fold_eq (hreturns : m.returns = .opened opener :: rest)
    (hstack : m.stack = pendings tokens ++ .opened opener :: cells) (f : List Token → Token) :
    (do
      let _ ← closeStructure opener []
      let body ← popPending opener
      compileToken (f body) : Action Unit) m =
      .ok () { m with returns := rest, stack := .pending (f tokens) :: cells } := by
  rw [Action.bind_of_ok (closeStructure_eq hreturns (List.mem_cons_self)),
    Action.bind_of_ok (popPending_eq (m := { m with returns := rest }) hstack)]
  rfl

theorem elseWord_eq (hreturns : m.returns = .opened .ifWord :: rest)
    (hroom : rest.length < maxDepth) :
    Structural.elseWord.effect m = .ok () { m with
      returns := .opened .elseWord :: rest
      stack := .opened .elseWord :: m.stack } := by
  rw [Structural.effect, Action.bind_of_ok (closeStructure_eq hreturns List.mem_cons_self)]
  exact if_neg (Nat.not_le.mpr hroom)

theorem thenWord_eq_of_if (hreturns : m.returns = .opened .ifWord :: rest)
    (hstack : m.stack = pendings tokens ++ .opened .ifWord :: cells) :
    Structural.thenWord.effect m = .ok () { m with
      returns := rest
      stack := .pending (.branch tokens []) :: cells } := by
  rw [Structural.effect, Action.bind_of_ok (closeStructure_eq hreturns List.mem_cons_self)]
  exact Action.bind_of_ok (popPending_eq (m := { m with returns := rest }) hstack)

theorem thenWord_eq_of_else {ifTrue : List Token} (hreturns : m.returns = .opened .elseWord :: rest)
    (hstack : m.stack = pendings tokens ++ .opened .elseWord ::
      (pendings ifTrue ++ .opened .ifWord :: cells)) :
    Structural.thenWord.effect m = .ok () { m with
      returns := rest
      stack := .pending (.branch ifTrue tokens) :: cells } := by
  have hmem : Opener.elseWord ∈ [Opener.ifWord, .elseWord] := by simp
  rw [Structural.effect, Action.bind_of_ok (closeStructure_eq hreturns hmem)]
  refine (Action.bind_of_ok (popPending_eq (m := { m with returns := rest }) hstack)).trans ?_
  exact Action.bind_of_ok (popPending_eq (m := { m with
    returns := rest
    stack := pendings ifTrue ++ .opened .ifWord :: cells }) rfl)

theorem whileWord_eq_of_begin (hreturns : m.returns = .opened .beginWord :: rest) :
    Structural.whileWord.effect m =
      if maxDepth ≤ rest.length + 1 then .error .tooDeep m
      else .ok () { m with
        returns := .opened .whileWord :: .opened .beginWord :: rest
        stack := .opened .whileWord :: m.stack } := by
  rw [Structural.effect, Action.bind_of_ok (closeStructure_eq hreturns List.mem_cons_self)]
  rw [show m = { m with returns := .opened .beginWord :: rest } by rw [← hreturns]]
  rfl

theorem repeatWord_eq {condition : List Token}
    (hreturns : m.returns = .opened .whileWord :: .opened .beginWord :: rest)
    (hstack : m.stack = pendings tokens ++ .opened .whileWord ::
      (pendings condition ++ .opened .beginWord :: cells)) :
    Structural.repeatWord.effect m = .ok () { m with
      returns := rest
      stack := .pending (.indefinite condition tokens) :: cells } := by
  rw [Structural.effect, Action.bind_of_ok (closeStructure_eq hreturns List.mem_cons_self)]
  rw [Action.bind_of_ok (closeStructure_eq (m := { m with
    returns := .opened .beginWord :: rest }) rfl List.mem_cons_self)]
  rw [Action.bind_of_ok (popPending_eq (m := { m with returns := rest }) hstack)]
  exact Action.bind_of_ok (popPending_eq (m := { m with
    returns := rest
    stack := pendings condition ++ .opened .beginWord :: cells }) rfl)

end Folding

namespace Drafting

variable {below m : Machine} {name : String} {draft draft' : Draft} {fault : Fault}

theorem compileToken_eq (h : Drafting below name draft m) (token : Token) :
    compileToken token m = .ok () ((draft.add token).place below m) := by
  unfold compileToken pushCell
  simp [Draft.place, Draft.add, Draft.cells, Draft.marks, h.stack, h.returns]

theorem whileWord_eq {before tokens : List Token} {outer : List Context}
    (h : Drafting below name ⟨tokens, .beginPart before :: outer⟩ m) :
    Structural.whileWord.effect m =
      if (Draft.marks ⟨tokens, .beginPart before :: outer⟩).length < below.markLimit then
        .ok () (Draft.place ⟨[], .whilePart before tokens :: outer⟩ below m)
      else .error .tooDeep m := by
  have hlength : (Draft.marks ⟨tokens, .beginPart before :: outer⟩).length =
      1 + (Draft.marks ⟨[], outer⟩).length := Draft.length_marks_cons _ _ _
  have hreturns : m.returns = .opened .beginWord ::
      ((Draft.marks ⟨[], outer⟩).map .opened ++ below.returns) :=
    h.returns_of_contexts rfl
  rw [whileWord_eq_of_begin hreturns, List.length_append, List.length_map]
  unfold markLimit
  split
  · rw [if_neg (by omega)]
  · rw [if_pos (by omega), h.stack_of_contexts rfl]
    simp [Draft.place, Draft.cells, Draft.marks, Context.cells, Context.marks]

theorem closeLoop_eq {before tokens : List Token} {outer : List Context}
    (h : Drafting below name ⟨tokens, .loopPart before :: outer⟩ m) (step : Step) :
    closeLoop step m =
      .ok () (Draft.place ⟨before ++ [.counted tokens step], outer⟩ below m) := by
  unfold closeLoop
  rw [fold_eq (h.returns_of_contexts rfl) (h.stack_of_contexts rfl)]
  simp [Draft.place, Draft.cells, Draft.marks]

/-- A word that shapes a definition does to the two stacks what it does to the draft. -/
theorem effect_of_shape (h : Drafting below name draft m) {s : Structural} (hs : s ≠ .semicolon)
    (hshape : draft.shape below.markLimit s = .ok draft') :
    s.effect m = .ok () (draft'.place below m) := by
  cases Draft.shapes_of_shape hshape with
  | semicolon tokens => exact absurd rfl hs
  | ifWord room => exact h.openStructure_of_room (.thenPart _) rfl rfl room
  | doWord room => exact h.openStructure_of_room (.loopPart _) rfl rfl room
  | beginWord room => exact h.openStructure_of_room (.beginPart _) rfl rfl room
  | leaveWord => exact h.compileToken_eq .leave
  | loopWord before tokens outer | plusLoop before tokens outer => exact h.closeLoop_eq _
  | elseWord before tokens outer =>
    have hroom := h.room
    rw [Draft.length_marks_cons] at hroom
    have hlt : ((Draft.marks ⟨[], outer⟩).map Cell.opened ++ below.returns).length < maxDepth := by
      change 1 + (Draft.marks ⟨[], outer⟩).length + below.returns.length ≤ maxDepth at hroom
      rw [List.length_append, List.length_map]
      omega
    rw [elseWord_eq (h.returns_of_contexts rfl) hlt, h.stack_of_contexts rfl]
    simp [Draft.place, Draft.cells, Draft.marks, Context.cells, Context.marks]
  | ifThen before tokens outer =>
    rw [thenWord_eq_of_if (h.returns_of_contexts rfl) (h.stack_of_contexts rfl)]
    simp [Draft.place, Draft.cells, Draft.marks]
  | elseThen before ifTrue tokens outer =>
    have hstack : m.stack = pendings tokens ++ .opened .elseWord ::
        (pendings ifTrue ++ .opened .ifWord :: (pendings before ++
          (outer.flatMap Context.cells ++ .opened .colon :: below.stack))) := by
      simpa [Context.cells] using h.stack_of_contexts rfl
    rw [thenWord_eq_of_else (h.returns_of_contexts rfl) hstack]
    simp [Draft.place, Draft.cells, Draft.marks]
  | untilWord before tokens outer =>
    rw [Structural.effect, fold_eq (h.returns_of_contexts rfl) (h.stack_of_contexts rfl)]
    simp [Draft.place, Draft.cells, Draft.marks]
  | whileWord room => rw [h.whileWord_eq, if_pos room]
  | repeatWord before condition tokens outer =>
    have hstack : m.stack = pendings tokens ++ .opened .whileWord ::
        (pendings condition ++ .opened .beginWord :: (pendings before ++
          (outer.flatMap Context.cells ++ .opened .colon :: below.stack))) := by
      simpa [Context.cells] using h.stack_of_contexts rfl
    rw [repeatWord_eq (h.returns_of_contexts rfl) hstack]
    simp [Draft.place, Draft.cells, Draft.marks]

theorem effect_of_shape_error (h : Drafting below name draft m) {s : Structural}
    (hshape : draft.shape below.markLimit s = .error fault) : s.effect m = .error fault m := by
  cases s with
  | ifWord | doWord | beginWord => exact h.openStructure_of_full hshape
  | leaveWord => cases hshape
  | semicolon =>
    have hunclosed : closeStructure .colon [] m = .error fault m := by
      simp only [Draft.shape, Draft.body] at hshape
      unfold closeStructure
      rw [h.topOpener?_eq]
      split at hshape
      · cases hshape
      · rename_i context outer hcontexts
        cases hshape
        cases context <;> simp [hcontexts, Context.opener]
    exact Action.bind_of_error hunclosed
  | loopWord | plusLoop =>
    simp only [Draft.shape, Draft.closeLoop] at hshape
    split at hshape
    · cases hshape
    · cases hshape
      refine Action.bind_of_error (h.closeStructure_of_not_mem (by simp) ?_)
      intro context outer hcontexts
      cases context <;> simp_all [Context.opener]
  | elseWord | thenWord | untilWord | repeatWord =>
    simp only [Draft.shape] at hshape
    repeat' split at hshape
    all_goals cases hshape
    refine Action.bind_of_error (h.closeStructure_of_not_mem (by simp) ?_)
    intro context outer hcontexts
    cases context <;> simp_all [Context.opener]
  | whileWord =>
    obtain ⟨tokens, contexts⟩ := draft
    simp only [Draft.shape] at hshape
    split at hshape
    · split at hshape
      · cases hshape
      · rename_i hlt
        cases hshape
        rw [h.whileWord_eq, if_neg hlt]
    · cases hshape
      refine Action.bind_of_error (h.closeStructure_of_not_mem (by simp) ?_)
      intro context outer hcontexts
      cases context <;> simp_all [Context.opener]

theorem note (h : Drafting below name draft m) (entry : Entry) :
    Drafting below name draft (m.note entry) :=
  { h with level := (Log.add_level _ _).trans h.level }

end Drafting

theorem Draft.length_marks_of_shape {draft draft' : Draft} {limit : Nat} {s : Structural}
    (hlimit : draft.marks.length ≤ limit) (h : draft.shape limit s = .ok draft') :
    draft'.marks.length ≤ limit := by
  cases shapes_of_shape h with
  | semicolon | leaveWord => exact hlimit
  | ifWord room | doWord room | beginWord room =>
    rw [length_marks_cons]
    change 1 + draft.marks.length ≤ limit
    omega
  | elseWord => exact hlimit
  | whileWord room =>
    rw [length_marks_cons] at room ⊢
    simp only [Context.marks, List.length_cons, List.length_nil] at room ⊢
    omega
  | ifThen | elseThen | loopWord | plusLoop | untilWord | repeatWord =>
    rw [length_marks_cons] at hlimit
    exact Nat.le_trans (Nat.le_add_left _ _) hlimit

/-- Tokens that are compiled into the draft: neither the end of the definition nor a comment. -/
def Token.ForDraft : Token → Prop
  | .call word =>
    match word.behavior with
    | .structural s => s ≠ .semicolon
    | .comment _ => False
    | _ => True
  | _ => True

namespace Drafting

variable {below m : Machine} {name : String} {draft draft' : Draft} {fault : Fault}

theorem limit (h : Drafting below name draft m) : draft.marks.length ≤ below.markLimit := by
  have hroom := h.room
  unfold markLimit
  omega

theorem place_of_limit (h : Drafting below name draft m)
    (hlimit : draft'.marks.length ≤ below.markLimit) :
    Drafting below name draft' (draft'.place below m) := by
  have hroom := h.room
  unfold markLimit at hlimit
  exact h.place (by omega)

/-- A word of the definition makes of the machine what it makes of the draft. -/
theorem compile_of_take (h : Drafting below name draft m) {token : Token} (hdraft : token.ForDraft)
    (htake : draft.take below.markLimit token = .ok draft') :
    ∃ m', compile token m = .ok .next m' ∧ Drafting below name draft' m' ∧ Quiet m m' := by
  have hquiet (m' : Machine) (draft' : Draft) : Quiet m' (draft'.place below m') :=
    ⟨rfl, rfl, rfl, rfl, rfl⟩
  cases token with
  | number n =>
    cases htake
    refine ⟨_, Action.bind_of_ok (h.compileToken_eq _), h.place_of_limit ?_, hquiet _ _⟩
    exact h.limit
  | call word =>
    cases hb : word.behavior with
    | primitive _ | definition _ =>
      simp only [Draft.take, hb] at htake
      cases htake
      simp only [compile, hb]
      refine ⟨_, Action.bind_of_ok (h.compileToken_eq _), h.place_of_limit ?_, hquiet _ _⟩
      exact h.limit
    | structural s =>
      simp only [Draft.take, hb] at htake
      simp only [Token.ForDraft, hb] at hdraft
      simp only [compile, hb]
      have hnote := h.note ⟨.debug, "compile", s.name, none⟩
      refine ⟨_, Action.bind_of_ok (hnote.effect_of_shape hdraft htake),
        hnote.place_of_limit (Draft.length_marks_of_shape h.limit htake), ?_⟩
      exact Quiet.trans (Action.Obeys.tell _ _ _ _ m) (hquiet _ _)
    | readAhead r =>
      simp only [Draft.take, hb] at htake
      cases htake
    | comment c => simp only [Token.ForDraft, hb] at hdraft
  | unresolved name | counted body step | branch ifTrue ifFalse | indefinite condition body
  | leave => cases htake

theorem compile_of_take_error (h : Drafting below name draft m) {token : Token}
    (htake : draft.take below.markLimit token = .error fault) :
    ∃ m', compile token m = .error fault m' ∧ m'.dictionary = below.dictionary ∧ Quiet m m' := by
  cases token with
  | number n => cases htake
  | call word =>
    cases hb : word.behavior with
    | primitive _ | definition _ | comment _ =>
      simp only [Draft.take, hb] at htake
      cases htake
    | structural s =>
      simp only [Draft.take, hb] at htake
      simp only [compile, hb]
      have hnote := h.note ⟨.debug, "compile", s.name, none⟩
      refine ⟨m.note ⟨.debug, "compile", s.name, none⟩, ?_, h.dictionary,
        Action.Obeys.tell _ _ _ _ m⟩
      exact (Action.bind_of_ok rfl).trans
        (Action.bind_of_error (hnote.effect_of_shape_error htake))
    | readAhead r =>
      simp only [Draft.take, hb] at htake
      cases htake
      simp only [compile, hb]
      exact ⟨m, rfl, h.dictionary, Quiet.refl m⟩
  | unresolved name | counted body step | branch ifTrue ifFalse | indefinite condition body
  | leave =>
    cases htake
    exact ⟨m, rfl, h.dictionary, Quiet.refl m⟩

end Drafting

end ForthMachine
