import ForthMachine.Machine.Access

/-!
# Compiling a definition

The tokens of a definition wait on the data stack. A word that opens a structure puts its mark on
both stacks, and the word that closes it folds the tokens above the mark into one. While a
definition is open, the return stack has nothing above the marks of its open structures.
-/

set_option autoImplicit false

namespace ForthMachine

open Machine

/-- Leaves a token for the definition being compiled. -/
def compileToken (token : Token) : Action Unit :=
  pushCell (.pending token)

/-- Opens a structure, unless the return stack has grown to the greatest depth. -/
def openStructure (opener : Opener) : Action Unit := fun m =>
  if maxDepth ≤ m.returns.length then .error .tooDeep m
  else .ok () { m with
    returns := .opened opener :: m.returns
    stack := .opened opener :: m.stack }

/-- Closes the innermost structure, which has to have been opened by `opener` or one of `others`.
At the beginning of a definition, or outside of one, the `opener` is missing. -/
def closeStructure (opener : Opener) (others : List Opener) : Action Opener := fun m =>
  match m.topOpener? with
  | none => .error (.missing opener) m
  | some top =>
    if top ∈ opener :: others then .ok top { m with returns := m.returns.tail }
    else if top = .colon then .error (.missing opener) m
    else .error (.unclosed top) m

/-- The loop that runs until the flag left by `body` is true: its condition is `body` and the
opposite of that flag, and it has nothing else to run. -/
def untilLoop (body : List Token) : Token :=
  .indefinite (body ++ [.branch [.number (flag false)] [.number (flag true)]]) []

def openDefinition : Action Unit := do
  match ← readWord with
  | none => fail .noNameGiven
  | some name =>
    tell .debug ":" "compiling" (some (.text name))
    modify fun m => { m with compiling := some name, mode := .compile }
    openStructure .colon

/-- Installs the body under the name being compiled, and ends the definition. -/
def installDefinition (body : List Token) : Action Unit := do
  match (← get).compiling with
  | none => fail .noNameGiven
  | some name =>
    modify fun m => { m with compiling := none }
    if (← get).dictionary.contains name then
      tell .warning "unique?" "Overwriting existing definition" (some (.text name))
    tell .info ";" "defined" (some (.text name))
    modify fun m =>
      { m with dictionary := m.dictionary.install name (.definition body), mode := .immediate }

def closeDefinition : Action Unit := do
  let _ ← closeStructure .colon []
  installDefinition (← popPending .colon)

def closeLoop (step : Step) : Action Unit := do
  let _ ← closeStructure .doWord []
  let body ← popPending .doWord
  compileToken (.counted body step)

namespace Structural

def effect : Structural → Action Unit
  | semicolon => closeDefinition
  | ifWord => openStructure .ifWord
  | elseWord => do
    let _ ← closeStructure .ifWord []
    openStructure .elseWord
  | thenWord => do
    let ifFalse ←
      match ← closeStructure .ifWord [.elseWord] with
      | .elseWord => popPending .elseWord
      | _ => pure []
    let ifTrue ← popPending .ifWord
    compileToken (.branch ifTrue ifFalse)
  | doWord => openStructure .doWord
  | loopWord => closeLoop (.fixed 1)
  | plusLoop => closeLoop .fromStack
  | beginWord => openStructure .beginWord
  | untilWord => do
    let _ ← closeStructure .beginWord []
    let body ← popPending .beginWord
    compileToken (untilLoop body)
  | whileWord => do
    let _ ← closeStructure .beginWord []
    pushReturnCell (.opened .beginWord)
    openStructure .whileWord
  | repeatWord => do
    let _ ← closeStructure .whileWord []
    let _ ← closeStructure .beginWord []
    let body ← popPending .whileWord
    let condition ← popPending .beginWord
    compileToken (.indefinite condition body)
  | leaveWord => compileToken .leave

end Structural

end ForthMachine
