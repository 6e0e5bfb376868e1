import Mathlib.Data.List.TakeWhile
import ForthMachine.Proofs.Bodies

/-!
# Faults of runs

Where the stacks hold values, a run of sound tokens fails for want of operands, with a division by
zero, with a number that is no character, or because runs nest too deep. The last takes tokens that
nest deeper than there is room for, whatever the stacks hold and whatever the tokens are.
-/

set_option autoImplicit false

namespace ForthMachine

open Machine

/-- What a run complains of where it finds a cell or a token that has no meaning there. -/
def Fault.OfToken : Fault → Prop
  | .undefinedWord _ | .unknownToken _ | .compileOnly => True
  | _ => False

/-- Faults that runs come to from machines with `P`: those of the primitives and, unless `P` has
only values on the stacks, those of tokens on the stacks. -/
structure FaultLaw (P : Machine → Prop) (Q : Fault → Prop) : Prop where
  keeps : StepLaw fun m m' => P m → P m'
  setDepth : ∀ {m : Machine} (depth : Nat), P m → P { m with depth }
  ofPrimitive : ∀ {fault : Fault}, fault.OfPrimitive → Q fault
  cells : (∀ {m : Machine}, P m → HoldsValues m) ∨ ∀ {fault : Fault}, fault.OfToken → Q fault

/-- From a machine with `P`, the action fails only with a fault that `Q` allows. -/
def Action.FailsWith {α : Type} (P : Machine → Prop) (Q : Fault → Prop) (action : Action α) :
    Prop :=
  ∀ ⦃m m' : Machine⦄ ⦃fault : Fault⦄, P m → action m = .error fault m' → Q fault

theorem Action.FailsWith.of_ok {α : Type} {P : Machine → Prop} {Q : Fault → Prop}
    {action : Action α} (h : ∀ m, ∃ a m', action m = .ok a m') : Action.FailsWith P Q action := by
  intro m m' fault _ hfail
  obtain ⟨a, m₁, hok⟩ := h m
  rw [hok] at hfail
  cases hfail

theorem Cell.number_error {cell : Cell} {fault : Fault} (h : cell.number = .error fault) :
    (¬ ∃ n, cell = .value n) ∧ fault.OfToken := by
  cases cell with
  | value n => cases h
  | pending token | opened opener =>
    cases h
    exact ⟨nofun, trivial⟩

theorem topValues_error {cells : List Cell} {n : Nat} {fault : Fault}
    (hfail : topValues n cells = .error fault) :
    fault = .stackUnderflow ∨ ∃ cell ∈ cells, cell.number = .error fault := by
  induction cells generalizing n with
  | nil =>
    cases n with
    | zero => cases hfail
    | succ n =>
      cases hfail
      exact .inl rfl
  | cons cell cells ih =>
    cases n with
    | zero => cases hfail
    | succ n =>
      simp only [topValues] at hfail
      split at hfail
      · rename_i deeper
        cases hfail
        rcases ih deeper with hunderflow | ⟨other, hother, hnumber⟩
        · exact .inl hunderflow
        · exact .inr ⟨other, List.mem_cons_of_mem _ hother, hnumber⟩
      · split at hfail
        · rename_i hnumber
          cases hfail
          exact .inr ⟨cell, List.mem_cons_self, hnumber⟩
        · cases hfail

namespace FaultLaw

variable {P : Machine → Prop} {Q : Fault → Prop} (law : FaultLaw P Q)
include law

theorem stackCell {m : Machine} (hm : P m) {cell : Cell} (hcell : cell ∈ m.stack) {fault : Fault}
    (h : cell.number = .error fault) : Q fault := by
  rcases law.cells with hvalues | hrest
  · exact absurd ((hvalues hm).stack cell hcell) (Cell.number_error h).1
  · exact hrest (Cell.number_error h).2

theorem returnCell {m : Machine} (hm : P m) {cell : Cell} (hcell : cell ∈ m.returns)
    {fault : Fault} (h : cell.number = .error fault) : Q fault := by
  rcases law.cells with hvalues | hrest
  · exact absurd ((hvalues hm).returns cell hcell) (Cell.number_error h).1
  · exact hrest (Cell.number_error h).2

omit law in
theorem of_leaving {α : Type} {m m' : Machine} {result : Except Fault α} {fault : Fault}
    (h : leaving m result = .error fault m') : result = .error fault := by
  cases result <;> cases h
  rfl

theorem pop : Action.FailsWith P Q Machine.pop := by
  intro m m' fault hm hfail
  unfold Machine.pop at hfail
  split at hfail
  · cases hfail
    exact law.ofPrimitive trivial
  · rename_i cell rest hstack
    exact law.stackCell hm (hstack ▸ List.mem_cons_self) (of_leaving hfail)

theorem peek (n : Nat) : Action.FailsWith P Q (Machine.peek n) := by
  intro m m' fault hm hfail
  unfold Machine.peek at hfail
  split at hfail
  · cases hfail
    exact law.ofPrimitive trivial
  · rename_i cell hcell
    exact law.stackCell hm (List.mem_of_getElem? hcell) (of_leaving hfail)

theorem need (n : Nat) : Action.FailsWith P Q (Machine.need n) := by
  intro m m' fault _ hfail
  unfold Machine.need at hfail
  split at hfail <;> cases hfail
  exact law.ofPrimitive trivial

theorem topValues {m : Machine} (hm : P m) {n : Nat} {fault : Fault}
    (h : Machine.topValues n m.stack = .error fault) : Q fault := by
  rcases topValues_error h with rfl | ⟨cell, hcell, hnumber⟩
  · exact law.ofPrimitive trivial
  · exact law.stackCell hm hcell hnumber

theorem popValues (n : Nat) : Action.FailsWith P Q (Machine.popValues n) := by
  intro m m' fault hm hfail
  unfold Machine.popValues at hfail
  split at hfail
  · rename_i htop
    cases hfail
    exact law.topValues hm htop
  · cases hfail

theorem transform (n : Nat) {f : (Fin n → Int64) → Except Fault (List Int64)}
    (hf : ∀ {values fault}, f values = .error fault → fault.OfPrimitive) :
    Action.FailsWith P Q (Machine.transform n f) := by
  intro m m' fault hm hfail
  unfold Machine.transform at hfail
  split at hfail
  · rename_i htop
    cases hfail
    exact law.topValues hm htop
  · split at hfail
    · rename_i hresult
      cases hfail
      exact law.ofPrimitive (hf hresult)
    · cases hfail

theorem popAll : Action.FailsWith P Q Machine.popAll := by
  intro m m' fault hm hfail
  unfold Machine.popAll at hfail
  split at hfail
  · cases hfail
  · rename_i cell rest hdrop
    cases hfail
    rcases law.cells with hvalues | hrest
    · have hnil : m.stack.dropWhile (·.number?.isSome) = [] := by
        rw [List.dropWhile_eq_nil_iff]
        intro cell hcell
        obtain ⟨n, rfl⟩ := (hvalues hm).stack cell hcell
        rfl
      rw [hnil] at hdrop
      cases hdrop
    · exact hrest trivial

theorem popReturn : Action.FailsWith P Q Machine.popReturn := by
  intro m m' fault hm hfail
  unfold Machine.popReturn at hfail
  split at hfail
  · cases hfail
    exact law.ofPrimitive trivial
  · rename_i cell rest hreturns
    exact law.returnCell hm (hreturns ▸ List.mem_cons_self) (of_leaving hfail)

theorem peekReturn (n : Nat) : Action.FailsWith P Q (Machine.peekReturn n) := by
  intro m m' fault hm hfail
  unfold Machine.peekReturn at hfail
  split at hfail
  · cases hfail
    exact law.ofPrimitive trivial
  · rename_i cell hcell
    exact law.returnCell hm (List.mem_of_getElem? hcell) (of_leaving hfail)

/-- The first action keeps `P`, so the second one finds it, too. -/
theorem built {α : Type} {may : Access → Prop} {action : Action α} (h : action.Built may) :
    Action.FailsWith P Q action := by
  induction h with
  | pure a => exact .of_ok fun _ => ⟨_, _, rfl⟩
  | @fail _ fault h =>
    intro m m' fault' _ hfail
    cases hfail
    exact law.ofPrimitive h
  | @bind _ _ first next hfirst hnext first_fails next_fails =>
    intro m m' fault hm hfail
    have hkept := law.keeps.built hfirst m hm
    cases hrun : first m with
    | ok a m₁ =>
      rw [hrun] at hkept
      rw [Action.bind_of_ok hrun] at hfail
      exact next_fails a hkept hfail
    | error fault' m₁ =>
      rw [Action.bind_of_error hrun] at hfail
      cases hfail
      exact first_fails hm hrun
  | push n => exact .of_ok fun _ => ⟨_, _, rfl⟩
  | pop => exact law.pop
  | peek n => exact law.peek n
  | need n => exact law.need n
  | transform n hf => exact law.transform n hf
  | popAll _ => exact law.popAll
  | pushReturn _ n => exact .of_ok fun _ => ⟨_, _, rfl⟩
  | popReturn _ => exact law.popReturn
  | peekReturn _ n => exact law.peekReturn n
  | print text => exact .of_ok fun _ => ⟨_, _, rfl⟩
  | tell level context text detail => exact .of_ok fun _ => ⟨_, _, rfl⟩
  | exit => exact .of_ok fun _ => ⟨_, _, rfl⟩
  | setLevel level => exact .of_ok fun _ => ⟨_, _, rfl⟩
  | @withStack _ action _ _ same =>
    intro m m' fault hm hfail
    exact same m.stack hm hfail
  | @withNames _ action _ _ same =>
    intro m m' fault hm hfail
    exact same m.dictionary.names hm hfail

theorem size (step : Step) : Action.FailsWith P Q step.size := by
  cases step with
  | fixed n => exact .of_ok fun _ => ⟨_, _, rfl⟩
  | fromStack => exact law.pop

end FaultLaw

theorem StepLaw.and {R S : Machine → Machine → Prop} (law : StepLaw R) (law' : StepLaw S) :
    StepLaw fun m m' => R m m' ∧ S m m' where
  refl m := ⟨law.refl m, law'.refl m⟩
  trans h h' := ⟨law.trans h.1 h'.1, law'.trans h.2 h'.2⟩
  stack m values _ hcells := ⟨law.stack m values hcells, law'.stack m values hcells⟩
  returns m values _ hcells := ⟨law.returns m values hcells, law'.returns m values hcells⟩
  print m text := ⟨law.print m text, law'.print m text⟩
  exit m := ⟨law.exit m, law'.exit m⟩
  log m log := ⟨law.log m log, law'.log m log⟩
  deeper h := ⟨law.deeper h.1, law'.deeper h.2⟩

mutual

/-- How many runs a token makes at most, each inside the one before. -/
def Token.nesting : Token → Nat
  | .number _ => 0
  | .call word => Word.nesting word
  | .unresolved _ => 0
  | .counted body _ => Token.nestingAll body + 1
  | .branch ifTrue ifFalse => max (Token.nestingAll ifTrue) (Token.nestingAll ifFalse) + 1
  | .indefinite condition body => max (Token.nestingAll condition) (Token.nestingAll body) + 1
  | .leave => 0
termination_by structural token => token

def Word.nesting : Word → Nat
  | ⟨_, _, behavior⟩ => Behavior.nesting behavior
termination_by structural word => word

def Behavior.nesting : Behavior → Nat
  | .definition body => Token.nestingAll body + 1
  | _ => 0
termination_by structural behavior => behavior

def Token.nestingAll : List Token → Nat
  | [] => 0
  | token :: tokens => max (Token.nesting token) (Token.nestingAll tokens)
termination_by structural tokens => tokens

end

/-- What a run complains of that starts at `depth` and nests that deep. -/
def Fault.OfRun (limit : Option Nat) (nesting depth : Nat) (fault : Fault) : Prop :=
  fault.OfPrimitive ∨ fault = .tooDeep ∧ limit.any (· < depth + nesting)

/-- From a machine with `P`, the run fails only with a fault that `Q` allows, or because it nests
that deep and there is no room. -/
def Run.FailsWith (P : Machine → Prop) (Q : Fault → Prop) (limit : Option Nat) (nesting : Nat)
    (run : Run) : Prop :=
  ∀ ⦃m m' : Machine⦄ ⦃fault : Fault⦄, P m → run m = some (.error fault m') →
    Q fault ∨ fault = .tooDeep ∧ limit.any (· < m.depth + nesting)

theorem Run.FailsWith.mono {P : Machine → Prop} {Q : Fault → Prop} {limit : Option Nat}
    {nesting nesting' : Nat} {run : Run} (h : Run.FailsWith P Q limit nesting run)
    (hle : nesting ≤ nesting') : Run.FailsWith P Q limit nesting' run := by
  intro m m' fault hm hfail
  rcases h hm hfail with hfault | ⟨rfl, hdeep⟩
  · exact .inl hfault
  · refine .inr ⟨rfl, ?_⟩
    cases limit with
    | none => cases hdeep
    | some limit =>
      simp only [Option.any_some, decide_eq_true_eq] at hdeep ⊢
      omega

/-- The depth stays, and so does `P`. -/
def Stays (P : Machine → Prop) (m m' : Machine) : Prop := Undisturbed m m' ∧ (P m → P m')

namespace FaultLaw

variable {P : Machine → Prop} {Q : Fault → Prop}

theorem stays (law : FaultLaw P Q) : StepLaw (Stays P) :=
  undisturbed_stepLaw.and law.keeps

section Loops

variable (law : FaultLaw P Q) {limit : Option Nat} {nesting : Nat} {run : Run}
include law

theorem nested (h : Run.FailsWith P Q limit nesting run) :
    Run.FailsWith P Q limit (nesting + 1) (ForthMachine.nested limit run) := by
  intro m m' fault hm hfail
  unfold ForthMachine.nested at hfail
  split at hfail
  · rename_i hfull
    cases hfail
    refine .inr ⟨rfl, ?_⟩
    cases limit with
    | none => cases hfull
    | some limit =>
      simp only [Option.any_some, decide_eq_true_eq] at hfull ⊢
      omega
  · obtain ⟨o, hrun, hadjust⟩ := Option.map_eq_some_iff.mp hfail
    cases o with
    | ok flow m₁ => cases hadjust
    | error fault' m₁ =>
      cases hadjust
      have hinner := h (law.setDepth (m.depth + 1) hm) hrun
      rwa [show m.depth + (nesting + 1) = m.depth + 1 + nesting by omega]

variable (hkeeps : Run.Obeys (Stays P) run)
include hkeeps

theorem withIndex (h : Run.FailsWith P Q limit nesting run) (index : Int64) :
    Run.FailsWith P Q limit nesting (ForthMachine.withIndex index run) := by
  intro m m' fault hm hfail
  have hpushed : P { m with returns := .value index :: m.returns } :=
    law.keeps.returns m [index] (List.suffix_refl _) hm
  unfold ForthMachine.withIndex at hfail
  split at hfail
  · rename_i flow m₁ hbody
    have hvalues : P m₁ := (hkeeps hbody).2 hpushed
    split at hfail
    · cases hfail
    · rename_i hpop
      cases hfail
      exact .inl (law.popReturn hvalues hpop)
  · have hinner := h hpushed hfail
    exact hinner

theorem countedLoop (h : Run.FailsWith P Q limit nesting run) (step : Step) (last : Int64)
    (passes : Nat) (index : Int64) :
    Run.FailsWith P Q limit nesting (ForthMachine.countedLoop run step last passes index) := by
  have hpass (index : Int64) : Run.Obeys (Stays P) (ForthMachine.withIndex index run) :=
    law.stays.withIndex index hkeeps
  induction passes generalizing index with
  | zero =>
    intro m m' fault hm hfail
    simp only [ForthMachine.countedLoop] at hfail
    split at hfail <;> cases hfail
  | succ passes ih =>
    intro m m' fault hm hfail
    simp only [ForthMachine.countedLoop] at hfail
    split at hfail
    · split at hfail
      · cases hfail
      · rename_i m₁ hbody
        obtain ⟨hplace, hvalues⟩ := hpass index hbody
        have hdepth : m₁.depth = m.depth := hplace.depth
        have hstep := law.stays.size step m₁
        split at hfail
        · rename_i hsize
          cases hfail
          exact .inl (law.size step (hvalues hm) hsize)
        · rename_i m₂ hsize
          rw [hsize] at hstep
          have hdepth' : m₂.depth = m₁.depth := hstep.1.depth
          split at hfail
          · cases hfail
          · have hm₂ : P m₂ := hstep.2 (hvalues hm)
            rw [← hdepth, ← hdepth']
            exact ih _ hm₂ hfail
      · exact law.withIndex hkeeps h index hm hfail
    · cases hfail

theorem indefiniteLoop (h : Run.FailsWith P Q limit nesting run) {body : Run}
    (hkeeps' : Run.Obeys (Stays P) body)
    (hbody : Run.FailsWith P Q limit nesting body) (passes : Nat) :
    Run.FailsWith P Q limit nesting (ForthMachine.indefiniteLoop run body passes) := by
  induction passes with
  | zero =>
    intro m m' fault hm hfail
    cases hfail
  | succ passes ih =>
    intro m m' fault hm hfail
    simp only [ForthMachine.indefiniteLoop] at hfail
    split at hfail
    · cases hfail
    · rename_i m₁ hfirst
      obtain ⟨hplace, hvalues⟩ := hkeeps hfirst
      have hflag := law.stays.pop m₁
      split at hfail
      · rename_i hpop
        cases hfail
        exact .inl (law.pop (hvalues hm) hpop)
      · rename_i m₂ hpop
        rw [hpop] at hflag
        have hm₂ := hflag.2 (hvalues hm)
        have hdepth : m₂.depth = m.depth := hflag.1.depth.trans hplace.depth
        split at hfail
        · cases hfail
        · split at hfail
          · cases hfail
          · rename_i m₃ hsecond
            obtain ⟨hplace', hvalues'⟩ := hkeeps' hsecond
            have hdepth' : m₃.depth = m₂.depth := hplace'.depth
            have hm₃ : P m₃ := hvalues' hm₂
            rw [← hdepth, ← hdepth']
            exact ih hm₃ hfail
          · rw [← hdepth]
            exact hbody hm₂ hfail
    · exact h hm hfail

end Loops

theorem nested_stays (law : FaultLaw P Q) (bounds : Bounds) (tokens : List Token) :
    Run.Obeys (Stays P)
      (ForthMachine.nested bounds.nesting (ForthMachine.runTokens bounds tokens)) :=
  law.stays.nested _ (law.stays.runTokens bounds tokens)

-- Tokens that are not sound may fail for other reasons, which are those of tokens.

mutual

theorem runToken (law : FaultLaw P Q) (bounds : Bounds) : ∀ token : Token,
    token.Sound ∨ (∀ {fault}, fault.OfToken → Q fault) →
    Run.FailsWith P Q bounds.nesting token.nesting (ForthMachine.runToken bounds token)
  | .number n, _, _, _, _, _, hfail => by cases hfail
  | .call word, h, m, m', fault, hm, hfail =>
    callWord law bounds word (h.imp_left fun h => ⟨h.1, h.2.2⟩) hm hfail
  | .unresolved name, h, _, _, _, _, hfail => by
    cases hfail
    exact .inl (h.elim False.elim fun hrest => hrest trivial)
  | .counted body step, h, m, m', fault, hm, hfail => by
    have hlimits := law.stays.popValues 2 m
    simp only [ForthMachine.runToken] at hfail
    split at hfail
    · rename_i hpop
      cases hfail
      exact .inl (law.popValues 2 hm hpop)
    · rename_i m₁ hpop
      rw [hpop] at hlimits
      have hdepth : m₁.depth = m.depth := hlimits.1.depth
      have hpass := law.nested (runTokens law bounds body (h.imp_left And.left))
      rw [← hdepth]
      exact law.countedLoop (law.nested_stays bounds body) hpass step _ _ _ (hlimits.2 hm) hfail
  | .branch ifTrue ifFalse, h, m, m', fault, hm, hfail => by
    have hflag := law.stays.pop m
    simp only [ForthMachine.runToken] at hfail
    split at hfail
    · rename_i hpop
      cases hfail
      exact .inl (law.pop hm hpop)
    · rename_i m₁ hpop
      rw [hpop] at hflag
      have hdepth : m₁.depth = m.depth := hflag.1.depth
      have htrue := law.nested (runTokens law bounds ifTrue (h.imp_left And.left))
      have hfalse := law.nested (runTokens law bounds ifFalse (h.imp_left And.right))
      rw [← hdepth]
      split at hfail
      · exact htrue.mono (Nat.succ_le_succ (Nat.le_max_left _ _)) (hflag.2 hm) hfail
      · exact hfalse.mono (Nat.succ_le_succ (Nat.le_max_right _ _)) (hflag.2 hm) hfail
  | .indefinite condition body, h, m, m', fault, hm, hfail => by
    have hfirst := law.nested (runTokens law bounds condition (h.imp_left And.left))
    have hsecond := law.nested (runTokens law bounds body (h.imp_left And.right))
    exact law.indefiniteLoop (law.nested_stays bounds condition)
      (hfirst.mono (Nat.succ_le_succ (Nat.le_max_left _ _))) (law.nested_stays bounds body)
      (hsecond.mono (Nat.succ_le_succ (Nat.le_max_right _ _))) bounds.passes hm hfail
  | .leave, _, _, _, _, _, hfail => by cases hfail
termination_by structural token => token

theorem callWord (law : FaultLaw P Q) (bounds : Bounds) : ∀ word : Word,
    word.behavior.Runs ∧ word.Sound ∨ (∀ {fault}, fault.OfToken → Q fault) →
    Run.FailsWith P Q bounds.nesting word.nesting (ForthMachine.callWord bounds word)
  | ⟨_, name, behavior⟩, h, m, _, _, hm, hfail =>
    runBehavior law bounds name behavior (h.imp_left fun h => ⟨h.1, h.2.2⟩) (m := m.note _)
      (law.keeps.log m _ hm) hfail
termination_by structural word => word

theorem runBehavior (law : FaultLaw P Q) (bounds : Bounds) (name : String) :
    ∀ behavior : Behavior,
    behavior.Runs ∧ behavior.SoundAs name ∨ (∀ {fault}, fault.OfToken → Q fault) →
    Run.FailsWith P Q bounds.nesting behavior.nesting
      (ForthMachine.runBehavior bounds name behavior)
  | .primitive p, _, _, _, _, hm, hfail =>
    .inl (law.built p.run_built hm (Option.some.inj hfail))
  | .definition body, h, _, _, _, hm, hfail =>
    law.nested (runTokens law bounds body (h.imp_left And.right)) hm hfail
  | .structural _, h, _, _, _, _, hfail
  | .readAhead _, h, _, _, _, _, hfail
  | .comment _, h, _, _, _, _, hfail => by
    cases hfail
    exact .inl (h.elim (fun h => h.1.elim) fun hrest => hrest trivial)
termination_by structural behavior => behavior

theorem runTokens (law : FaultLaw P Q) (bounds : Bounds) : ∀ tokens : List Token,
    Token.AllSound tokens ∨ (∀ {fault}, fault.OfToken → Q fault) →
    Run.FailsWith P Q bounds.nesting (Token.nestingAll tokens)
      (ForthMachine.runTokens bounds tokens)
  | [], _, _, _, _, _, hfail => by cases hfail
  | token :: tokens, h, m, _, _, hm, hfail => by
    simp only [ForthMachine.runTokens] at hfail
    split at hfail
    · rename_i m₁ hfirst
      obtain ⟨hplace, hvalues⟩ := law.stays.runToken bounds token hfirst
      have hdepth : m₁.depth = m.depth := hplace.depth
      have hrest := runTokens law bounds tokens (h.imp_left And.right)
      rw [← hdepth]
      exact hrest.mono (Nat.le_max_right _ _) (hvalues hm) hfail
    · have htoken := runToken law bounds token (h.imp_left And.left)
      exact htoken.mono (Nat.le_max_left _ _) hm hfail
termination_by structural tokens => tokens

end

end FaultLaw

theorem holdsValues_faultLaw : FaultLaw HoldsValues Fault.OfPrimitive where
  keeps := holdsValues_stepLaw
  setDepth _ hm := ⟨hm.stack, hm.returns⟩
  ofPrimitive := id
  cells := .inl id

/-- Where the stacks hold values, the run fails only with what runs complain of. -/
def Run.Tame (limit : Option Nat) (nesting : Nat) (run : Run) : Prop :=
  ∀ ⦃m m' : Machine⦄ ⦃fault : Fault⦄, HoldsValues m → run m = some (.error fault m') →
    fault.OfRun limit nesting m.depth

theorem Run.Tame.nested {limit : Option Nat} {nesting : Nat} {run : Run}
    (h : Run.Tame limit nesting run) :
    Run.Tame limit (nesting + 1) (ForthMachine.nested limit run) :=
  holdsValues_faultLaw.nested h

/-- The run keeps the depth, and leaves values where values were. -/
def KeepsPlace (m m' : Machine) : Prop := Undisturbed m m' ∧ (HoldsValues m → HoldsValues m')

section Runs

variable (bounds : Bounds)

theorem nested_keepsPlace (tokens : List Token) :
    Run.Obeys KeepsPlace (nested bounds.nesting (runTokens bounds tokens)) :=
  holdsValues_faultLaw.nested_stays bounds tokens

theorem callWord_tame (word : Word) (hruns : word.behavior.Runs) (h : word.Sound) :
    Run.Tame bounds.nesting word.nesting (callWord bounds word) :=
  holdsValues_faultLaw.callWord bounds word (.inl ⟨hruns, h⟩)

theorem runTokens_tame (tokens : List Token) (h : Token.AllSound tokens) :
    Run.Tame bounds.nesting (Token.nestingAll tokens) (runTokens bounds tokens) :=
  holdsValues_faultLaw.runTokens bounds tokens (.inl h)

end Runs

theorem anywhere_faultLaw :
    FaultLaw (fun _ => True) fun fault => fault.OfPrimitive ∨ fault.OfToken where
  keeps :=
    { refl := fun _ h => h
      trans := fun _ _ _ => trivial
      stack := fun _ _ _ _ => id
      returns := fun _ _ _ _ => id
      print := fun _ _ => id
      exit := fun _ => id
      log := fun _ _ => id
      deeper := fun _ _ => trivial }
  setDepth _ := id
  ofPrimitive := .inl
  cells := .inr .inr

/-- Whatever the stacks hold, a token fails for a reason of its primitives or tokens, or for want of
room. -/
theorem runToken_fault {bounds : Bounds} {token : Token} {m m' : Machine} {fault : Fault}
    (h : runToken bounds token m = some (.error fault m')) :
    fault.OfPrimitive ∨ fault.OfToken ∨ fault = .tooDeep := by
  rcases anywhere_faultLaw.runToken bounds token (.inr .inr) trivial h with
    (hfault | hfault) | ⟨rfl, -⟩
  · exact .inl hfault
  · exact .inr (.inl hfault)
  · exact .inr (.inr rfl)

/-- A run nests too deep only if its tokens do, whatever they are and wherever it starts. -/
theorem execute_tooDeep {bounds : Bounds} {tokens : List Token} {m m' : Machine}
    (h : execute bounds tokens m = some (.error .tooDeep m')) :
    bounds.nesting.any (· < m.depth + (Token.nestingAll tokens + 1)) := by
  have hrun := anywhere_faultLaw.runTokens bounds tokens (.inr .inr)
  rcases anywhere_faultLaw.nested hrun trivial h with hfault | ⟨-, hdeep⟩
  · exact (hfault.elim id id).elim
  · exact hdeep

end ForthMachine
