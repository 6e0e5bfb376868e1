import ForthMachine.Machine.Executor
import ForthMachine.Proofs.Primitives

/-!
# What the steps of a run keep

A relation between machines that holds across every single change a run can make, and across a
nested run if it holds inside, holds across every run, however it ends.
-/

set_option autoImplicit false

namespace ForthMachine

open Machine

/-- The changes that primitives and loops are made of. A stack loses cells from its top and gets
values instead. -/
structure StepLaw (R : Machine → Machine → Prop) : Prop where
  refl : ∀ m, R m m
  trans : ∀ {m₁ m₂ m₃ : Machine}, R m₁ m₂ → R m₂ m₃ → R m₁ m₃
  stack : ∀ (m : Machine) (values : List Int64) {cells : List Cell}, cells <:+ m.stack →
    R m { m with stack := stacked values cells }
  returns : ∀ (m : Machine) (values : List Int64) {cells : List Cell}, cells <:+ m.returns →
    R m { m with returns := stacked values cells }
  print : ∀ (m : Machine) (text : String), R m { m with output := m.output ++ text }
  exit : ∀ m : Machine, R m { m with exiting := true }
  log : ∀ (m : Machine) (log : Log), R m { m with log }
  deeper : ∀ {m m' : Machine}, R { m with depth := m.depth + 1 } m' →
    R m { m' with depth := m'.depth - 1 }

def Action.Obeys {α : Type} (R : Machine → Machine → Prop) (action : Action α) : Prop :=
  ∀ m, R m (Outcome.machine (action m))

/-- The relation holds across the run, unless the run is given up. -/
def Run.Obeys (R : Machine → Machine → Prop) (run : Run) : Prop :=
  ∀ {m : Machine} {o : Outcome Flow}, run m = some o → R m o.machine

@[simp] theorem Outcome.machine_leaving {α : Type} (m : Machine) (result : Except Fault α) :
    Outcome.machine (leaving m result) = m := by
  cases result <;> rfl

theorem Action.Obeys.bind {α β : Type} (R : Machine → Machine → Prop)
    (trans : ∀ m₁ m₂ m₃ : Machine, R m₁ m₂ → R m₂ m₃ → R m₁ m₃) {first : Action α}
    {next : α → Action β} (hfirst : Action.Obeys R first)
    (hnext : ∀ a, Action.Obeys R (next a)) : Action.Obeys R (first >>= next) := by
  intro m
  have h := hfirst m
  cases hrun : first m with
  | ok a m' =>
    rw [Action.bind_of_ok hrun]
    rw [hrun] at h
    exact trans _ _ _ h (hnext a m')
  | error fault m' =>
    rw [Action.bind_of_error hrun]
    rw [hrun] at h
    exact h

namespace StepLaw

variable {R : Machine → Machine → Prop} (law : StepLaw R)
include law

theorem pure {α : Type} (a : α) : Action.Obeys R (Pure.pure a) :=
  fun m => law.refl m

theorem fail {α : Type} (fault : Fault) : Action.Obeys R (Machine.fail fault : Action α) :=
  fun m => law.refl m

theorem bind {α β : Type} {first : Action α} {next : α → Action β}
    (hfirst : Action.Obeys R first) (hnext : ∀ a, Action.Obeys R (next a)) :
    Action.Obeys R (first >>= next) :=
  Action.Obeys.bind R @law.trans hfirst hnext

theorem push (n : Int64) : Action.Obeys R (Machine.push n) :=
  fun m => law.stack m [n] (List.suffix_refl _)

theorem pop : Action.Obeys R Machine.pop := by
  intro m
  unfold Machine.pop
  split
  · exact law.refl m
  · rename_i cell rest hstack
    rw [Outcome.machine_leaving]
    exact law.stack m [] (hstack ▸ List.suffix_cons cell rest)

theorem peek (n : Nat) : Action.Obeys R (Machine.peek n) := by
  intro m
  unfold Machine.peek
  split
  · exact law.refl m
  · rw [Outcome.machine_leaving]
    exact law.refl m

theorem need (n : Nat) : Action.Obeys R (Machine.need n) := by
  intro m
  unfold Machine.need
  split <;> exact law.refl m

theorem popValues (n : Nat) : Action.Obeys R (Machine.popValues n) := by
  intro m
  unfold Machine.popValues
  split
  · exact law.refl m
  · exact law.stack m [] (List.drop_suffix n m.stack)

theorem transform (n : Nat) (f : (Fin n → Int64) → Except Fault (List Int64)) :
    Action.Obeys R (Machine.transform n f) := by
  intro m
  unfold Machine.transform
  split
  · exact law.refl m
  · split
    · exact law.refl m
    · exact law.stack m _ (List.drop_suffix n m.stack)

theorem popAll : Action.Obeys R Machine.popAll := by
  intro m
  have hsuffix := List.dropWhile_suffix (l := m.stack) (·.number?.isSome)
  unfold Machine.popAll
  split
  · exact law.stack m [] (List.nil_suffix)
  · rename_i cell rest hdrop
    rw [hdrop] at hsuffix
    exact law.stack m [] ((List.suffix_cons cell rest).trans hsuffix)

theorem pushReturn (n : Int64) : Action.Obeys R (Machine.pushReturn n) :=
  fun m => law.returns m [n] (List.suffix_refl _)

theorem popReturn : Action.Obeys R Machine.popReturn := by
  intro m
  unfold Machine.popReturn
  split
  · exact law.refl m
  · rename_i cell rest hreturns
    rw [Outcome.machine_leaving]
    exact law.returns m [] (hreturns ▸ List.suffix_cons cell rest)

theorem peekReturn (n : Nat) : Action.Obeys R (Machine.peekReturn n) := by
  intro m
  unfold Machine.peekReturn
  split
  · exact law.refl m
  · rw [Outcome.machine_leaving]
    exact law.refl m

theorem tell (level : Level) (context text : String) (detail : Option Detail) :
    Action.Obeys R (Machine.tell level context text detail) :=
  fun m => law.log m _

theorem built {α : Type} {may : Access → Prop} {action : Action α} (h : action.Built may) :
    Action.Obeys R action := by
  induction h with
  | pure a => exact law.pure a
  | @fail _ fault _ => exact law.fail fault
  | bind _ _ first next => exact law.bind first next
  | push n => exact law.push n
  | pop => exact law.pop
  | peek n => exact law.peek n
  | need n => exact law.need n
  | @transform n f _ => exact law.transform n f
  | popAll _ => exact law.popAll
  | pushReturn _ n => exact law.pushReturn n
  | popReturn _ => exact law.popReturn
  | peekReturn _ n => exact law.peekReturn n
  | print text => exact fun m => law.print m text
  | tell level context text detail => exact law.tell level context text detail
  | exit => exact law.exit
  | setLevel level => exact fun m => law.log m _
  | withStack _ _ same => exact fun m => same m.stack m
  | withNames _ _ same => exact fun m => same m.dictionary.names m

theorem primitive (p : Primitive) : Action.Obeys R p.run :=
  law.built p.run_built

theorem size (step : Step) : Action.Obeys R step.size := by
  cases step with
  | fixed n => exact law.pure n
  | fromStack => exact law.pop

theorem nested (limit : Option Nat) {run : Run} (hrun : Run.Obeys R run) :
    Run.Obeys R (ForthMachine.nested limit run) := by
  intro m o h
  unfold ForthMachine.nested at h
  split at h
  · cases h
    exact law.refl m
  · obtain ⟨inner, hinner, rfl⟩ := Option.map_eq_some_iff.mp h
    have hin := law.deeper (hrun hinner)
    cases inner <;> exact hin

theorem withIndex (index : Int64) {run : Run} (hrun : Run.Obeys R run) :
    Run.Obeys R (ForthMachine.withIndex index run) := by
  intro m o h
  unfold ForthMachine.withIndex at h
  have hpush := law.returns m [index] (List.suffix_refl m.returns)
  split at h
  · rename_i flow m' hbody
    have hbefore := law.trans hpush (hrun hbody)
    have hpop := law.trans hbefore (law.popReturn m')
    split at h <;> rename_i hresult <;> cases h <;> rw [hresult] at hpop <;> exact hpop
  · rename_i hbody
    exact law.trans hpush (hrun h)

theorem countedLoop {pass : Run} (hpass : Run.Obeys R pass) (step : Step) (limit : Int64)
    (passes : Nat) (index : Int64) :
    Run.Obeys R (ForthMachine.countedLoop pass step limit passes index) := by
  induction passes generalizing index with
  | zero =>
    intro m o h
    simp only [ForthMachine.countedLoop] at h
    split at h
    · cases h
    · cases h
      exact law.refl m
  | succ passes ih =>
    intro m o h
    simp only [ForthMachine.countedLoop] at h
    split at h
    · split at h
      · rename_i m' hbody
        have hleft := law.withIndex index hpass hbody
        cases h
        exact hleft
      · rename_i m' hbody
        have hstep := law.trans (law.withIndex index hpass hbody) (law.size step m')
        split at h
        · rename_i hsize
          rw [hsize] at hstep
          cases h
          exact hstep
        · rename_i hsize
          rw [hsize] at hstep
          split at h
          · cases h
            exact hstep
          · exact law.trans hstep (ih _ h)
      · exact law.withIndex index hpass h
    · cases h
      exact law.refl m

theorem indefiniteLoop {condition body : Run} (hcondition : Run.Obeys R condition)
    (hbody : Run.Obeys R body) (passes : Nat) :
    Run.Obeys R (ForthMachine.indefiniteLoop condition body passes) := by
  induction passes with
  | zero =>
    intro m o h
    cases h
  | succ passes ih =>
    intro m o h
    simp only [ForthMachine.indefiniteLoop] at h
    split at h
    · rename_i m' hfirst
      have hleft := hcondition hfirst
      cases h
      exact hleft
    · rename_i m' hfirst
      have hflag := law.trans (hcondition hfirst) (law.pop m')
      split at h
      · rename_i hpop
        rw [hpop] at hflag
        cases h
        exact hflag
      · rename_i hpop
        rw [hpop] at hflag
        split at h
        · cases h
          exact hflag
        · split at h
          · rename_i hsecond
            have hleft := law.trans hflag (hbody hsecond)
            cases h
            exact hleft
          · rename_i hsecond
            exact law.trans hflag (law.trans (hbody hsecond) (ih h))
          · exact law.trans hflag (hbody h)
    · exact hcondition h

mutual

theorem runToken (bounds : Bounds) :
    ∀ token : Token, Run.Obeys R (ForthMachine.runToken bounds token)
  | .number n, m, o, h => by
    cases h
    exact law.stack m [n] (List.suffix_refl _)
  | .call word, m, o, h => callWord bounds word h
  | .unresolved name, m, o, h => by
    cases h
    exact law.refl m
  | .counted body step, m, o, h => by
    have hlimits := law.popValues 2 m
    simp only [ForthMachine.runToken] at h
    split at h
    · rename_i hpop
      rw [hpop] at hlimits
      cases h
      exact hlimits
    · rename_i hpop
      rw [hpop] at hlimits
      exact law.trans hlimits
        (law.countedLoop (law.nested _ (runTokens bounds body)) step _ _ _ h)
  | .branch ifTrue ifFalse, m, o, h => by
    have hflag := law.pop m
    simp only [ForthMachine.runToken] at h
    split at h
    · rename_i hpop
      rw [hpop] at hflag
      cases h
      exact hflag
    · rename_i hpop
      rw [hpop] at hflag
      split at h
      · exact law.trans hflag (law.nested _ (runTokens bounds ifTrue) h)
      · exact law.trans hflag (law.nested _ (runTokens bounds ifFalse) h)
  | .indefinite condition body, m, o, h =>
    law.indefiniteLoop (law.nested _ (runTokens bounds condition))
      (law.nested _ (runTokens bounds body)) _ h
  | .leave, m, o, h => by
    cases h
    exact law.refl m
termination_by structural token => token

theorem callWord (bounds : Bounds) : ∀ word : Word, Run.Obeys R (ForthMachine.callWord bounds word)
  | ⟨_, name, behavior⟩, m, _, h =>
    law.trans (law.log m _) (runBehavior bounds name behavior h)
termination_by structural word => word

theorem runBehavior (bounds : Bounds) (name : String) :
    ∀ behavior : Behavior, Run.Obeys R (ForthMachine.runBehavior bounds name behavior)
  | .primitive p, m, o, h => by
    cases h
    exact law.primitive p m
  | .definition body, _, _, h => law.nested _ (runTokens bounds body) h
  | .structural _, m, o, h => by
    cases h
    exact law.refl m
  | .readAhead _, m, o, h => by
    cases h
    exact law.refl m
  | .comment _, m, o, h => by
    cases h
    exact law.refl m
termination_by structural behavior => behavior

theorem runTokens (bounds : Bounds) :
    ∀ tokens : List Token, Run.Obeys R (ForthMachine.runTokens bounds tokens)
  | [], m, o, h => by
    cases h
    exact law.refl m
  | token :: tokens, m, o, h => by
    simp only [ForthMachine.runTokens] at h
    split at h
    · rename_i hfirst
      exact law.trans (runToken bounds token hfirst) (runTokens bounds tokens h)
    · exact runToken bounds token h
termination_by structural tokens => tokens

end

end StepLaw

theorem runTokens_append (bounds : Bounds) (first rest : List Token) (m : Machine) :
    runTokens bounds (first ++ rest) m =
      match runTokens bounds first m with
      | some (.ok .next m) => runTokens bounds rest m
      | stopped => stopped := by
  induction first generalizing m with
  | nil => rfl
  | cons token first ih =>
    simp only [List.cons_append, runTokens]
    rcases runToken bounds token m with - | ⟨flow, m₁⟩ | ⟨fault, m₁⟩
    · rfl
    · cases flow with
      | next => exact ih m₁
      | leave | quit => rfl
    · rfl

theorem runTokens_singleton (bounds : Bounds) (token : Token) (m : Machine) :
    runTokens bounds [token] m = runToken bounds token m := by
  simp only [runTokens]
  split
  · rename_i hnext
    exact hnext.symm
  · rfl

/-- The unread text, the mode, the open definition and the words are the same, and as many runs
are under way. -/
structure Undisturbed (m m' : Machine) : Prop where
  input : m'.input = m.input
  mode : m'.mode = m.mode
  compiling : m'.compiling = m.compiling
  dictionary : m'.dictionary = m.dictionary
  depth : m'.depth = m.depth

theorem Undisturbed.trans {m₁ m₂ m₃ : Machine} (h : Undisturbed m₁ m₂) (h' : Undisturbed m₂ m₃) :
    Undisturbed m₁ m₃ :=
  ⟨h'.input.trans h.input, h'.mode.trans h.mode, h'.compiling.trans h.compiling,
    h'.dictionary.trans h.dictionary, h'.depth.trans h.depth⟩

theorem undisturbed_stepLaw : StepLaw Undisturbed where
  refl _ := ⟨rfl, rfl, rfl, rfl, rfl⟩
  trans := Undisturbed.trans
  stack _ _ _ _ := ⟨rfl, rfl, rfl, rfl, rfl⟩
  returns _ _ _ _ := ⟨rfl, rfl, rfl, rfl, rfl⟩
  print _ _ := ⟨rfl, rfl, rfl, rfl, rfl⟩
  exit _ := ⟨rfl, rfl, rfl, rfl, rfl⟩
  log _ _ := ⟨rfl, rfl, rfl, rfl, rfl⟩
  deeper {m m'} h := by
    refine ⟨h.input, h.mode, h.compiling, h.dictionary, ?_⟩
    have hdepth : m'.depth = m.depth + 1 := h.depth
    simp [hdepth]

def AreValues (cells : List Cell) : Prop := ∀ cell ∈ cells, ∃ n, cell = .value n

theorem AreValues.nil : AreValues [] := by
  intro cell hcell
  cases hcell

theorem AreValues.of_suffix {cells rest : List Cell} (h : AreValues cells)
    (hrest : rest <:+ cells) : AreValues rest :=
  fun cell hcell => h cell (hrest.subset hcell)

theorem AreValues.stacked {cells : List Cell} (h : AreValues cells) (values : List Int64) :
    AreValues (stacked values cells) := by
  induction values generalizing cells with
  | nil => exact h
  | cons n values ih =>
    apply ih
    intro cell hcell
    rcases List.mem_cons.mp hcell with rfl | hcell
    · exact ⟨n, rfl⟩
    · exact h cell hcell

/-- Neither stack holds a token or a mark. -/
structure HoldsValues (m : Machine) : Prop where
  stack : AreValues m.stack
  returns : AreValues m.returns

theorem holdsValues_stepLaw : StepLaw fun m m' => HoldsValues m → HoldsValues m' where
  refl _ h := h
  trans h h' hm := h' (h hm)
  stack _ values _ hcells h := ⟨(h.stack.of_suffix hcells).stacked values, h.returns⟩
  returns _ values _ hcells h := ⟨h.stack, (h.returns.of_suffix hcells).stacked values⟩
  print _ _ h := ⟨h.stack, h.returns⟩
  exit _ h := ⟨h.stack, h.returns⟩
  log _ _ h := ⟨h.stack, h.returns⟩
  deeper h hm := ⟨(h ⟨hm.stack, hm.returns⟩).stack, (h ⟨hm.stack, hm.returns⟩).returns⟩

end ForthMachine
