import ForthMachine.Machine.Compiler
import ForthMachine.Proofs.Runs

/-!
# Loops with their test at the end

The word `UNTIL` makes a loop that goes on while the opposite of a flag is true. The opposite is
computed by a branch behind the body, one run deeper than the body, and nothing is left to run
between one test and the next pass. Where there is room for that branch, the loop is the one with
its test at the end.
-/

set_option autoImplicit false

namespace ForthMachine

open Machine

/-- Runs `body` and takes a flag, until the flag is not zero. -/
def postTestLoop (body : Run) : Nat → Run
  | 0, _ => none
  | passes + 1, m =>
    match body m with
    | some (.ok .leave m) => some (.ok .next m)
    | some (.ok .next m) =>
      match pop m with
      | .error fault m => some (.error fault m)
      | .ok done m => if done ≠ 0 then some (.ok .next m) else postTestLoop body passes m
    | stopped => stopped

/-- What stands behind the body in the condition of the loop. -/
def opposite : Token :=
  .branch [.number (flag false)] [.number (flag true)]

theorem flag_eq_zero_iff (b : Bool) : flag b = 0 ↔ b = false := by
  cases b <;> decide

/-- A run may begin at that depth. -/
def Bounds.Admits (bounds : Bounds) (depth : Nat) : Prop :=
  ¬ bounds.nesting.any (· ≤ depth)

theorem Bounds.Admits.mono {bounds : Bounds} {depth depth' : Nat} (h : bounds.Admits depth)
    (hle : depth' ≤ depth) : bounds.Admits depth' := by
  unfold Bounds.Admits at h ⊢
  cases hlimit : bounds.nesting with
  | none => simp
  | some limit =>
    simp only [hlimit, Option.any_some, decide_eq_true_eq] at h ⊢
    omega

section

variable {bounds : Bounds} {m : Machine}

theorem nested_of_admits (h : bounds.Admits m.depth) (run : Run) :
    nested bounds.nesting run m = (run { m with depth := m.depth + 1 }).map
      (Outcome.adjust fun m => { m with depth := m.depth - 1 }) :=
  if_neg h

theorem nested_nil (h : bounds.Admits m.depth) :
    nested bounds.nesting (runTokens bounds []) m = some (.ok .next m) := by
  rw [nested_of_admits h]
  rfl

theorem nested_number (h : bounds.Admits m.depth) (n : Int64) :
    nested bounds.nesting (runTokens bounds [.number n]) m =
      some (.ok .next { m with stack := .value n :: m.stack }) := by
  rw [nested_of_admits h]
  rfl

theorem runToken_opposite (h : bounds.Admits m.depth) :
    runToken bounds opposite m =
      match pop m with
      | .error fault m => some (.error fault m)
      | .ok done m => some (.ok .next { m with stack := .value (flag (done = 0)) :: m.stack }) := by
  have hdepth : Machine.depth (Outcome.machine (pop m)) = m.depth :=
    (undisturbed_stepLaw.pop m).depth
  simp only [opposite, runToken]
  generalize pop m = result at hdepth ⊢
  cases result with
  | error fault m₁ => rfl
  | ok done m₁ =>
    have hroom : bounds.Admits m₁.depth := h.mono (Nat.le_of_eq hdepth)
    by_cases hdone : done = 0
    · simp [hdone, nested_number hroom]
    · simp [hdone, nested_number hroom]

theorem pop_shallower (m : Machine) :
    pop { m with depth := m.depth - 1 } =
      Outcome.adjust (fun m => { m with depth := m.depth - 1 }) (pop m) := by
  obtain ⟨stack⟩ := m
  cases stack with
  | nil => rfl
  | cons cell rest => cases cell <;> rfl

/-- The condition of the loop: the body, and the opposite of the flag that it leaves. -/
theorem nested_condition (h : bounds.Admits (m.depth + 1)) (body : List Token) :
    nested bounds.nesting (runTokens bounds (body ++ [opposite])) m =
      match nested bounds.nesting (runTokens bounds body) m with
      | some (.ok .next m) =>
        match pop m with
        | .error fault m => some (.error fault m)
        | .ok done m => some (.ok .next { m with stack := .value (flag (done = 0)) :: m.stack })
      | stopped => stopped := by
  have hroom : bounds.Admits m.depth := h.mono (Nat.le_succ _)
  have hkept {o : Outcome Flow} := undisturbed_stepLaw.runTokens bounds body
    (m := { m with depth := m.depth + 1 }) (o := o)
  rw [nested_of_admits hroom, nested_of_admits hroom, runTokens_append]
  generalize runTokens bounds body { m with depth := m.depth + 1 } = o at hkept ⊢
  rcases o with - | ⟨flow, m₁⟩ | ⟨fault, m₁⟩
  · rfl
  · cases flow with
    | leave | quit => rfl
    | next =>
      have hdepth : m₁.depth = m.depth + 1 := (hkept rfl).depth
      have hinner : bounds.Admits m₁.depth := hdepth ▸ h
      simp only [runTokens_singleton, runToken_opposite hinner, Option.map_some, Outcome.adjust,
        pop_shallower]
      cases pop m₁ <;> rfl
  · rfl

theorem indefiniteLoop_opposite (h : bounds.Admits (m.depth + 1)) (body : List Token)
    (passes : Nat) :
    indefiniteLoop (nested bounds.nesting (runTokens bounds (body ++ [opposite])))
        (nested bounds.nesting (runTokens bounds [])) passes m =
      postTestLoop (nested bounds.nesting (runTokens bounds body)) passes m := by
  -- The body keeps the depth, so that there is room for the branch behind every pass.
  induction passes generalizing m with
  | zero => rfl
  | succ passes ih =>
    simp only [indefiniteLoop, postTestLoop, nested_condition h]
    have hkept {o : Outcome Flow} := undisturbed_stepLaw.nested bounds.nesting
      (undisturbed_stepLaw.runTokens bounds body) (m := m) (o := o)
    generalize nested bounds.nesting (runTokens bounds body) m = o at hkept ⊢
    rcases o with - | ⟨flow, m₁⟩ | ⟨fault, m₁⟩
    · rfl
    · cases flow with
      | leave | quit => rfl
      | next =>
        have hdepth : Machine.depth (Outcome.machine (pop m₁)) = m.depth :=
          (undisturbed_stepLaw.pop m₁).depth.trans (hkept rfl).depth
        dsimp only
        generalize pop m₁ = result at hdepth ⊢
        cases result with
        | error fault m₂ => rfl
        | ok done m₂ =>
          have hroom : bounds.Admits (m₂.depth + 1) := by
            rw [show m₂.depth = m.depth from hdepth]
            exact h
          have hnil := nested_nil (hroom.mono (Nat.le_succ _))
          have hflag : pop { m₂ with stack := .value (flag (done = 0)) :: m₂.stack } =
              .ok (flag (done = 0)) m₂ := rfl
          dsimp only
          simp only [hflag, flag_eq_zero_iff, decide_eq_false_iff_not]
          by_cases hdone : done = 0
          · rw [if_neg (not_not_intro hdone), if_neg (not_not_intro hdone), hnil]
            exact ih hroom
          · rw [if_pos hdone, if_pos hdone]
    · rfl

end

/-- The loop that `UNTIL` makes is the loop with its test at the end: the same flow or fault, and
the same machine behind it, and where one is given up so is the other. -/
theorem untilLoop_tests_at_end (passes : Nat) (body : List Token) {m : Machine}
    (hdepth : m.depth ≤ 254) :
    runToken { passes } (untilLoop body) m = postTestLoop (execute { passes } body) passes m := by
  have hroom : Bounds.Admits { passes } (m.depth + 1) := by
    unfold Bounds.Admits maxDepth
    simp only [Option.any_some, decide_eq_true_eq]
    omega
  exact indefiniteLoop_opposite hroom body passes

/-- Counts down, and asks whether the count is below zero. -/
def countdownBody : List Token :=
  [.call ⟨0, "1-", .definition [.number 1, .call ⟨1, "-", .primitive .sub⟩]⟩,
    .call ⟨2, "DUP", .primitive .dup⟩, .call ⟨3, "0<", .primitive .isNegative⟩]

/-- In the deepest place that has room for the branch. -/
theorem countdown_tests_at_end :
    runToken { passes := 2 } (untilLoop countdownBody) { stack := [.value 1], depth := 254 } =
        postTestLoop (execute { passes := 2 } countdownBody) 2
          { stack := [.value 1], depth := 254 } ∧
      (postTestLoop (execute { passes := 2 } countdownBody) 2
        { stack := [.value 1], depth := 254 }).map (·.machine.values) = some [-1] :=
  ⟨untilLoop_tests_at_end 2 countdownBody (Nat.le_refl 254), by decide +kernel⟩

end ForthMachine
