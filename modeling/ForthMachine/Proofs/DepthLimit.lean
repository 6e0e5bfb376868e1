import ForthMachine.Proofs.Calls
import ForthMachine.Proofs.Faults

/-!
# What the limit on nested runs does

The limit cuts runs off, and that is all. A run that is not cut off comes to the same end without
any limit, and with more room. A run whose tokens do not nest deeper than there is room for is not
cut off.
-/

set_option autoImplicit false

namespace ForthMachine

open Machine

theorem Follows.of_not_cutOff {o o' : Option (Outcome Flow)} (h : Follows Alike o o')
    (hcut : cutOff o = false) : Option.Rel (Outcome.Agree SameState) o o' := by
  cases h with
  | cut m o => cases hcut
  | stuck => exact .none
  | agree hagree => exact .some (hagree.mono Alike.state)

theorem alike_lockstep_unlimited (passes : Nat) (nesting : Option Nat) :
    Lockstep (fun _ => True) { passes, nesting } { passes, nesting := none } Alike :=
  { alike_lockstep { passes, nesting } with
    passes := rfl
    room := fun _ _ => nofun }

/-- A cut-off run has met the limit, which is less deep than its tokens nest. -/
theorem execute_not_cutOff {bounds : Bounds} {limit : Nat} (hlimit : bounds.nesting = some limit)
    {tokens : List Token} {m : Machine} (hroom : m.depth + (Token.nestingAll tokens + 1) ≤ limit) :
    cutOff (execute bounds tokens m) = false := by
  cases hrun : execute bounds tokens m with
  | none => rfl
  | some o =>
    cases o with
    | ok flow m' => rfl
    | error fault m' =>
      by_cases hfault : fault = .tooDeep
      · subst hfault
        have hdeep := execute_tooDeep hrun
        simp only [hlimit, Option.any_some, decide_eq_true_eq] at hdeep
        omega
      · cases fault <;> first | rfl | exact absurd rfl hfault

/-- A run that does not nest too deep ends as it would without a limit, and as it would from any
smaller depth. Tokens that nest within the room left never nest too deep. -/
theorem limit_only_cuts_off (passes : Nat) (tokens : List Token) (m : Machine) :
    (cutOff (execute { passes } tokens m) = false →
      Option.Rel (Outcome.Agree SameState) (execute { passes } tokens m)
          (execute { passes, nesting := none } tokens m) ∧
        ∀ depth ≤ m.depth, Option.Rel (Outcome.Agree SameState) (execute { passes } tokens m)
          (execute { passes } tokens { m with depth })) ∧
      (m.depth + (Token.nestingAll tokens + 1) ≤ maxDepth →
        cutOff (execute { passes } tokens m) = false) := by
  have hsame : SameState m m := ⟨rfl, rfl, rfl, rfl, rfl, rfl, rfl, rfl⟩
  refine ⟨fun hcut => ⟨?_, fun depth hdepth => ?_⟩, execute_not_cutOff rfl⟩
  · have hfollows := (alike_lockstep_unlimited passes (some maxDepth)).execute tokens m m
      ⟨hsame, Nat.le_refl _⟩
    exact hfollows.of_not_cutOff hcut
  · have hfollows := (alike_lockstep { passes }).execute tokens m { m with depth }
      ⟨{ hsame with }, hdepth⟩
    exact hfollows.of_not_cutOff hcut

/-- A branch in the last run but one that there is room for. One run deeper it is cut off. -/
theorem branch_at_limit_not_cut_off :
    cutOff (execute { passes := 0 } [.branch [.number 7] []]
        { stack := [.value 1], depth := 254 }) = false ∧
      Option.Rel (Outcome.Agree SameState)
        (execute { passes := 0 } [.branch [.number 7] []] { stack := [.value 1], depth := 254 })
        (execute { passes := 0, nesting := none } [.branch [.number 7] []]
          { stack := [.value 1], depth := 254 }) ∧
      cutOff (execute { passes := 0 } [.branch [.number 7] []]
        { stack := [.value 1], depth := 255 }) = true := by
  have hlimit := limit_only_cuts_off 0 [.branch [.number 7] []]
    { stack := [.value 1], depth := 254 }
  have hcut := hlimit.2 (by decide)
  exact ⟨hcut, (hlimit.1 hcut).1, by decide⟩

end ForthMachine
