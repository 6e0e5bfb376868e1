import Mathlib.Data.Rat.Floor
import Mathlib.Tactic.Linarith
import ForthMachine.Proofs.Atomicity

/-!
# Exact division

Words are divided toward zero, and a remainder on the wrong side of zero moves both results by one
step. That step stays within the numbers there are, and with it the results are the floor of the
exact quotient and what is left of the dividend. The three primitives that divide agree.
-/

set_option autoImplicit false

namespace ForthMachine

open Machine

/-- The dividend is made up of quotient and remainder, and the remainder is on the side of the
divisor and closer to zero. -/
structure IsFloored (a b q r : ℤ) : Prop where
  exact : a = q * b + r
  sign : r = 0 ∨ r.sign = b.sign
  small : |r| < |b|

section Integers

variable {a b q r : ℤ}

/-- Both signs of the divisor come down to the same bounds on the remainder. -/
theorem IsFloored.bounds (h : IsFloored a b q r) :
    (0 < b ∧ 0 ≤ r ∧ r < b) ∨ (b < 0 ∧ b < r ∧ r ≤ 0) := by
  have hsmall := h.small
  rcases lt_trichotomy b 0 with hb | rfl | hb
  · right
    have hr : r ≤ 0 := by
      rcases h.sign with rfl | hsign
      · exact le_rfl
      · rw [Int.sign_eq_neg_one_of_neg hb, Int.sign_eq_neg_one_iff_neg] at hsign
        exact hsign.le
    rw [abs_of_neg hb, abs_of_nonpos hr] at hsmall
    exact ⟨hb, by omega, hr⟩
  · rw [abs_zero] at hsmall
    exact absurd hsmall (not_lt.mpr (abs_nonneg r))
  · left
    have hr : 0 ≤ r := by
      rcases h.sign with rfl | hsign
      · exact le_rfl
      · rw [Int.sign_eq_one_of_pos hb, Int.sign_eq_one_iff_pos] at hsign
        exact hsign.le
    rw [abs_of_pos hb, abs_of_nonneg hr] at hsmall
    exact ⟨hb, hr, hsmall⟩

theorem IsFloored.floor_eq (h : IsFloored a b q r) : ⌊(a : ℚ) / b⌋ = q := by
  have hexact : (a : ℚ) = q * b + r := by exact_mod_cast h.exact
  rw [Int.floor_eq_iff]
  rcases h.bounds with ⟨hb, hr, hlt⟩ | ⟨hb, hlt, hr⟩
  · have hb' : (0 : ℚ) < b := by exact_mod_cast hb
    have hr' : (0 : ℚ) ≤ r := by exact_mod_cast hr
    have hlt' : (r : ℚ) < b := by exact_mod_cast hlt
    rw [le_div_iff₀ hb', div_lt_iff₀ hb']
    constructor <;> linarith
  · have hb' : (b : ℚ) < 0 := by exact_mod_cast hb
    have hr' : (r : ℚ) ≤ 0 := by exact_mod_cast hr
    have hlt' : (b : ℚ) < r := by exact_mod_cast hlt
    rw [le_div_iff_of_neg hb', div_lt_iff_of_neg hb']
    constructor <;> linarith

/-- The remainder of a division toward zero is on the wrong side of zero. -/
def IsAskew (r b : ℤ) : Prop :=
  r ≠ 0 ∧ ¬ (r < 0 ↔ b < 0)

theorem natAbs_tmod_lt (hb : b ≠ 0) : (a.tmod b).natAbs < b.natAbs := by
  rw [Int.natAbs_tmod]
  exact Nat.mod_lt _ (Int.natAbs_pos.mpr hb)

theorem abs_lt_abs (h : r.natAbs < b.natAbs) : |r| < |b| := by
  rw [Int.abs_eq_natAbs, Int.abs_eq_natAbs]
  exact_mod_cast h

theorem isFloored_of_not_isAskew (hb : b ≠ 0) (h : ¬ IsAskew (a.tmod b) b) :
    IsFloored a b (a.tdiv b) (a.tmod b) := by
  refine ⟨?_, ?_, abs_lt_abs (natAbs_tmod_lt hb)⟩
  · have hparts := Int.mul_tdiv_add_tmod a b
    linarith
  · by_cases hr : a.tmod b = 0
    · exact .inl hr
    · right
      have hsides : a.tmod b < 0 ↔ b < 0 := by
        by_contra hsides
        exact h ⟨hr, hsides⟩
      rcases lt_or_gt_of_ne hb with hneg | hpos
      · rw [Int.sign_eq_neg_one_of_neg hneg, Int.sign_eq_neg_one_of_neg (hsides.mpr hneg)]
      · rw [Int.sign_eq_one_of_pos hpos, Int.sign_eq_one_of_pos (by omega)]

theorem isFloored_of_isAskew (hb : b ≠ 0) (h : IsAskew (a.tmod b) b) :
    IsFloored a b (a.tdiv b - 1) (a.tmod b + b) := by
  obtain ⟨hr, hsides⟩ := h
  have hsmall := natAbs_tmod_lt (a := a) hb
  refine ⟨?_, .inr ?_, abs_lt_abs (by omega)⟩
  · have hparts := Int.mul_tdiv_add_tmod a b
    linarith
  · rcases lt_or_gt_of_ne hb with hneg | hpos
    · rw [Int.sign_eq_neg_one_of_neg hneg, Int.sign_eq_neg_one_of_neg (by omega)]
    · rw [Int.sign_eq_one_of_pos hpos, Int.sign_eq_one_of_pos (by omega)]

/-- A divisor that leaves a remainder is not 1 or -1, so the quotient is half as large at most. -/
theorem two_mul_natAbs_tdiv_le (hb : b ≠ 0) (hr : a.tmod b ≠ 0) :
    2 * (a.tdiv b).natAbs ≤ a.natAbs := by
  have hdivisor : 2 ≤ b.natAbs := by
    have hsmall := natAbs_tmod_lt (a := a) hb
    omega
  rw [Int.natAbs_tdiv]
  calc
    2 * a.natAbs.div b.natAbs ≤ b.natAbs * a.natAbs.div b.natAbs := Nat.mul_le_mul_right _ hdivisor
    _ ≤ a.natAbs := Nat.mul_div_le _ _

end Integers

section Words

variable {a b : Int64}

theorem toInt_ne_zero (hb : b ≠ 0) : b.toInt ≠ 0 := fun h =>
  hb (Int64.toInt_inj.mp h)

theorem toInt_div_of_ne (h : ¬ (a = Int64.minValue ∧ b = -1)) :
    (a / b).toInt = a.toInt.tdiv b.toInt := by
  by_cases ha : a = Int64.minValue
  · exact Int64.toInt_div_of_ne_right a b fun hb => h ⟨ha, hb⟩
  · exact Int64.toInt_div_of_ne_left a b ha

theorem isAskew_iff : (a % b ≠ 0 ∧ decide (a % b < 0) ≠ decide (b < 0)) ↔
    IsAskew (a.toInt.tmod b.toInt) b.toInt := by
  rw [IsAskew, ← Int64.toInt_mod, ne_eq, ne_eq, ne_eq, decide_eq_decide, Int64.lt_iff_toInt_lt,
    Int64.lt_iff_toInt_lt, ← Int64.toInt_inj, Int64.toInt_zero]

theorem not_least_of_isAskew (h : IsAskew (a.toInt.tmod b.toInt) b.toInt) :
    ¬ (a = Int64.minValue ∧ b = -1) := by
  rintro ⟨rfl, rfl⟩
  exact h.1 (by decide)

theorem toInt_div_sub_one (hb : b ≠ 0) (h : IsAskew (a.toInt.tmod b.toInt) b.toInt) :
    (a / b - 1).toInt = (a / b).toInt - 1 := by
  have hquotient := toInt_div_of_ne (not_least_of_isAskew h)
  have hhalf := two_mul_natAbs_tdiv_le (toInt_ne_zero hb) h.1
  have hleast := a.le_toInt
  have hgreatest := a.toInt_lt
  rw [Int64.toInt_sub, hquotient, Int64.toInt_one]
  exact Int.bmod_eq_of_le (by omega) (by omega)

theorem toInt_mod_add (hb : b ≠ 0) (h : IsAskew (a.toInt.tmod b.toInt) b.toInt) :
    (a % b + b).toInt = (a % b).toInt + b.toInt := by
  have hsmall := natAbs_tmod_lt (a := a.toInt) (toInt_ne_zero hb)
  have hleast := b.le_toInt
  have hgreatest := b.toInt_lt
  obtain ⟨hr, hsides⟩ := h
  rw [Int64.toInt_add, Int64.toInt_mod]
  exact Int.bmod_eq_of_le (by omega) (by omega)

theorem isFloored_floorDivMod (hb : b ≠ 0) (h : ¬ (a = Int64.minValue ∧ b = -1)) :
    IsFloored a.toInt b.toInt (floorDivMod a b).1.toInt (floorDivMod a b).2.toInt := by
  have hquotient := toInt_div_of_ne h
  have hremainder := Int64.toInt_mod a b
  unfold floorDivMod
  by_cases haskew : a % b ≠ 0 ∧ decide (a % b < 0) ≠ decide (b < 0)
  · have hmended := isAskew_iff.mp haskew
    rw [if_pos haskew]
    dsimp only
    rw [toInt_div_sub_one hb hmended, toInt_mod_add hb hmended, hquotient, hremainder]
    exact isFloored_of_isAskew (toInt_ne_zero hb) hmended
  · rw [if_neg haskew]
    dsimp only
    rw [hquotient, hremainder]
    exact isFloored_of_not_isAskew (toInt_ne_zero hb) (mt isAskew_iff.mpr haskew)

end Words

theorem Cell.eq_value_of_number {cell : Cell} {n : Int64} (h : cell.number = .ok n) :
    cell = .value n := by
  cases cell with
  | value => exact congrArg Cell.value (Except.ok.inj h)
  | pending token | opened opener => cases h

/-- What the three primitives make of a machine: results of the same operands, or no change. The
one that has both results looks at its operands in another order, so it may complain of another cell
that is no value. -/
inductive DivideAlike (m : Machine) : Prop where
  | divided {a b q r : Int64} {rest : List Cell}
      (operands : m.stack = .value b :: .value a :: rest) (results : divide a b = .ok (q, r))
      (div : Primitive.div.run m = .ok .next { m with stack := .value q :: rest })
      (mod : Primitive.mod.run m = .ok .next { m with stack := .value r :: rest })
      (divMod : Primitive.divMod.run m =
        .ok .next { m with stack := .value q :: .value r :: rest })
  | failed {fault fault' : Fault} (div : Primitive.div.run m = .error fault m)
      (mod : Primitive.mod.run m = .error fault m)
      (divMod : Primitive.divMod.run m = .error fault' m) (same : AreValues m.stack → fault' = fault)

section Operands

variable {m : Machine}

theorem topValues_two (a b : Int64) (rest : List Cell) :
    topValues 2 (.value b :: .value a :: rest) = .ok #v[a, b] := by
  simp [topValues]

theorem transform_divided {a b : Int64} {rest : List Cell} {qr : Int64 × Int64}
    (h : m.stack = .value b :: .value a :: rest) (hdivide : divide a b = .ok qr)
    (f : Int64 × Int64 → List Int64) :
    transform 2 (fun v => (divide (v 0) (v 1)).map f) m =
      .ok () { m with stack := stacked (f qr) rest } := by
  have hmap : (divide (#v[a, b].get 0) (#v[a, b].get 1)).map f = .ok (f qr) :=
    congrArg (Except.map f) hdivide
  simp only [transform, h, topValues_two, hmap, List.drop_succ_cons, List.drop_zero]

theorem transform_divided_of_fault {a b : Int64} {rest : List Cell} {fault : Fault}
    (h : m.stack = .value b :: .value a :: rest) (hdivide : divide a b = .error fault)
    (f : Int64 × Int64 → List Int64) :
    transform 2 (fun v => (divide (v 0) (v 1)).map f) m = .error fault m := by
  have hmap : (divide (#v[a, b].get 0) (#v[a, b].get 1)).map f = .error fault :=
    congrArg (Except.map f) hdivide
  simp only [transform, h, topValues_two, hmap]

theorem transform_divided_of_error {fault : Fault} (h : topValues 2 m.stack = .error fault)
    (f : Int64 × Int64 → List Int64) :
    transform 2 (fun v => (divide (v 0) (v 1)).map f) m = .error fault m := by
  unfold transform
  rw [h]

/-- All three fail, if the operands are not there or are no values. -/
theorem DivideAlike.of_error {fault fault' : Fault} (h : topValues 2 m.stack = .error fault)
    (h' : Primitive.divMod.effect m = .error fault' m)
    (hsame : AreValues m.stack → fault' = fault) : DivideAlike m :=
  .failed (Action.bind_of_error (transform_divided_of_error h _))
    (Action.bind_of_error (transform_divided_of_error h _)) (Action.bind_of_error h') hsame

theorem not_areValues {cells : List Cell} {cell : Cell} {fault : Fault} (hcell : cell ∈ cells)
    (h : cell.number = .error fault) : ¬ AreValues cells := by
  intro hvalues
  obtain ⟨n, rfl⟩ := hvalues cell hcell
  cases h

theorem divideAlike (m : Machine) : DivideAlike m := by
  rcases hstack : m.stack with - | ⟨top, - | ⟨second, rest⟩⟩
  · have hshort : m.stack.length < 2 := by simp [hstack]
    exact .of_error (topValues_of_length_lt hshort) (divMod_of_short hshort) fun _ => rfl
  · have hshort : m.stack.length < 2 := by simp [hstack]
    exact .of_error (topValues_of_length_lt hshort) (divMod_of_short hshort) fun _ => rfl
  · have hneed : need 2 m = .ok () m := if_neg (by rw [hstack]; simp)
    have hpeek : peek 0 m = leaving m top.number := by simp [peek, hstack]
    have hpeek' : peek 1 m = leaving m second.number := by simp [peek, hstack]
    cases htop : top.number with
    | error fault =>
      rw [htop] at hpeek
      have hnot : ¬ AreValues m.stack := not_areValues (by simp [hstack]) htop
      have heffect : Primitive.divMod.effect m = .error fault m := by
        rw [Primitive.effect, Action.bind_of_ok hneed, Action.bind_of_error hpeek]
      obtain ⟨fault', htake⟩ : ∃ fault', topValues 2 m.stack = .error fault' := by
        cases hsecond : second.number <;> simp [topValues, hstack, hsecond, htop]
      exact .of_error htake heffect fun hvalues => absurd hvalues hnot
    | ok b =>
      rw [htop] at hpeek
      cases hsecond : second.number with
      | error fault =>
        rw [hsecond] at hpeek'
        have heffect : Primitive.divMod.effect m = .error fault m := by
          rw [Primitive.effect, Action.bind_of_ok hneed, Action.bind_of_ok hpeek,
            Action.bind_of_error hpeek']
        exact .of_error (by simp [topValues, hstack, hsecond]) heffect fun _ => rfl
      | ok a =>
        obtain rfl := Cell.eq_value_of_number htop
        obtain rfl := Cell.eq_value_of_number hsecond
        have hboth := divMod_of_values hstack
        cases hdivide : divide a b with
        | error fault =>
          rw [hdivide] at hboth
          have hdivided := transform_divided_of_fault hstack hdivide
          exact .failed (Action.bind_of_error (hdivided _)) (Action.bind_of_error (hdivided _))
            (Action.bind_of_error hboth) fun _ => rfl
        | ok qr =>
          rw [hdivide] at hboth
          have hdivided := transform_divided hstack hdivide
          exact .divided hstack hdivide (Action.bind_of_ok (hdivided _))
            (Action.bind_of_ok (hdivided _)) (Action.bind_of_ok hboth)

end Operands

/-- The floor of the quotient and what is left of the dividend, for all words but one pair, whose
quotient is no word. The correction of a truncated result never wraps around, and the three
primitives have their results from the same division. -/
theorem floored_division_is_exact :
    (∀ a b : Int64, b ≠ 0 → ∃ q r, divide a b = .ok (q, r) ∧
      (a = Int64.minValue ∧ b = -1 → q = Int64.minValue ∧ r = 0) ∧
      (¬ (a = Int64.minValue ∧ b = -1) →
        IsFloored a.toInt b.toInt q.toInt r.toInt ∧ q.toInt = ⌊(a.toInt : ℚ) / b.toInt⌋)) ∧
    (∀ a b : Int64, b ≠ 0 → a % b ≠ 0 ∧ decide (a % b < 0) ≠ decide (b < 0) →
      (a / b - 1).toInt = (a / b).toInt - 1 ∧ (a % b + b).toInt = (a % b).toInt + b.toInt) ∧
    ∀ m : Machine, DivideAlike m := by
  refine ⟨?_, ?_, divideAlike⟩
  · intro a b hb
    refine ⟨(floorDivMod a b).1, (floorDivMod a b).2, if_neg hb, ?_, ?_⟩
    · rintro ⟨rfl, rfl⟩
      decide
    · intro h
      have hfloored := isFloored_floorDivMod hb h
      exact ⟨hfloored, hfloored.floor_eq.symm⟩
  · intro a b hb hguard
    have haskew := isAskew_iff.mp hguard
    exact ⟨toInt_div_sub_one hb haskew, toInt_mod_add hb haskew⟩

/-- A quotient that is corrected to the least that a correction can lead to. -/
theorem halved_least_is_exact :
    ∃ q r, divide (Int64.minValue + 1) 2 = .ok (q, r) ∧
      IsFloored (Int64.minValue + 1).toInt 2 q.toInt r.toInt ∧
      DivideAlike { stack := [.value 2, .value (Int64.minValue + 1), .value 5] } := by
  obtain ⟨hexact, -, halike⟩ := floored_division_is_exact
  obtain ⟨q, r, hdivide, -, hfloored⟩ := hexact (Int64.minValue + 1) 2 (by decide)
  exact ⟨q, r, hdivide, (hfloored (by decide)).1, halike _⟩

end ForthMachine
