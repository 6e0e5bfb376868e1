import Mathlib.Algebra.BigOperators.Group.Finset.Basic
import ForthMachine.Proofs.Unrolling

/-!
# The indices of a counted loop

A counted loop adds up its steps, starting from its first index, and stops at the first sum that
is not below the limit or below the least number. The sums are those of the integers: a sum that is
no 64-bit number stops the loop, so no index comes from a sum that wrapped around.
-/

set_option autoImplicit false

namespace ForthMachine

open Machine

/-- What a loop has come to after `k` passes: its start and the steps of those passes, added up. -/
def indexAfter (start : Int64) (steps : Nat → Int64) (k : Nat) : Int :=
  start.toInt + ∑ i ∈ Finset.range k, (steps i).toInt

/-- No pass is made with this index. -/
def StopsAt (limit : Int64) (index : Int) : Prop :=
  limit.toInt ≤ index ∨ index < Text.Numeral.least

instance (limit : Int64) (index : Int) : Decidable (StopsAt limit index) :=
  inferInstanceAs (Decidable (limit.toInt ≤ index ∨ index < Text.Numeral.least))

/-- The loop stops after `n` passes, and not before. -/
structure StopsAfter (limit start : Int64) (steps : Nat → Int64) (n : Nat) : Prop where
  stops : StopsAt limit (indexAfter start steps n)
  goesOn : ∀ k < n, ¬ StopsAt limit (indexAfter start steps k)

/-- With `index` on the return stack the pass ends with the flow `next`, restores the return stack
and leaves the size of the step. The machine behind it has that taken. -/
def Paces (pass : Run) (step : Step) (index : Int) (m : Machine) (size : Int64) (m' : Machine) :
    Prop :=
  ∃ after, pass { m with returns := .value (Int64.ofInt index) :: m.returns } =
      some (.ok .next after) ∧
    after.returns = .value (Int64.ofInt index) :: m.returns ∧
    step.size { after with returns := m.returns } = .ok size m'

section Indices

variable {limit start : Int64} {steps : Nat → Int64}

theorem indexAfter_zero : indexAfter start steps 0 = start.toInt := by
  simp [indexAfter]

theorem indexAfter_succ (k : Nat) :
    indexAfter start steps (k + 1) = indexAfter start steps k + (steps k).toInt := by
  rw [indexAfter, indexAfter, Finset.sum_range_succ, add_assoc]

theorem ofInt_indexAfter_zero : Int64.ofInt (indexAfter start steps 0) = start := by
  rw [indexAfter_zero, Int64.ofInt_toInt]

theorem toInt_of_not_stopsAt {index : Int} (h : ¬ StopsAt limit index) :
    (Int64.ofInt index).toInt = index ∧ index < limit.toInt := by
  unfold StopsAt at h
  have hleast : Text.Numeral.least = -2 ^ 63 := by decide
  have hupper := limit.toInt_lt
  refine ⟨Int64.toInt_ofInt_of_le (by omega) (by omega), by omega⟩

theorem lt_of_not_stopsAt {index : Int} (h : ¬ StopsAt limit index) :
    Int64.ofInt index < limit := by
  obtain ⟨hexact, hlt⟩ := toInt_of_not_stopsAt h
  rw [Int64.lt_iff_toInt_lt, hexact]
  exact hlt

theorem stopsAt_start_iff : StopsAt limit (indexAfter start steps 0) ↔ limit ≤ start := by
  have hleast : Text.Numeral.least ≤ start.toInt := start.minValue_le_toInt
  unfold StopsAt
  rw [indexAfter_zero, Int64.le_iff_toInt_le]
  omega

/-- A sum that is out of range stops the loop, and any other is its next index. -/
theorem addInRange?_cases {index : Int} (h : ¬ StopsAt limit index) (size : Int64) :
    (StopsAt limit (index + size.toInt) ∧
        ∀ next, addInRange? (Int64.ofInt index) size = some next → ¬ next < limit) ∨
      (¬ StopsAt limit (index + size.toInt) ∧
        addInRange? (Int64.ofInt index) size = some (Int64.ofInt (index + size.toInt))) := by
  have hexact := (toInt_of_not_stopsAt h).1
  have hgreatest : limit.toInt ≤ Text.Numeral.greatest := limit.toInt_le
  simp only [addInRange?, hexact]
  by_cases hstops : StopsAt limit (index + size.toInt)
  · refine .inl ⟨hstops, ?_⟩
    intro next hnext
    split at hnext
    · rename_i hrange
      have hleast : Text.Numeral.least = -2 ^ 63 := by decide
      have hmost : Text.Numeral.greatest = 2 ^ 63 - 1 := by decide
      cases hnext
      rw [Int64.lt_iff_toInt_lt, Int64.toInt_ofInt_of_le (by omega) (by omega)]
      unfold StopsAt at hstops
      omega
    · cases hnext
  · refine .inr ⟨hstops, if_pos ?_⟩
    unfold StopsAt at hstops
    omega

end Indices

section Passes

variable {pass : Run} {step : Step} {limit start : Int64} {m m' : Machine} {index : Int}
  {size : Int64}

theorem withIndex_of_paces (h : Paces pass step index m size m') :
    ∃ m₁, withIndex (Int64.ofInt index) pass m = some (.ok .next m₁) ∧
      step.size m₁ = .ok size m' := by
  obtain ⟨after, hpass, hreturns, hsize⟩ := h
  refine ⟨{ after with returns := m.returns }, ?_, hsize⟩
  simp only [withIndex, hpass, popReturn_of_value hreturns]

theorem countedLoop_of_not_lt {index : Int64} (h : ¬ index < limit) (passes : Nat) :
    countedLoop pass step limit passes index m = some (.ok .next m) := by
  cases passes with
  | zero => simp only [countedLoop, if_neg h]
  | succ passes => simp only [countedLoop, if_neg h]

theorem traceCounted_of_not_lt {trace : Trace} {index : Int64} (h : ¬ index < limit)
    (passes : Nat) : traceCounted pass trace step limit passes index m = [] := by
  cases passes with
  | zero => simp only [traceCounted]
  | succ passes => simp only [traceCounted, if_neg h]

theorem countedLoop_of_paces (hindex : ¬ StopsAt limit index)
    (hpace : Paces pass step index m size m') (passes : Nat) :
    countedLoop pass step limit (passes + 1) (Int64.ofInt index) m =
      if StopsAt limit (index + size.toInt) then some (.ok .next m')
      else countedLoop pass step limit passes (Int64.ofInt (index + size.toInt)) m' := by
  obtain ⟨m₁, hpass, hsize⟩ := withIndex_of_paces hpace
  simp only [countedLoop, if_pos (lt_of_not_stopsAt hindex), hpass, hsize]
  rcases addInRange?_cases hindex size with ⟨hstops, hnext⟩ | ⟨hgoes, hnext⟩
  · rw [if_pos hstops]
    cases hsum : addInRange? (Int64.ofInt index) size with
    | none => rfl
    | some next => exact countedLoop_of_not_lt (hnext next hsum) passes
  · rw [if_neg hgoes, hnext]

theorem traceCounted_of_paces {trace : Trace} (hindex : ¬ StopsAt limit index)
    (hpace : Paces pass step index m size m') (passes : Nat) :
    traceCounted pass trace step limit (passes + 1) (Int64.ofInt index) m =
      (trace { m with returns := .value (Int64.ofInt index) :: m.returns }).map
          (.inside (.counted (Int64.ofInt index))) ++
        if StopsAt limit (index + size.toInt) then []
        else traceCounted pass trace step limit passes (Int64.ofInt (index + size.toInt)) m' := by
  obtain ⟨m₁, hpass, hsize⟩ := withIndex_of_paces hpace
  simp only [traceCounted, if_pos (lt_of_not_stopsAt hindex), hpass, hsize]
  rcases addInRange?_cases hindex size with ⟨hstops, hnext⟩ | ⟨hgoes, hnext⟩
  · rw [if_pos hstops]
    cases hsum : addInRange? (Int64.ofInt index) size with
    | none => rfl
    | some next =>
      congr 1
      exact traceCounted_of_not_lt (hnext next hsum) passes
  · rw [if_neg hgoes, hnext]

end Passes

section Loop

variable {pass : Run} {step : Step} {limit start : Int64} {steps : Nat → Int64}
  {machines : Nat → Machine}

theorem countedLoop_start (passes : Nat) (m : Machine) :
    countedLoop pass step limit passes start m =
      if StopsAt limit (indexAfter start steps 0) then some (.ok .next m)
      else countedLoop pass step limit passes (Int64.ofInt (indexAfter start steps 0)) m := by
  rw [ofInt_indexAfter_zero]
  split
  · rename_i hstops
    exact countedLoop_of_not_lt (Int64.not_lt.mpr (stopsAt_start_iff.mp hstops)) passes
  · rfl

theorem traceCounted_start (trace : Trace) (passes : Nat) (m : Machine) :
    traceCounted pass trace step limit passes start m =
      if StopsAt limit (indexAfter start steps 0) then []
      else traceCounted pass trace step limit passes (Int64.ofInt (indexAfter start steps 0)) m := by
  rw [ofInt_indexAfter_zero]
  split
  · rename_i hstops
    exact traceCounted_of_not_lt (Int64.not_lt.mpr (stopsAt_start_iff.mp hstops)) passes
  · rfl

/-- The passes go on until the loop stops: each starts from the machine that the one before it left
behind, with the sum of the steps so far as its index. -/
def PacesAll (pass : Run) (step : Step) (limit start : Int64) (steps : Nat → Int64)
    (machines : Nat → Machine) : Prop :=
  ∀ k, (∀ i ≤ k, ¬ StopsAt limit (indexAfter start steps i)) →
    Paces pass step (indexAfter start steps k) (machines k) (steps k) (machines (k + 1))

theorem countedLoop_of_stopsAfter {n : Nat} (hstops : StopsAfter limit start steps n)
    (hpaces : PacesAll pass step limit start steps machines) {left k passes : Nat}
    (hcount : k + left = n) (henough : left ≤ passes) :
    (if StopsAt limit (indexAfter start steps k) then some (.ok .next (machines k))
      else countedLoop pass step limit passes (Int64.ofInt (indexAfter start steps k))
        (machines k)) = some (.ok .next (machines n)) := by
  -- There are `left` passes to come, and the next of them is pass `k`.
  induction left generalizing k passes with
  | zero =>
    obtain rfl : k = n := hcount
    rw [if_pos hstops.stops]
  | succ left ih =>
    obtain ⟨passes, rfl⟩ := Nat.exists_eq_succ_of_ne_zero (Nat.ne_of_gt (Nat.lt_of_lt_of_le
      (Nat.succ_pos left) henough))
    have hgoes : ¬ StopsAt limit (indexAfter start steps k) := hstops.goesOn k (by omega)
    have hpace := hpaces k fun i hi => hstops.goesOn i (by omega)
    rw [if_neg hgoes, countedLoop_of_paces hgoes hpace, ← indexAfter_succ]
    exact ih (by omega) (by omega)

theorem traceCounted_of_stopsAfter {n : Nat} (hstops : StopsAfter limit start steps n)
    (hpaces : PacesAll pass step limit start steps machines) (trace : Trace)
    {left k passes : Nat} (hcount : k + left = n) (henough : left ≤ passes) :
    (if StopsAt limit (indexAfter start steps k) then []
      else traceCounted pass trace step limit passes (Int64.ofInt (indexAfter start steps k))
        (machines k)) =
      (List.range' k left).flatMap fun k =>
        (trace { machines k with
          returns := .value (Int64.ofInt (indexAfter start steps k)) :: (machines k).returns }).map
          (.inside (.counted (Int64.ofInt (indexAfter start steps k)))) := by
  induction left generalizing k passes with
  | zero =>
    obtain rfl : k = n := hcount
    rw [if_pos hstops.stops]
    rfl
  | succ left ih =>
    obtain ⟨passes, rfl⟩ := Nat.exists_eq_succ_of_ne_zero (Nat.ne_of_gt (Nat.lt_of_lt_of_le
      (Nat.succ_pos left) henough))
    have hgoes : ¬ StopsAt limit (indexAfter start steps k) := hstops.goesOn k (by omega)
    have hpace := hpaces k fun i hi => hstops.goesOn i (by omega)
    rw [if_neg hgoes, traceCounted_of_paces hgoes hpace, ← indexAfter_succ,
      ih (by omega) (by omega), List.range'_succ, List.flatMap_cons]

/-- A loop that never comes to its limit is given up, however many passes it may take. -/
theorem countedLoop_of_endless (hgoes : ∀ k, ¬ StopsAt limit (indexAfter start steps k))
    (hpaces : PacesAll pass step limit start steps machines) (passes k : Nat) :
    countedLoop pass step limit passes (Int64.ofInt (indexAfter start steps k)) (machines k) =
      none := by
  induction passes generalizing k with
  | zero => simp only [countedLoop, if_pos (lt_of_not_stopsAt (hgoes k))]
  | succ passes ih =>
    rw [countedLoop_of_paces (hgoes k) (hpaces k fun i _ => hgoes i), ← indexAfter_succ,
      if_neg (hgoes (k + 1))]
    exact ih (k + 1)

theorem indexAfter_of_fixed_one (hpaces : PacesAll pass (.fixed 1) limit start steps machines)
    {k : Nat} (hk : k ≤ (limit.toInt - start.toInt).toNat) :
    ∀ i ≤ k, indexAfter start steps i = start.toInt + i := by
  induction k with
  | zero =>
    intro i hi
    obtain rfl : i = 0 := Nat.le_zero.mp hi
    simpa using indexAfter_zero
  | succ k ih =>
    intro i hi
    have hbefore := ih (Nat.le_of_succ_le hk)
    rcases Nat.le_succ_iff.mp hi with hle | rfl
    · exact hbefore i hle
    · have hleast : Text.Numeral.least ≤ start.toInt := start.minValue_le_toInt
      have hgoes : ∀ j ≤ k, ¬ StopsAt limit (indexAfter start steps j) := by
        intro j hj
        rw [hbefore j hj, StopsAt]
        omega
      obtain ⟨after, -, -, hsize⟩ := hpaces k hgoes
      have hone : steps k = 1 := (EStateM.Result.ok.inj hsize).1.symm
      rw [indexAfter_succ, hbefore k (Nat.le_refl k), hone, Int.natCast_succ, add_assoc]
      rfl

theorem stopsAfter_of_fixed_one (hpaces : PacesAll pass (.fixed 1) limit start steps machines) :
    StopsAfter limit start steps (limit.toInt - start.toInt).toNat := by
  have hindex := indexAfter_of_fixed_one hpaces (Nat.le_refl _)
  have hleast : Text.Numeral.least ≤ start.toInt := start.minValue_le_toInt
  constructor
  · rw [hindex _ (Nat.le_refl _), StopsAt]
    omega
  · intro k hk
    rw [hindex k (Nat.le_of_lt hk), StopsAt]
    omega

end Loop

/-- The loop makes `n` passes and then ends with the flow `next`. They have the exact sums for their
indices, and leave the last of the machines behind. -/
structure MakesPasses (bounds : Bounds) (body : List Token) (step : Step) (m : Machine)
    (start : Int64) (steps : Nat → Int64) (machines : Nat → Machine) (n : Nat) : Prop where
  exact : ∀ k < n, (Int64.ofInt (indexAfter start steps k)).toInt = indexAfter start steps k
  taken : traceToken bounds (.counted body step) m = ⟨.counted body step, m, []⟩ ::
    (List.range n).flatMap fun k =>
      (traceExecute bounds body { machines k with
        returns := .value (Int64.ofInt (indexAfter start steps k)) :: (machines k).returns }).map
        (.inside (.counted (Int64.ofInt (indexAfter start steps k))))
  ends : runToken bounds (.counted body step) m = some (.ok .next (machines n))

/-- A counted loop whose passes end with the flow `next`, restore the return stack and leave their
steps adds its start and the steps up in the integers, and stops at the first sum that is not below
the limit or is below the least number. Every sum before that is the index of a pass. If there is no
such sum the loop does not end, and a loop that counts by one makes as many passes as the limit is
above the start. -/
theorem counted_loop_is_exact (bounds : Bounds) {body : List Token} {step : Step} {m : Machine}
    {start limit : Int64} {rest : List Cell}
    (hstack : m.stack = .value start :: .value limit :: rest) {steps : Nat → Int64}
    {machines : Nat → Machine} (hfirst : machines 0 = { m with stack := rest })
    (hpaces : PacesAll (execute bounds body) step limit start steps machines) :
    (limit ≤ start → StopsAfter limit start steps 0) ∧
      (∀ n ≤ bounds.passes, StopsAfter limit start steps n →
        MakesPasses bounds body step m start steps machines n) ∧
      ((∀ k, ¬ StopsAt limit (indexAfter start steps k)) →
        runToken bounds (.counted body step) m = none) ∧
      (step = .fixed 1 →
        StopsAfter limit start steps (limit.toInt - start.toInt).toNat) := by
  have hrun : runToken bounds (.counted body step) m = countedLoop (execute bounds body) step limit
      bounds.passes start (machines 0) := by
    rw [hfirst]
    simp only [runToken, popValues_two hstack]
    rfl
  have htrace : traceToken bounds (.counted body step) m = ⟨.counted body step, m, []⟩ ::
      traceCounted (execute bounds body) (traceExecute bounds body) step limit bounds.passes start
        (machines 0) := by
    rw [hfirst]
    simp only [traceToken, popValues_two hstack]
    rfl
  refine ⟨fun hle => ⟨stopsAt_start_iff.mpr hle, nofun⟩, fun n hn hstops => ?_, fun hgoes => ?_, ?_⟩
  · have hcount : 0 + n = n := Nat.zero_add n
    refine ⟨fun k hk => (toInt_of_not_stopsAt (hstops.goesOn k hk)).1, ?_, ?_⟩
    · rw [htrace, traceCounted_start, traceCounted_of_stopsAfter hstops hpaces _ hcount hn,
        List.range_eq_range']
    · rw [hrun, countedLoop_start]
      exact countedLoop_of_stopsAfter hstops hpaces hcount hn
  · rw [hrun, countedLoop_start, if_neg (hgoes 0)]
    exact countedLoop_of_endless hgoes hpaces bounds.passes 0
  · rintro rfl
    exact stopsAfter_of_fixed_one hpaces

def downBody : List Token :=
  [.call readIndex, .number (-2)]

def downStart : Int64 := -9223372036854775805

/-- The indices of `k` such passes, the last on top. -/
def downIndices : Nat → List Cell
  | 0 => []
  | k + 1 => .value (Int64.ofInt (indexAfter downStart (fun _ => -2) k)) :: downIndices k

def downMachine (k : Nat) : Machine :=
  { stack := downIndices k }

/-- Two passes, and then the sum is below the least number. -/
theorem down_past_least_is_exact :
    MakesPasses { passes := 2 } downBody .fromStack { stack := [.value downStart, .value 0] }
        downStart (fun _ => -2) downMachine 2 ∧
      (downMachine 2).values = [-9223372036854775805, -9223372036854775807] := by
  have hpaces : PacesAll (execute { passes := 2 } downBody) .fromStack 0 downStart (fun _ => -2)
      downMachine := by
    intro k _
    let index := Int64.ofInt (indexAfter downStart (fun _ => -2) k)
    exact ⟨{
      stack := .value (-2) :: .value index :: downIndices k
      returns := [.value index] }, rfl, rfl, rfl⟩
  have hstops : StopsAfter 0 downStart (fun _ => -2) 2 := ⟨by decide +kernel, by decide +kernel⟩
  have hstack : ({ stack := [.value downStart, .value 0] } : Machine).stack =
      [.value downStart, .value 0] := rfl
  have hfirst : downMachine 0 =
      { ({ stack := [.value downStart, .value 0] } : Machine) with stack := [] } := rfl
  obtain ⟨-, hmakes, -⟩ := counted_loop_is_exact { passes := 2 } hstack hfirst hpaces
  exact ⟨hmakes 2 (Nat.le_refl 2) hstops, by decide +kernel⟩

end ForthMachine
