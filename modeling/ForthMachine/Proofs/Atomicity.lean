import Mathlib.Data.List.TakeWhile
import ForthMachine.Proofs.LoopIndices

/-!
# Primitives change all or nothing

The description of a primitive starts with its stack effect, which names its inputs. On stacks of
values a primitive that fails has changed nothing: it fails of an underflow if it finds fewer
cells than it has inputs, and only then. If it succeeds, it has not touched the cells below them.
-/

set_option autoImplicit false

namespace ForthMachine

open Machine

/-- The inputs that a description names, which starts with `( inputs -- outputs )`. Two dots stand
for whatever is there. -/
def inputNames (description : List Char) : List String :=
  (((Text.words description).drop 1).takeWhile (· ≠ "--")).filter (· ≠ "..")

/-- How many inputs a primitive is documented to have. -/
def Primitive.inputs (p : Primitive) : Nat :=
  (inputNames p.usage.toList).length

/-- How many cells a primitive takes. -/
def Primitive.taken : Primitive → Nat
  | swap2 | copySecondPair => 4
  | rot => 3
  | add | sub | mul | div | mod | divMod | bitAnd | bitOr | greater | greaterEqual | less
  | lessEqual | equal | equals | unequal | swap | copySecond | tuck | dup2 => 2
  | invert | isZero | isNegative | dup | drop | toReturn | print | emit | setLevel => 1
  | pushTrue | pushFalse | depth | clear | clearAll | fromReturn | copyReturn | index | outerIndex
  | printStack | newline | page | words | quit | bye => 0

theorem Primitive.inputs_of_usage {p : Primitive} {description : List Char}
    (h : p.usage = String.ofList description) : p.inputs = (inputNames description).length := by
  rw [inputs, h, String.toList_ofList]

theorem Primitive.inputs_eq (p : Primitive) : p.inputs = p.taken := by
  cases p <;> exact (inputs_of_usage rfl).trans (by decide +kernel)

/-- The primitives that take whatever is on the data stack. -/
def Primitive.clears (p : Primitive) : Prop :=
  p = .clear ∨ p = .clearAll

/-- What an action comes to that takes `inputs` cells from the data stack, all of them at once or
none. It leaves the cells below them alone, if it `spares` them. -/
inductive Takes {α : Type} (inputs : Nat) (spares : Prop) (m : Machine) : Outcome α → Prop where
  | ok (a : α) {m' : Machine} (enough : inputs ≤ m.stack.length)
      (kept : spares → m.stack.drop inputs <:+ m'.stack) : Takes inputs spares m (.ok a m')
  | short (few : m.stack.length < inputs) : Takes inputs spares m (.error .stackUnderflow m)
  | refuses {fault : Fault} (enough : inputs ≤ m.stack.length) (other : fault ≠ .stackUnderflow) :
      Takes inputs spares m (.error fault m)

namespace Takes

variable {α : Type} {inputs : Nat} {spares spares' : Prop} {m m' : Machine} {o : Outcome α}

theorem mono (h : Takes inputs spares m o) (hspares : spares' → spares) :
    Takes inputs spares' m o := by
  cases h with
  | ok a enough kept => exact .ok a enough fun h => kept (hspares h)
  | short few => exact .short few
  | refuses enough other => exact .refuses enough other

theorem same_of_error {fault : Fault} (h : Takes inputs spares m (.error fault m' : Outcome α)) :
    m' = m := by
  cases h <;> rfl

theorem underflow_iff (h : Takes inputs spares m o) :
    (∃ m', o = .error .stackUnderflow m') ↔ m.stack.length < inputs := by
  cases h with
  | ok a enough kept => simpa using enough
  | short few => simpa using few
  | refuses enough other => simpa [other] using enough

theorem suffix_of_ok {a : α} (h : Takes inputs spares m (.ok a m')) (hspares : spares) :
    m.stack.drop inputs <:+ m'.stack := by
  cases h with
  | ok _ _ kept => exact kept hspares

end Takes

def Action.Takes {α : Type} (inputs : Nat) (spares : Prop) (action : Action α) : Prop :=
  ∀ m, HoldsValues m → ForthMachine.Takes inputs spares m (action m)

/-- The action succeeds, and puts something on the data stack at most. -/
def Action.Adds {α : Type} (action : Action α) : Prop :=
  ∀ m, ∃ a m', action m = .ok a m' ∧ m.stack <:+ m'.stack

theorem AreValues.uncons {cells rest : List Cell} {cell : Cell} (h : AreValues cells)
    (hcells : cells = cell :: rest) : (∃ n, cell = .value n) ∧ AreValues rest := by
  subst hcells
  exact List.forall_mem_cons.mp h

theorem AreValues.getElem? {cells : List Cell} {n : Nat} {cell : Cell} (h : AreValues cells)
    (hcell : cells[n]? = some cell) : ∃ value, cell = .value value :=
  h cell (List.mem_of_getElem? hcell)

theorem topValues_of_values {n : Nat} {cells : List Cell} (h : AreValues cells)
    (hlength : n ≤ cells.length) : ∃ values, topValues n cells = .ok values := by
  induction cells generalizing n with
  | nil =>
    obtain rfl : n = 0 := Nat.le_zero.mp hlength
    exact ⟨#v[], rfl⟩
  | cons cell cells ih =>
    cases n with
    | zero => exact ⟨#v[], rfl⟩
    | succ n =>
      obtain ⟨⟨top, rfl⟩, hrest⟩ := h.uncons rfl
      obtain ⟨deeper, hdeeper⟩ := ih hrest (Nat.le_of_succ_le_succ hlength)
      exact ⟨deeper.push top, by simp [topValues, hdeeper]⟩

theorem suffix_stacked (values : List Int64) (cells : List Cell) :
    cells <:+ stacked values cells := by
  induction values generalizing cells with
  | nil => exact List.suffix_refl cells
  | cons n values ih => exact (List.suffix_cons (.value n) cells).trans (ih _)

namespace Action.Adds

variable {α β : Type}

theorem of_stack {action : Action α} {a : α} {f : Machine → Machine}
    (h : ∀ m, action m = .ok a (f m)) (hstack : ∀ m, (f m).stack = m.stack) : action.Adds :=
  fun m => ⟨a, f m, h m, hstack m ▸ List.suffix_refl _⟩

theorem pure (a : α) : Action.Adds (Pure.pure a : Action α) :=
  of_stack (fun _ => rfl) fun _ => rfl

theorem push (n : Int64) : Action.Adds (Machine.push n) :=
  fun m => ⟨(), _, rfl, List.suffix_cons _ m.stack⟩

theorem pushReturn (n : Int64) : Action.Adds (Machine.pushReturn n) :=
  of_stack (fun _ => rfl) fun _ => rfl

theorem print (text : String) : Action.Adds (Machine.print text) :=
  of_stack (fun _ => rfl) fun _ => rfl

theorem bind {first : Action α} {next : α → Action β} (hfirst : first.Adds)
    (hnext : ∀ a, (next a).Adds) : Action.Adds (first >>= next) := by
  intro m
  obtain ⟨a, m₁, hrun, hstack⟩ := hfirst m
  obtain ⟨b, m₂, hrun', hstack'⟩ := hnext a m₁
  exact ⟨b, m₂, (Action.bind_of_ok hrun).trans hrun', hstack.trans hstack'⟩

end Action.Adds

namespace Action.Takes

variable {α β : Type} {inputs : Nat} {spares : Prop}

theorem of_adds {action : Action α} (h : action.Adds) : Action.Takes 0 spares action := by
  intro m _
  obtain ⟨a, m', hrun, hstack⟩ := h m
  rw [hrun]
  exact .ok a (Nat.zero_le _) fun _ => hstack

theorem andThen {first : Action α} {next : α → Action β} (hfirst : Action.Takes inputs spares first)
    (hnext : ∀ a, (next a).Adds) : Action.Takes inputs spares (first >>= next) := by
  intro m hm
  have htakes := hfirst m hm
  cases hrun : first m with
  | ok a m₁ =>
    rw [hrun] at htakes
    cases htakes with
    | ok _ enough kept =>
      obtain ⟨b, m₂, hrun', hstack⟩ := hnext a m₁
      rw [Action.bind_of_ok hrun, hrun']
      exact .ok b enough fun hspares => (kept hspares).trans hstack
  | error fault m₁ =>
    rw [hrun] at htakes
    rw [Action.bind_of_error hrun]
    cases htakes with
    | short few => exact .short few
    | refuses enough other => exact .refuses enough other

theorem pop : Action.Takes 1 spares Machine.pop := by
  intro m hm
  cases hstack : m.stack with
  | nil =>
    rw [pop_of_nil hstack]
    exact .short (by simp [hstack])
  | cons cell rest =>
    obtain ⟨⟨n, rfl⟩, -⟩ := hm.stack.uncons hstack
    rw [pop_of_value hstack]
    exact .ok n (by simp [hstack]) fun _ => by simp [hstack]

theorem peek (n : Nat) : Action.Takes (n + 1) spares (Machine.peek n) := by
  intro m hm
  unfold Machine.peek
  cases hcell : m.stack[n]? with
  | none => exact .short (Nat.lt_succ_of_le (List.getElem?_eq_none_iff.mp hcell))
  | some cell =>
    obtain ⟨value, rfl⟩ := hm.stack.getElem? hcell
    obtain ⟨hlt, -⟩ := List.getElem?_eq_some_iff.mp hcell
    exact .ok value hlt fun _ => List.drop_suffix _ _

theorem transform (n : Nat) {f : (Fin n → Int64) → Except Fault (List Int64)}
    (hf : ∀ {values}, f values ≠ .error .stackUnderflow) :
    Action.Takes n spares (Machine.transform n f) := by
  intro m hm
  unfold Machine.transform
  by_cases hlength : m.stack.length < n
  · rw [topValues_of_length_lt hlength]
    exact .short hlength
  · have henough := Nat.le_of_not_lt hlength
    obtain ⟨values, hvalues⟩ := topValues_of_values hm.stack henough
    rw [hvalues]
    dsimp only
    cases hresults : f values.get with
    | error fault => exact .refuses henough fun hfault => hf (hfault ▸ hresults)
    | ok results => exact .ok () henough fun _ => suffix_stacked results _

theorem popReturn : Action.Takes 0 spares Machine.popReturn := by
  intro m hm
  unfold Machine.popReturn
  cases hreturns : m.returns with
  | nil => exact .refuses (Nat.zero_le _) nofun
  | cons cell rest =>
    obtain ⟨⟨n, rfl⟩, -⟩ := hm.returns.uncons hreturns
    exact .ok n (Nat.zero_le _) fun _ => List.suffix_refl _

theorem peekReturn (n : Nat) : Action.Takes 0 spares (Machine.peekReturn n) := by
  intro m hm
  unfold Machine.peekReturn
  cases hcell : m.returns[n]? with
  | none => exact .refuses (Nat.zero_le _) nofun
  | some cell =>
    obtain ⟨value, rfl⟩ := hm.returns.getElem? hcell
    exact .ok value (Nat.zero_le _) fun _ => List.suffix_refl _

theorem look {first : Action α} {next : α → Action β} (hfirst : Action.Takes inputs spares first)
    (hlooks : ∀ m, Outcome.machine (first m) = m)
    (hnext : ∀ a, ∃ fewer ≤ inputs, Action.Takes fewer spares (next a)) :
    Action.Takes inputs spares (first >>= next) := by
  intro m hm
  have htakes := hfirst m hm
  have hsame := hlooks m
  cases hrun : first m with
  | ok a m₁ =>
    rw [hrun] at htakes hsame
    obtain rfl : m₁ = m := hsame
    cases htakes with
    | ok _ enough _ =>
      obtain ⟨fewer, hle, hrest⟩ := hnext a
      have htakes' := hrest m₁ hm
      rw [Action.bind_of_ok hrun]
      generalize next a m₁ = o at htakes' ⊢
      cases htakes' with
      | ok b _ kept =>
        refine .ok b enough fun hspares => ?_
        exact (List.drop_suffix_drop_left _ hle).trans (kept hspares)
      | short few => exact absurd (Nat.lt_of_lt_of_le few hle) (Nat.not_lt.mpr enough)
      | refuses _ other => exact .refuses enough other
  | error fault m₁ =>
    rw [hrun] at htakes
    rw [Action.bind_of_error hrun]
    cases htakes with
    | short few => exact .short few
    | refuses enough other => exact .refuses enough other

theorem fail {fault : Fault} (h : fault ≠ .stackUnderflow) :
    Action.Takes 0 spares (Machine.fail fault : Action α) :=
  fun _ _ => .refuses (Nat.zero_le _) h

theorem popAll : Action.Takes 0 False Machine.popAll := by
  intro m hm
  have hall : m.stack.dropWhile (·.number?.isSome) = [] := by
    rw [List.dropWhile_eq_nil_iff]
    intro cell hcell
    obtain ⟨n, rfl⟩ := hm.stack cell hcell
    rfl
  unfold Machine.popAll
  rw [hall]
  exact .ok () (Nat.zero_le _) False.elim

end Action.Takes

theorem divide_ne_stackUnderflow (a b : Int64) : divide a b ≠ .error .stackUnderflow := by
  unfold divide
  split <;> simp

theorem AreValues.operands {cells : List Cell} (h : AreValues cells) :
    cells.length < 2 ∨ ∃ a b rest, cells = .value b :: .value a :: rest := by
  match cells, h with
  | [], _ => exact .inl (by simp)
  | [_], _ => exact .inl (by simp)
  | top :: second :: rest, h =>
    obtain ⟨⟨b, rfl⟩, hrest⟩ := h.uncons rfl
    obtain ⟨⟨a, rfl⟩, -⟩ := hrest.uncons rfl
    exact .inr ⟨a, b, rest, rfl⟩

theorem divMod_of_short {m : Machine} (h : m.stack.length < 2) :
    Primitive.divMod.effect m = .error .stackUnderflow m := by
  have hneed : need 2 m = .error .stackUnderflow m := if_pos h
  exact Action.bind_of_error hneed

/-- The operands are looked at where they are, and replaced once there is a result. -/
theorem divMod_of_values {m : Machine} {a b : Int64} {rest : List Cell}
    (h : m.stack = .value b :: .value a :: rest) :
    Primitive.divMod.effect m =
      match divide a b with
      | .error fault => .error fault m
      | .ok (q, r) => .ok () { m with stack := .value q :: .value r :: rest } := by
  have hneed : need 2 m = .ok () m := if_neg (by rw [h]; simp)
  have hb : peek 0 m = .ok b m := by simp [peek, h, leaving]
  have ha : peek 1 m = .ok a m := by simp [peek, h, leaving]
  rw [Primitive.effect, Action.bind_of_ok hneed, Action.bind_of_ok hb, Action.bind_of_ok ha]
  cases divide a b with
  | error fault => rfl
  | ok qr => simp [rearrange, transform, topValues, stacked, h]

theorem Action.Takes.divMod {spares : Prop} : Action.Takes 2 spares Primitive.divMod.effect := by
  intro m hm
  rcases hm.stack.operands with hshort | ⟨a, b, rest, hstack⟩
  · rw [divMod_of_short hshort]
    exact .short hshort
  · have henough : 2 ≤ m.stack.length := by simp [hstack]
    rw [divMod_of_values hstack]
    cases hdivide : divide a b with
    | error fault =>
      exact .refuses henough fun hfault => divide_ne_stackUnderflow a b (hfault ▸ hdivide)
    | ok qr =>
      refine .ok () henough fun _ => ?_
      rw [hstack]
      exact suffix_stacked [qr.2, qr.1] rest

theorem Action.Takes.rearrange {spares : Prop} (n : Nat) (f : (Fin n → Int64) → List Int64) :
    Action.Takes n spares (ForthMachine.rearrange n f) :=
  .transform n nofun

theorem Action.Takes.divided {spares : Prop} (f : Int64 × Int64 → List Int64) :
    Action.Takes 2 spares (Machine.transform 2 fun v => (divide (v 0) (v 1)).map f) := by
  apply Action.Takes.transform
  intro values h
  cases hdivide : divide (values 0) (values 1) with
  | ok qr =>
    rw [hdivide] at h
    cases h
  | error fault =>
    rw [hdivide] at h
    cases h
    exact divide_ne_stackUnderflow _ _ hdivide

theorem machine_peek (n : Nat) (m : Machine) : Outcome.machine (peek n m) = m := by
  unfold peek
  split
  · rfl
  · rw [Outcome.machine_leaving]

theorem Primitive.effect_takes (p : Primitive) :
    Action.Takes p.taken (¬ p.clears) p.effect := by
  cases p with
  | add | sub | mul | bitAnd | bitOr => exact .rearrange 2 _
  | greater | greaterEqual | less | lessEqual | equal | equals | unequal =>
    unfold effect comparison
    exact .rearrange 2 _
  | div | mod => exact .divided _
  | divMod => exact .divMod
  | swap | dup | rot | tuck | dup2 | swap2 => exact .rearrange _ _
  | invert | isZero | isNegative => exact .andThen .pop fun n => .push _
  | pushTrue | pushFalse => exact .of_adds (.push _)
  | copySecond => exact .andThen (.peek 1) fun n => .push n
  | copySecondPair =>
    refine .look (.peek 3) (machine_peek 3) fun a => ⟨3, by decide, ?_⟩
    exact .andThen (.peek 2) fun b => .bind (.push a) fun _ => .push b
  | drop => exact .andThen .pop fun _ => .pure ()
  | depth => exact .of_adds fun m => Action.Adds.push _ m
  | clear =>
    exact fun m hm => (Action.Takes.popAll m hm).mono fun h => h (.inl rfl)
  | clearAll =>
    exact fun m hm => (Action.Takes.popAll m hm).mono fun h => h (.inr rfl)
  | toReturn => exact .andThen .pop fun n => .pushReturn n
  | fromReturn => exact .andThen .popReturn fun n => .push n
  | copyReturn | index => exact .andThen (.peekReturn 0) fun n => .push n
  | outerIndex => exact .andThen (.peekReturn 1) fun n => .push n
  | print => exact .andThen .pop fun n => .print _
  | printStack => exact .of_adds fun m => Action.Adds.print _ m
  | newline | page => exact .of_adds (.print _)
  | words => exact .of_adds fun m => Action.Adds.print _ m
  | emit =>
    refine .look (.peek 0) (machine_peek 0) fun code => ?_
    split
    · exact ⟨0, by decide, .fail nofun⟩
    · exact ⟨1, by decide, .andThen .pop fun _ => .print _⟩
  | quit => exact .of_adds (.pure ())
  | bye => exact .of_adds (.of_stack (fun _ => rfl) fun _ => rfl)
  | setLevel =>
    exact .andThen .pop fun n => .bind (.of_stack (fun _ => rfl) fun _ => rfl) fun _ =>
      .of_stack (fun _ => rfl) fun _ => rfl

/-- A primitive that fails leaves the machine as it was, and it fails of an underflow exactly if
there are fewer cells than it is documented to take. If it succeeds, the cells below those are still
there, unless it clears the stack, and so is the return stack, unless it moves a cell. -/
theorem failing_primitive_changes_nothing (p : Primitive) {m : Machine} (h : HoldsValues m) :
    (∀ fault m', p.run m = .error fault m' → m' = m) ∧
    ((∃ m', p.run m = .error .stackUnderflow m') ↔ m.stack.length < p.inputs) ∧
    ∀ flow m', p.run m = .ok flow m' →
      (p ≠ .clear → p ≠ .clearAll → m.stack.drop p.inputs <:+ m'.stack) ∧
      (p ≠ .toReturn → p ≠ .fromReturn → m'.returns = m.returns) := by
  have htakes : Takes p.taken (¬ p.clears) m (p.run m) :=
    p.effect_takes.andThen (fun _ => .pure p.flow) m h
  have hreturns (hmove : p ≠ .toReturn) (hmove' : p ≠ .fromReturn) :
      (Outcome.machine (p.run m)).returns = m.returns :=
    p.returns_run (decide_eq_true ⟨hmove, hmove'⟩) m
  rw [p.inputs_eq]
  refine ⟨fun fault m' hrun => ?_, htakes.underflow_iff, fun flow m' hrun => ⟨?_, ?_⟩⟩
  · exact Takes.same_of_error (hrun ▸ htakes)
  · intro hclear hclear'
    exact Takes.suffix_of_ok (hrun ▸ htakes) (not_or.mpr ⟨hclear, hclear'⟩)
  · intro hmove hmove'
    have hsame := hreturns hmove hmove'
    rwa [hrun] at hsame

/-- The operands are there, and what is below them is not looked at. -/
theorem divMod_by_zero_changes_nothing :
    ∃ m : Machine, m.stack = [.value 0, .value 7, .value 5] ∧ m.returns = [.value 9] ∧
      HoldsValues m ∧ Primitive.divMod.run m = .error .divisionByZero m ∧
      ¬ ∃ m', Primitive.divMod.run m = .error .stackUnderflow m' := by
  have hm : HoldsValues { stack := [.value 0, .value 7, .value 5], returns := [.value 9] } := by
    constructor <;> simp [AreValues]
  obtain ⟨hsame, hunderflow, -⟩ := failing_primitive_changes_nothing .divMod hm
  obtain ⟨m', hrun⟩ : ∃ m', Primitive.divMod.run
      { stack := [.value 0, .value 7, .value 5], returns := [.value 9] } =
        .error .divisionByZero m' :=
    ⟨_, rfl⟩
  have hinputs : Primitive.divMod.inputs = 2 := by decide +kernel
  refine ⟨_, rfl, rfl, hm, ?_, ?_⟩
  · rw [hrun, hsame _ _ hrun]
  · rw [hunderflow, hinputs]
    decide

end ForthMachine
