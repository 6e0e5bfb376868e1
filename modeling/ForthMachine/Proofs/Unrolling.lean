import ForthMachine.Proofs.Calls
import ForthMachine.Proofs.TraceLaw

/-!
# Unrolling a counted loop

A loop that counts by one does what copies of its body do, one for each index, with the index
written out. Inside the copies the return stack lacks the index, so the words that read it have to
be replaced, by the number or by the word that reads one cell less deep. Definitions that the body
calls stay as they are, and must not touch the return stack.
-/

set_option autoImplicit false

namespace ForthMachine

open Machine

/-- Neither the call nor a definition it leads to moves cells between the stacks. Only the call
itself may read an index. -/
def Behavior.unrollable : Behavior → Bool
  | .primitive p => p ≠ .toReturn ∧ p ≠ .fromReturn ∧ p ≠ .copyReturn
  | behavior => behavior.callsOnly (·.access? ≠ some .returns)

mutual

def Token.unrollable : Token → Bool
  | .number _ => true
  | .call word => word.behavior.unrollable
  | .unresolved _ => true
  | .counted body _ => Token.unrollableAll body
  | .branch ifTrue ifFalse => Token.unrollableAll ifTrue && Token.unrollableAll ifFalse
  | .indefinite condition body => Token.unrollableAll condition && Token.unrollableAll body
  | .leave => true
termination_by structural token => token

def Token.unrollableAll : List Token → Bool
  | [] => true
  | token :: tokens => Token.unrollable token && Token.unrollableAll tokens
termination_by structural tokens => tokens

end

/-- What a call becomes in the copy for `index`, inside so many counted loops of the body. -/
def Word.unroll (word : Word) (index : Int64) (indexWord : Word) (loops : Nat) : Token :=
  match word.behavior with
  | .primitive .index =>
    match loops with
    | 0 => .number index
    | _ + 1 => .call word
  | .primitive .outerIndex =>
    match loops with
    | 0 => .call indexWord
    | 1 => .number index
    | _ + 2 => .call word
  | _ => .call word

section Copies

variable (index : Int64) (indexWord : Word)

mutual

def Token.unroll (loops : Nat) : Token → Token
  | .call word => word.unroll index indexWord loops
  | .counted body step => .counted (Token.unrollAll (loops + 1) body) step
  | .branch ifTrue ifFalse =>
    .branch (Token.unrollAll loops ifTrue) (Token.unrollAll loops ifFalse)
  | .indefinite condition body =>
    .indefinite (Token.unrollAll loops condition) (Token.unrollAll loops body)
  | .number n => .number n
  | .unresolved name => .unresolved name
  | .leave => .leave
termination_by structural token => token

def Token.unrollAll (loops : Nat) : List Token → List Token
  | [] => []
  | token :: tokens => Token.unroll loops token :: Token.unrollAll loops tokens
termination_by structural tokens => tokens

end

end Copies

/-- The numbers from `start` up to and without `limit`. -/
def indicesBelow (limit start : Int64) : List Int64 :=
  (List.range (limit.toInt - start.toInt).toNat).map fun k : Nat => Int64.ofInt (start.toInt + k)

/-- The copies of the body for all the indices of a loop, one behind the other. -/
def unrolled (indexWord : Word) (body : List Token) (limit start : Int64) : List Token :=
  (indicesBelow limit start).flatMap fun index => Token.unrollAll index indexWord 0 body

section Indices

variable {limit start : Int64}

theorem indicesBelow_of_not_lt (h : ¬ start < limit) : indicesBelow limit start = [] := by
  rw [Int64.lt_iff_toInt_lt] at h
  have hnone : (limit.toInt - start.toInt).toNat = 0 := by omega
  rw [indicesBelow, hnone]
  rfl

theorem indicesBelow_of_lt (h : start < limit) :
    ∃ next, addInRange? start 1 = some next ∧ next.toInt = start.toInt + 1 ∧
      indicesBelow limit start = start :: indicesBelow limit next := by
  rw [Int64.lt_iff_toInt_lt] at h
  have hleast : Text.Numeral.least ≤ start.toInt := start.minValue_le_toInt
  have hgreatest : limit.toInt ≤ Text.Numeral.greatest := limit.toInt_le
  have hsum : (Int64.ofInt (start.toInt + 1)).toInt = start.toInt + 1 := by
    have hlower := start.le_toInt
    have hupper := limit.toInt_lt
    exact Int64.toInt_ofInt_of_le (by omega) (by omega)
  have hone : (1 : Int64).toInt = 1 := by decide
  refine ⟨Int64.ofInt (start.toInt + 1), ?_, hsum, ?_⟩
  · simp only [addInRange?, hone]
    exact if_pos ⟨by omega, by omega⟩
  · have hcount : (limit.toInt - start.toInt).toNat = (limit.toInt - (start.toInt + 1)).toNat + 1 := by
      omega
    unfold indicesBelow
    rw [hsum, hcount, List.range_succ_eq_map, List.map_cons, List.map_map]
    congr 1
    · simp
    · refine List.map_congr_left fun k _ => ?_
      simp only [Function.comp, Nat.succ_eq_add_one, Int.natCast_add, Int.natCast_one]
      congr 1
      omega

theorem unrolled_of_not_lt {indexWord : Word} {body : List Token} (h : ¬ start < limit) :
    unrolled indexWord body limit start = [] := by
  rw [unrolled, indicesBelow_of_not_lt h]
  rfl

theorem unrolled_of_lt (indexWord : Word) (body : List Token) (h : start < limit) :
    ∃ next, addInRange? start 1 = some next ∧ next.toInt = start.toInt + 1 ∧
      unrolled indexWord body limit start =
        Token.unrollAll start indexWord 0 body ++ unrolled indexWord body limit next := by
  obtain ⟨next, hnext, hsum, hindices⟩ := indicesBelow_of_lt h
  refine ⟨next, hnext, hsum, ?_⟩
  rw [unrolled, hindices, List.flatMap_cons]
  rfl

end Indices

/-- The second return stack lacks a loop index that lies under so many cells in the first one. -/
structure Displaced (index : Int64) (above : Nat) (m m' : Machine) : Prop where
  index : m.returns[above]? = some (.value index)
  alike : Alike { m with returns := m.returns.eraseIdx above } m'

theorem Displaced.returns {index : Int64} {above : Nat} {m m' : Machine}
    (h : Displaced index above m m') : m'.returns = m.returns.eraseIdx above :=
  h.alike.state.returns

theorem Displaced.cons_of_zero {index : Int64} {m m' : Machine} (h : Displaced index 0 m m') :
    ∃ rest, m.returns = .value index :: rest := by
  have hindex := h.index
  cases hreturns : m.returns with
  | nil =>
    rw [hreturns] at hindex
    cases hindex
  | cons cell rest =>
    rw [hreturns] at hindex
    cases hindex
    exact ⟨rest, rfl⟩

theorem Displaced.noted {index : Int64} {above : Nat} {m m' : Machine}
    (h : Displaced index above m m') (entry : Entry) :
    Displaced index above (m.note entry) m' :=
  ⟨h.index, { h.alike.state with
    level := h.alike.state.level.trans (Log.add_level _ _).symm }, h.alike.depth⟩

theorem displaced_lockstep (bounds : Bounds) (index : Int64) (above : Nat) :
    Lockstep (· ≠ .returns) bounds bounds (Displaced index above) :=
  have law := alike_lockstep bounds
  { passes := rfl
    room := fun h => (law.room h.alike :)
    stack := fun h => (law.stack h.alike :)
    returns := fun hmay => absurd rfl hmay
    names := fun _ _ _ h => (law.names trivial h.alike :)
    withStack := fun cells h => ⟨h.index, law.withStack cells h.alike⟩
    withReturns := fun hmay => absurd rfl hmay
    print := fun text h => ⟨h.index, law.print text h.alike⟩
    exit := fun h => ⟨h.index, law.exit h.alike⟩
    level := fun level h => ⟨h.index, law.level level h.alike⟩
    note := fun entry entry' h => ⟨h.index, law.note entry entry' h.alike⟩
    deeper := fun h => ⟨h.index, law.deeper h.alike⟩
    back := fun h => ⟨h.index, law.back h.alike⟩ }

theorem Displaced.pushIndex {index : Int64} {above : Nat} {m m' : Machine} (inner : Int64)
    (h : Displaced index above m m') : Displaced index (above + 1)
      { m with returns := .value inner :: m.returns }
      { m' with returns := .value inner :: m'.returns } where
  index := h.index
  alike := by
    rw [h.returns]
    exact ((alike_lockstep { passes := 0 }).withReturns trivial _ h.alike :)

theorem Displaced.popIndex {excused : Fault → Prop} {index : Int64} {above : Nat}
    {m m' : Machine} (h : Displaced index (above + 1) m m') :
    Mirrors excused (Displaced index) above (some (popReturn m)) (some (popReturn m')) := by
  have hreturns := h.returns
  unfold popReturn
  cases hm : m.returns with
  | nil =>
    have hindex := h.index
    rw [hm] at hindex
    cases hindex
  | cons cell rest =>
    rw [hm] at hreturns
    rw [hreturns]
    have hrest : Displaced index above { m with returns := rest }
        { m' with returns := rest.eraseIdx above } := by
      refine ⟨?_, ((alike_lockstep { passes := 0 }).withReturns trivial _ h.alike :)⟩
      have hindex := h.index
      rw [hm] at hindex
      exact hindex
    exact (Lockstep.leaving hrest cell.number).mirrors

theorem displaced_simulation (bounds : Bounds) (index : Int64) :
    Simulation bounds bounds (· = .tooDeep) (·.access? ≠ some .returns) (Displaced index)
      (· + 1) :=
  Lockstep.simulation (displaced_lockstep bounds index) (fun _ _ => .inl (by rfl))
    (fun hallowed haccess => by
      rintro rfl
      exact absurd haccess (of_decide_eq_true hallowed))
    (fun inner h => h.pushIndex inner) Displaced.popIndex

/-- What the words that read an index do, to a cell of the return stack. -/
def pushReturned (n : Nat) : Action Flow := do
  (do push (← peekReturn n) : Action Unit)
  return .next

theorem pushReturned_eq (n : Nat) (m : Machine) :
    pushReturned n m = match peekReturn n m with
      | .ok value m => .ok .next { m with stack := .value value :: m.stack }
      | .error fault m => .error fault m := by
  simp only [pushReturned, bind, EStateM.bind]
  cases peekReturn n m <;> rfl

theorem popReturn_of_value {m : Machine} {n : Int64} {rest : List Cell}
    (h : m.returns = .value n :: rest) : popReturn m = .ok n { m with returns := rest } := by
  simp [popReturn, h, leaving]

theorem pushReturned_of_value {n : Nat} {m : Machine} {value : Int64}
    (h : m.returns[n]? = some (.value value)) :
    pushReturned n m = .ok .next { m with stack := .value value :: m.stack } := by
  have hpeek : peekReturn n m = .ok value m := by simp [peekReturn, h, leaving]
  rw [pushReturned_eq, hpeek]

theorem runToken_index (bounds : Bounds) (serial : Nat) (name : String) (m : Machine) :
    runToken bounds (.call ⟨serial, name, .primitive .index⟩) m =
      some (pushReturned 0 (m.note ⟨.debug, "call", name, some (.number m.depth)⟩)) := rfl

theorem runToken_outerIndex (bounds : Bounds) (serial : Nat) (name : String) (m : Machine) :
    runToken bounds (.call ⟨serial, name, .primitive .outerIndex⟩) m =
      some (pushReturned 1 (m.note ⟨.debug, "call", name, some (.number m.depth)⟩)) := rfl

section Copy

variable {bounds : Bounds} {index : Int64} {above : Nat}

/-- A cell that is not the index can be read from where it is without the index. -/
theorem pushReturned_mirrors {n n' : Nat}
    (h : ∀ cells : List Cell, (cells.eraseIdx above)[n']? = cells[n]?) :
    Action.Mirrors (· = .tooDeep) (Displaced index) above (pushReturned n) (pushReturned n') := by
  intro m m' hm
  have hpeek : Outcome.Agree (Displaced index above) (peekReturn n m) (peekReturn n' m') := by
    unfold peekReturn
    rw [hm.returns, h]
    split
    · exact .error _ hm
    · exact Lockstep.leaving hm _
  rw [pushReturned_eq, pushReturned_eq]
  generalize peekReturn n m = result at hpeek ⊢
  generalize peekReturn n' m' = result' at hpeek ⊢
  cases hpeek with
  | ok value h =>
    have hlaw := displaced_lockstep { passes := 0 } index above
    dsimp only
    rw [hlaw.stack h]
    exact .ok Flow.next (hlaw.withStack _ h)
  | error fault h => exact .error fault h

theorem pushReturned_index {m m' : Machine} (h : Displaced index above m m') :
    Mirrors (· = .tooDeep) (Displaced index) above (some (pushReturned above m))
      (runToken bounds (.number index) m') := by
  have hlaw := displaced_lockstep bounds index above
  rw [pushReturned_of_value h.index]
  simp only [runToken]
  rw [hlaw.stack h]
  exact .ok Flow.next (hlaw.withStack _ h)

theorem unrollable_primitive {p : Primitive} (h : (Behavior.primitive p).unrollable = true) :
    p = .index ∨ p = .outerIndex ∨ p.access? ≠ some .returns := by
  cases p <;> simp [Behavior.unrollable, Primitive.access?] at h ⊢

theorem Word.unroll_of_access {serial : Nat} {name : String} {p : Primitive} {indexWord : Word}
    (h : p.access? ≠ some .returns) :
    Word.unroll ⟨serial, name, .primitive p⟩ index indexWord above =
      .call ⟨serial, name, .primitive p⟩ := by
  cases p <;> first | rfl | exact absurd rfl h

variable {indexWord : Word}

theorem call_unrolls (hindex : indexWord.behavior = .primitive .index) {word : Word}
    (hword : word.behavior.unrollable = true) :
    Run.Mirrors (· = .tooDeep) (Displaced index) above (runToken bounds (.call word))
      (runToken bounds (word.unroll index indexWord above)) := by
  have hnote {m m' : Machine} (entry entry' : Entry) (h : Displaced index above m m') :=
    (displaced_lockstep bounds index above).note entry entry' h
  have hlaw := displaced_simulation bounds index
  obtain ⟨serial, name, behavior⟩ := word
  cases behavior with
  | definition body => exact hlaw.runToken above (.call ⟨serial, name, .definition body⟩) hword
  | structural s => exact hlaw.runToken above (.call ⟨serial, name, .structural s⟩) hword
  | readAhead r => exact hlaw.runToken above (.call ⟨serial, name, .readAhead r⟩) hword
  | comment c => exact hlaw.runToken above (.call ⟨serial, name, .comment c⟩) hword
  | primitive p =>
    rcases unrollable_primitive hword with rfl | rfl | hother
    · intro m m' h
      cases above with
      | zero =>
        rw [runToken_index]
        exact pushReturned_index (h.noted _)
      | succ above =>
        have hcells (cells : List Cell) : (cells.eraseIdx (above + 1))[0]? = cells[0]? :=
          List.getElem?_eraseIdx_of_lt (Nat.succ_pos above)
        simp only [Word.unroll]
        rw [runToken_index, runToken_index]
        exact pushReturned_mirrors hcells _ _ (hnote _ _ h)
    · intro m m' h
      match above with
      | 0 =>
        obtain ⟨serial', name', behavior'⟩ := indexWord
        cases hindex
        have hcells (cells : List Cell) : (cells.eraseIdx 0)[0]? = cells[1]? := by
          cases cells <;> rfl
        simp only [Word.unroll]
        rw [runToken_outerIndex, runToken_index]
        exact pushReturned_mirrors hcells _ _ (hnote _ _ h)
      | 1 =>
        rw [runToken_outerIndex]
        exact pushReturned_index (h.noted _)
      | above + 2 =>
        have hcells (cells : List Cell) : (cells.eraseIdx (above + 2))[1]? = cells[1]? :=
          List.getElem?_eraseIdx_of_lt (by omega)
        simp only [Word.unroll]
        rw [runToken_outerIndex, runToken_outerIndex]
        exact pushReturned_mirrors hcells _ _ (hnote _ _ h)
    · rw [Word.unroll_of_access hother]
      exact hlaw.runToken above (.call ⟨serial, name, .primitive p⟩) (decide_eq_true hother)

mutual

/-- The induction is on the token, and inside a counted loop the index lies one cell deeper. -/
theorem runToken_unrolls (bounds : Bounds) (index : Int64)
    (hindex : indexWord.behavior = .primitive .index) (above : Nat) :
    ∀ token : Token, token.unrollable = true →
      Run.Mirrors (· = .tooDeep) (Displaced index) above (runToken bounds token)
        (runToken bounds (token.unroll index indexWord above))
  | .number n, _ => (displaced_simulation bounds index).runToken above (.number n) rfl
  | .call _, h => call_unrolls hindex h
  | .unresolved name, _ =>
    (displaced_simulation bounds index).runToken above (.unresolved name) rfl
  | .counted body step, h => by
    have hbody := runTokens_unrolls bounds index hindex (above + 1) body h
    exact (displaced_simulation bounds index).counted hbody step
  | .branch ifTrue ifFalse, h => by
    obtain ⟨htrue, hfalse⟩ := Bool.and_eq_true_iff.mp h
    exact (displaced_simulation bounds index).branch
      (runTokens_unrolls bounds index hindex above ifTrue htrue)
      (runTokens_unrolls bounds index hindex above ifFalse hfalse)
  | .indefinite condition body, h => by
    obtain ⟨hcondition, hbody⟩ := Bool.and_eq_true_iff.mp h
    exact (displaced_simulation bounds index).indefinite
      (runTokens_unrolls bounds index hindex above condition hcondition)
      (runTokens_unrolls bounds index hindex above body hbody)
  | .leave, _ => (displaced_simulation bounds index).runToken above .leave rfl
termination_by structural token => token

theorem runTokens_unrolls (bounds : Bounds) (index : Int64)
    (hindex : indexWord.behavior = .primitive .index) (above : Nat) :
    ∀ tokens : List Token, Token.unrollableAll tokens = true →
      Run.Mirrors (· = .tooDeep) (Displaced index) above (runTokens bounds tokens)
        (runTokens bounds (Token.unrollAll index indexWord above tokens))
  | [], _ => (displaced_simulation bounds index).runTokens above [] rfl
  | token :: tokens, h => by
    obtain ⟨htoken, htokens⟩ := Bool.and_eq_true_iff.mp h
    exact (runToken_unrolls bounds index hindex above token htoken).cons
      (runTokens_unrolls bounds index hindex above tokens htokens)
termination_by structural tokens => tokens

end

end Copy

def Token.isLeave : Token → Bool
  | .leave => true
  | _ => false

/-- Whatever leaves a loop has another loop around it inside the outermost one. -/
def KeepsInside (events : List Event) : Prop :=
  ∀ event ∈ events, event.token.isLeave → 2 ≤ event.loops.length

instance (events : List Event) : Decidable (KeepsInside events) :=
  inferInstanceAs (Decidable (∀ event ∈ events, event.token.isLeave → 2 ≤ event.loops.length))

/-- The same flow from the same state, or the same fault. A fault leaves the indices of the loops
that it was found in on the return stack. -/
inductive SameEnd : Outcome Flow → Outcome Flow → Prop where
  | ok {m m' : Machine} (flow : Flow) (state : SameState m m') :
      SameEnd (.ok flow m) (.ok flow m')
  | error {m m' : Machine} (fault : Fault)
      (state : SameState { m with returns := m'.returns } m') :
      SameEnd (.error fault m) (.error fault m')

/-- How the run of the copies ends, by how the loop ends. The loop may be given up early if it is
not allowed all its passes. -/
inductive Unrolls (enough : Prop) : Option (Outcome Flow) → Option (Outcome Flow) → Prop where
  | cut (m : Machine) (o : Option (Outcome Flow)) : Unrolls enough (some (.error .tooDeep m)) o
  | givenUp : Unrolls enough none none
  | short (few : ¬ enough) (o : Option (Outcome Flow)) : Unrolls enough none o
  | ok {m m' : Machine} (flow : Flow) (h : Alike m m') :
      Unrolls enough (some (.ok flow m)) (some (.ok flow m'))
  | error {m m' : Machine} (fault : Fault)
      (state : SameState { m with returns := m'.returns } m') :
      Unrolls enough (some (.error fault m)) (some (.error fault m'))

section Loop

variable {bounds : Bounds} {indexWord : Word} {body : List Token}
  (hindex : indexWord.behavior = .primitive .index) (hbody : Token.unrollableAll body = true)
include hindex hbody

theorem pass_unrolls (index : Int64) {m m' : Machine} (h : Alike m m') :
    Unrolls True (withIndex index (nested bounds.nesting (runTokens bounds body)) m)
      (runTokens bounds (Token.unrollAll index indexWord 0 body) m') := by
  have hstart : Displaced index 0
      { m with returns := .value index :: m.returns, depth := m.depth + 1 } m' :=
    ⟨rfl, ⟨{ h.state with }, Nat.le_succ_of_le h.depth⟩⟩
  have hcopy := runTokens_unrolls bounds index hindex 0 body hbody _ _ hstart
  unfold withIndex
  by_cases hfull : bounds.nesting.any (· ≤ m.depth)
  · have hcut : nested bounds.nesting (runTokens bounds body)
        { m with returns := .value index :: m.returns } =
          some (.error .tooDeep { m with returns := .value index :: m.returns }) := if_pos hfull
    rw [hcut]
    exact .cut _ _
  · have hrun : nested bounds.nesting (runTokens bounds body)
        { m with returns := .value index :: m.returns } =
          (runTokens bounds body
            { m with returns := .value index :: m.returns, depth := m.depth + 1 }).map
          (Outcome.adjust fun m => { m with depth := m.depth - 1 }) := if_neg hfull
    rw [hrun]
    have hkept {o : Outcome Flow} := undisturbed_stepLaw.runTokens bounds body
      (m := { m with returns := .value index :: m.returns, depth := m.depth + 1 }) (o := o)
    have hkept' {o : Outcome Flow} := undisturbed_stepLaw.runTokens bounds
      (Token.unrollAll index indexWord 0 body) (m := m') (o := o)
    generalize runTokens bounds body
      { m with returns := .value index :: m.returns, depth := m.depth + 1 } = o at hcopy hkept ⊢
    generalize runTokens bounds (Token.unrollAll index indexWord 0 body) m' = o' at hcopy hkept' ⊢
    cases hcopy with
    | excused h m o =>
      subst h
      exact .cut _ _
    | givenUp => exact .givenUp
    | error fault h => exact .error fault { h.alike.state with returns := rfl }
    | @ok m₁ m₁' flow hpass =>
      have hdepth : m₁.depth = m.depth + 1 := (hkept rfl).depth
      have hdepth' : m₁'.depth = m'.depth := (hkept' rfl).depth
      obtain ⟨rest, hreturns⟩ := hpass.cons_of_zero
      have hpop := popReturn_of_value (m := { m₁ with depth := m₁.depth - 1 }) hreturns
      have hstate : SameState { m₁ with returns := rest } m₁' := by
        have hstate := hpass.alike.state
        rwa [hreturns] at hstate
      simp only [Option.map_some, Outcome.adjust, hpop]
      refine .ok flow ⟨{ hstate with }, ?_⟩
      have hle := h.depth
      change m₁'.depth ≤ m₁.depth - 1
      omega

theorem countedLoop_unrolls (limit : Int64) (passes : Nat) (index : Int64) {m m' : Machine}
    (h : Alike m m')
    (hleave : KeepsInside (traceCounted (nested bounds.nesting (runTokens bounds body))
      (traceNested bounds.nesting (traceTokens bounds body)) (.fixed 1) limit passes index m)) :
    Unrolls (limit.toInt - index.toInt ≤ passes)
      (countedLoop (nested bounds.nesting (runTokens bounds body)) (.fixed 1) limit passes index m)
      (runTokens bounds (unrolled indexWord body limit index) m') := by
  -- The machines are alike before every pass.
  induction passes generalizing index m m' with
  | zero =>
    simp only [countedLoop]
    split
    · rename_i hlt
      rw [Int64.lt_iff_toInt_lt] at hlt
      exact .short (by omega) _
    · rename_i hge
      rw [unrolled_of_not_lt hge]
      exact .ok Flow.next h
  | succ passes ih =>
    simp only [countedLoop]
    split
    · rename_i hlt
      obtain ⟨next, hnext, hsum, hunrolled⟩ := unrolled_of_lt indexWord body hlt
      simp only [KeepsInside, traceCounted, if_pos hlt] at hleave
      have hpass : Unrolls True
          (withIndex index (nested bounds.nesting (runTokens bounds body)) m)
          (runTokens bounds (Token.unrollAll index indexWord 0 body) m') :=
        pass_unrolls hindex hbody index h
      have hcaught {m₁ : Machine} (hleft : withIndex index
          (nested bounds.nesting (runTokens bounds body)) m = some (.ok .leave m₁)) : False := by
        obtain ⟨n, m₂, hinner, -⟩ := withIndex_eq_ok hleft
        obtain ⟨event, hevent, htoken, hloops⟩ := execute_signalled bounds body hinner nofun
        have hdeep := hleave _ (List.mem_append_left _ (List.mem_map_of_mem hevent))
          (show event.token.isLeave by rw [htoken]; rfl)
        simp [Event.inside, hloops] at hdeep
      rw [hunrolled, runTokens_append]
      generalize withIndex index (nested bounds.nesting (runTokens bounds body)) m = o
        at hpass hcaught hleave ⊢
      generalize runTokens bounds (Token.unrollAll index indexWord 0 body) m' = o' at hpass ⊢
      cases hpass with
      | cut m o => exact .cut m _
      | givenUp => exact .givenUp
      | short few o => exact absurd trivial few
      | error fault state => exact .error fault state
      | @ok m₁ m₁' flow h =>
        cases flow with
        | leave => exact (hcaught rfl).elim
        | quit => exact .ok Flow.quit h
        | next =>
          have hsize : (Step.fixed 1).size m₁ = .ok 1 m₁ := rfl
          simp only [hsize, hnext] at hleave ⊢
          have hrest := ih next h fun event hevent =>
            hleave event (List.mem_append_right _ hevent)
          rwa [show (limit.toInt - index.toInt ≤ (passes + 1 : Nat)) ↔
            (limit.toInt - next.toInt ≤ passes) by omega]
    · rename_i hge
      rw [unrolled_of_not_lt hge]
      exact .ok Flow.next h

omit hindex hbody in
theorem popValues_two {m : Machine} {a b : Int64} {rest : List Cell}
    (h : m.stack = .value b :: .value a :: rest) :
    popValues 2 m = .ok #v[a, b] { m with stack := rest } := by
  simp [popValues, topValues, h]

theorem counted_unrolls {m : Machine} {start limit : Int64} {rest : List Cell}
    (hstack : m.stack = .value start :: .value limit :: rest)
    (hleave : KeepsInside (traceToken bounds (.counted body (.fixed 1)) m)) :
    Unrolls (limit.toInt - start.toInt ≤ bounds.passes)
      (runToken bounds (.counted body (.fixed 1)) m)
      (runTokens bounds (unrolled indexWord body limit start) { m with stack := rest }) := by
  have hpop := popValues_two hstack
  have hsame : Alike { m with stack := rest } { m with stack := rest } :=
    ⟨⟨rfl, rfl, rfl, rfl, rfl, rfl, rfl, rfl⟩, Nat.le_refl _⟩
  simp only [traceToken, hpop] at hleave
  simp only [runToken, hpop]
  exact countedLoop_unrolls hindex hbody limit bounds.passes start hsame fun event hevent =>
    hleave event (List.mem_cons_of_mem _ hevent)

end Loop

theorem Unrolls.ends {enough : Prop} {o o' : Option (Outcome Flow)} (h : Unrolls enough o o')
    (hcut : cutOff o = false) :
    (∀ ended, o = some ended → ∃ ended', o' = some ended' ∧ SameEnd ended ended') ∧
      (enough → o = none → o' = none) := by
  cases h with
  | cut m o => cases hcut
  | givenUp => exact ⟨fun _ hended => absurd hended (by simp), fun _ _ => rfl⟩
  | short few o =>
    exact ⟨fun _ hended => absurd hended (by simp), fun henough => absurd henough few⟩
  | ok flow h =>
    refine ⟨fun ended hended => ?_, fun _ hnone => absurd hnone (by simp)⟩
    cases hended
    exact ⟨_, rfl, .ok flow h.state⟩
  | error fault state =>
    refine ⟨fun ended hended => ?_, fun _ hnone => absurd hnone (by simp)⟩
    cases hended
    exact ⟨_, rfl, .error fault state⟩

/-- A loop that counts by one, does not nest too deep and is not left early ends like its copies:
with the same flow and the same state, or with the same fault and the same state but for the return
stack. If it is given up although it may take all its passes, then so are the copies. -/
theorem loop_ends_like_copies {passes : Nat} {body : List Token} {indexWord : Word}
    (hindex : indexWord.behavior = .primitive .index) (hbody : Token.unrollableAll body = true)
    {m : Machine} {start limit : Int64} {rest : List Cell}
    (hstack : m.stack = .value start :: .value limit :: rest)
    (hleave : KeepsInside (traceToken { passes } (.counted body (.fixed 1)) m))
    (hdeep : cutOff (runToken { passes } (.counted body (.fixed 1)) m) = false) :
    (∀ o, runToken { passes } (.counted body (.fixed 1)) m = some o →
      ∃ o', runTokens { passes } (unrolled indexWord body limit start) { m with stack := rest } =
        some o' ∧ SameEnd o o') ∧
      (limit.toInt - start.toInt ≤ passes →
        runToken { passes } (.counted body (.fixed 1)) m = none →
        runTokens { passes } (unrolled indexWord body limit start) { m with stack := rest } =
          none) :=
  (counted_unrolls hindex hbody hstack hleave).ends hdeep

def readIndex : Word := ⟨0, "I", .primitive .index⟩

def pairsBody : List Token :=
  [.number 9, .number 0,
    .counted [.call ⟨1, "J", .primitive .outerIndex⟩, .call ⟨2, ".", .primitive .print⟩,
      .call readIndex, .call ⟨2, ".", .primitive .print⟩, .leave] (.fixed 1),
    .call readIndex, .call ⟨2, ".", .primitive .print⟩]

theorem pairs_end_like_copies :
    ∃ o o', runToken { passes := 2 } (.counted pairsBody (.fixed 1))
        { stack := [.value 5, .value 7] } = some o ∧
      runTokens { passes := 2 } (unrolled readIndex pairsBody 7 5) {} = some o' ∧
      SameEnd o o' ∧ o.machine.output = "5 0 5 6 0 6 " := by
  have hrun : (runToken { passes := 2 } (.counted pairsBody (.fixed 1))
      { stack := [.value 5, .value 7] }).map (·.machine.output) = some "5 0 5 6 0 6 " := by
    decide +kernel
  obtain ⟨o, ho, houtput⟩ := Option.map_eq_some_iff.mp hrun
  have hindex : readIndex.behavior = .primitive .index := rfl
  have hstack : ({ stack := [.value 5, .value 7] } : Machine).stack = [.value 5, .value 7] := rfl
  have hleave : KeepsInside (traceToken { passes := 2 } (.counted pairsBody (.fixed 1))
      { stack := [.value 5, .value 7] }) := by
    decide +kernel
  have hdeep : cutOff (runToken { passes := 2 } (.counted pairsBody (.fixed 1))
      { stack := [.value 5, .value 7] }) = false := by
    decide +kernel
  obtain ⟨hends, -⟩ := loop_ends_like_copies hindex (by decide) hstack hleave hdeep
  obtain ⟨o', ho', hsame⟩ := hends o ho
  exact ⟨o, o', ho, ho', hsame, houtput⟩

end ForthMachine
