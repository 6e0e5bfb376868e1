import ForthMachine.Proofs.Records
import ForthMachine.Proofs.Runs

/-!
# The count of nested runs

The depth of a machine counts the nested runs under way: one more when a nested run begins, and one
less when it ends. A run that returns leaves the depth as it found it, however it ends. On the
way the count stays within the limit, and there is always one to take off when a run ends.

What is said of the way is said of the record of the run, with the depth that each observation
finds. A record also tells of runs that fail or are given up.
-/

set_option autoImplicit false

namespace ForthMachine

open Machine

/-- The observations lead from one depth to another. Each of them finds the depth that the ones
before it lead to; a run begins only where there is room for it, and ends only at a depth that can
be lowered. -/
inductive Leads (limit : Option Nat) : Nat → List Observation → Nat → Prop where
  | nil (depth : Nat) : Leads limit depth [] depth
  | taken {depth last : Nat} {event : Event} {seen : List Observation}
      (found : event.machine.depth = depth) (rest : Leads limit depth seen last) :
      Leads limit depth (.taken event :: seen) last
  | begins {depth last : Nat} {seen : List Observation} (room : ¬ limit.any (· ≤ depth))
      (rest : Leads limit (depth + 1) seen last) :
      Leads limit depth (.begins depth :: seen) last
  | ends {depth last : Nat} {seen : List Observation} (rest : Leads limit depth seen last) :
      Leads limit (depth + 1) (.ends (depth + 1) :: seen) last

/-- The depth is at most the limit when a token is taken up, and before and after it changes, and
nothing is taken off zero. -/
def Observation.InRange (limit : Nat) : Observation → Prop
  | taken event => event.machine.depth ≤ limit
  | begins found => found + 1 ≤ limit
  | ends found => 0 < found ∧ found ≤ limit

namespace Leads

variable {limit : Option Nat} {depth mid last : Nat} {seen rest : List Observation}

theorem append (h : Leads limit depth seen mid) (hrest : Leads limit mid rest last) :
    Leads limit depth (seen ++ rest) last := by
  induction h with
  | nil => exact hrest
  | taken found _ ih => exact .taken found (ih hrest)
  | begins room _ ih => exact .begins room (ih hrest)
  | ends _ ih => exact .ends (ih hrest)

theorem inside (h : Leads limit depth seen last) (loop : Loop) :
    Leads limit depth (seen.map (.inside loop)) last := by
  induction h with
  | nil => exact .nil _
  | taken found _ ih => exact .taken found ih
  | begins room _ ih => exact .begins room ih
  | ends _ ih => exact .ends ih

theorem inRange {limit : Nat} (h : Leads (some limit) depth seen last) (hdepth : depth ≤ limit) :
    ∀ observation ∈ seen, observation.InRange limit := by
  induction h with
  | nil => simp
  | taken found _ ih =>
    exact List.forall_mem_cons.mpr ⟨Nat.le_trans (Nat.le_of_eq found) hdepth, ih hdepth⟩
  | @begins depth last seen room _ ih =>
    have hroom : depth + 1 ≤ limit := by
      rw [Option.any_some, decide_eq_true_eq] at room
      omega
    exact List.forall_mem_cons.mpr ⟨hroom, ih hroom⟩
  | @ends depth last seen _ ih =>
    exact List.forall_mem_cons.mpr
      ⟨⟨Nat.succ_pos depth, hdepth⟩, ih (Nat.le_of_succ_le hdepth)⟩

end Leads

/-- The record counts along from machine `m`. If the run returns, the observations lead back to
the depth it began with, and that is the depth of the machine it leaves. -/
def Counts (limit : Option Nat) (m : Machine) (record : Record) : Prop :=
  ∃ last, Leads limit m.depth record.seen last ∧
    ∀ {o : Outcome Flow}, record.outcome = some o → last = m.depth ∧ o.machine.depth = m.depth

namespace Counts

variable {limit : Option Nat} {m m' : Machine} {first second : Record} {seen : List Observation}

theorem givenUp (m : Machine) : Counts limit m (.ended none) :=
  ⟨m.depth, .nil _, nofun⟩

theorem returned {o : Outcome Flow} (h : o.machine.depth = m.depth) :
    Counts limit m (.ended (some o)) := by
  refine ⟨m.depth, .nil _, ?_⟩
  rintro o' ⟨⟩
  exact ⟨rfl, h⟩

theorem along (hdepth : m'.depth = m.depth) (h : Counts limit m' first) :
    Counts limit m first := by
  unfold Counts at h ⊢
  rwa [← hdepth]

theorem taking (h : Counts limit m first) (token : Token) :
    Counts limit m (first.taking token m) := by
  obtain ⟨last, hleads, hback⟩ := h
  exact ⟨last, .taken rfl hleads, hback⟩

theorem inside (h : Counts limit m first) (loop : Loop) : Counts limit m (first.inside loop) := by
  obtain ⟨last, hleads, hback⟩ := h
  exact ⟨last, hleads.inside loop, hback⟩

theorem append {o : Outcome Flow} (hfirst : Counts limit m ⟨seen, some o⟩)
    (hsecond : Counts limit o.machine second) :
    Counts limit m ⟨seen ++ second.seen, second.outcome⟩ := by
  obtain ⟨last, hleads, hback⟩ := hfirst
  obtain ⟨rfl, hdepth⟩ := hback rfl
  obtain ⟨last, hleads', hback'⟩ := hsecond.along hdepth
  exact ⟨last, hleads.append hleads', hback'⟩

theorem caught (hfirst : Counts limit m ⟨seen, some (.ok .leave m')⟩) :
    Counts limit m ⟨seen, some (.ok .next m')⟩ := by
  obtain ⟨last, hleads, hback⟩ := hfirst
  obtain ⟨hlast, hdepth⟩ := hback rfl
  refine ⟨last, hleads, ?_⟩
  rintro o ⟨⟩
  exact ⟨hlast, hdepth⟩

variable {next recorder condition body : Recorder}

theorem andThen (hfirst : Counts limit m first) (hnext : ∀ m, Counts limit m (next m)) :
    Counts limit m (first.andThen next) := by
  obtain ⟨seen, o⟩ := first
  unfold Record.andThen
  rcases o with - | ⟨flow, m₁⟩ | ⟨fault, m₁⟩
  · exact hfirst
  · cases flow with
    | next => exact hfirst.append (hnext m₁)
    | leave | quit => exact hfirst
  · exact hfirst

theorem andThenInLoop (hfirst : Counts limit m first) (hnext : ∀ m, Counts limit m (next m)) :
    Counts limit m (first.andThenInLoop next) := by
  obtain ⟨seen, o⟩ := first
  unfold Record.andThenInLoop
  rcases o with - | ⟨flow, m₁⟩ | ⟨fault, m₁⟩
  · exact hfirst
  · cases flow with
    | next => exact hfirst.append (hnext m₁)
    | leave => exact hfirst.caught
    | quit => exact hfirst
  · exact hfirst

theorem behind {α : Type} {result : Outcome α} {next : α → Recorder}
    (hdepth : result.machine.depth = m.depth) (hnext : ∀ a m, Counts limit m (next a m)) :
    Counts limit m (.behind result next) := by
  cases result with
  | ok a m₁ => exact (hnext a m₁).along hdepth
  | error fault m₁ => exact returned hdepth

theorem nested (hrun : ∀ m, Counts limit m (recorder m)) (m : Machine) :
    Counts limit m (recordNested limit recorder m) := by
  unfold recordNested
  split
  · exact returned rfl
  · rename_i hroom
    obtain ⟨last, hleads, hback⟩ := hrun { m with depth := m.depth + 1 }
    generalize recorder { m with depth := m.depth + 1 } = inner at hleads hback
    obtain ⟨seen, o⟩ := inner
    cases o with
    | none => exact ⟨last, .begins hroom (hleads.append (.nil _)), nofun⟩
    | some o =>
      obtain ⟨rfl, hdepth⟩ := hback rfl
      have hends : Leads limit (m.depth + 1) [.ends o.machine.depth] m.depth := by
        rw [show o.machine.depth = m.depth + 1 from hdepth]
        exact .ends (.nil _)
      refine ⟨m.depth, .begins hroom (hleads.append hends), ?_⟩
      rintro o' ⟨⟩
      cases o <;> exact ⟨rfl, congrArg (· - 1) hdepth⟩

theorem withIndex (hrun : ∀ m, Counts limit m (recorder m)) (index : Int64) (m : Machine) :
    Counts limit m (recordIndex index recorder m) := by
  have hpass := (hrun { m with returns := .value index :: m.returns }).inside (.counted index)
  unfold recordIndex
  generalize (recorder { m with returns := .value index :: m.returns }).inside (.counted index) =
    pass at hpass
  obtain ⟨seen, o⟩ := pass
  obtain ⟨last, hleads, hback⟩ := hpass
  refine ⟨last, hleads, ?_⟩
  rcases o with - | ⟨flow, m₁⟩ | ⟨fault, m₁⟩
  · nofun
  · obtain ⟨hlast, hdepth⟩ := hback rfl
    have hpop := (undisturbed_stepLaw.popReturn m₁).depth
    dsimp only
    generalize popReturn m₁ = popped at hpop
    cases popped <;> rintro o ⟨⟩ <;> exact ⟨hlast, hpop.trans hdepth⟩
  · exact hback

theorem countedLoop (hrun : ∀ m, Counts limit m (recorder m)) (step : Step) (farthest : Int64)
    (passes : Nat) (index : Int64) (m : Machine) :
    Counts limit m (recordCounted recorder step farthest passes index m) := by
  induction passes generalizing index m with
  | zero =>
    unfold recordCounted
    split
    · exact givenUp m
    · exact returned rfl
  | succ passes ih =>
    simp only [recordCounted]
    split
    · refine (withIndex hrun index m).andThenInLoop fun m₁ => ?_
      refine behind (undisturbed_stepLaw.size step m₁).depth fun size m₂ => ?_
      cases addInRange? index size with
      | none => exact returned rfl
      | some next => exact ih next m₂
    · exact returned rfl

theorem indefiniteLoop (hcondition : ∀ m, Counts limit m (condition m))
    (hbody : ∀ m, Counts limit m (body m)) (passes : Nat) (m : Machine) :
    Counts limit m (recordIndefinite condition body passes m) := by
  induction passes generalizing m with
  | zero => exact givenUp m
  | succ passes ih =>
    refine ((hcondition m).inside .indefinite).andThenInLoop fun m₁ => ?_
    refine behind (undisturbed_stepLaw.pop m₁).depth fun goOn m₂ => ?_
    split
    · exact returned rfl
    · exact ((hbody m₂).inside .indefinite).andThenInLoop ih

end Counts

mutual

theorem recordToken_counts (bounds : Bounds) : ∀ (token : Token) (m : Machine),
    Counts bounds.nesting m (recordToken bounds token m)
  | .number n, m => Counts.taking (.returned (m := m) rfl) (.number n)
  | .call word, m => (recordCall_counts bounds word m).taking (.call word)
  | .unresolved name, m => Counts.taking (.returned (m := m) rfl) (.unresolved name)
  | .counted body step, m =>
    (Counts.behind (undisturbed_stepLaw.popValues 2 m).depth fun _ =>
      .countedLoop (.nested (recordTokens_counts bounds body)) step _ _ _).taking _
  | .branch ifTrue ifFalse, m => by
    refine Counts.taking (.behind (undisturbed_stepLaw.pop m).depth fun choice m₁ => ?_) _
    split
    · exact .nested (recordTokens_counts bounds ifTrue) m₁
    · exact .nested (recordTokens_counts bounds ifFalse) m₁
  | .indefinite condition body, m =>
    (Counts.indefiniteLoop (.nested (recordTokens_counts bounds condition))
      (.nested (recordTokens_counts bounds body)) _ m).taking _
  | .leave, m => Counts.taking (.returned (m := m) rfl) .leave
termination_by structural token => token

theorem recordCall_counts (bounds : Bounds) : ∀ (word : Word) (m : Machine),
    Counts bounds.nesting m (recordCall bounds word m)
  | ⟨_, name, behavior⟩, m =>
    (recordBehavior_counts bounds name behavior
      (m.note ⟨.debug, "call", name, some (.number m.depth)⟩)).along rfl
termination_by structural word => word

theorem recordBehavior_counts (bounds : Bounds) (name : String) :
    ∀ (behavior : Behavior) (m : Machine),
      Counts bounds.nesting m (recordBehavior bounds name behavior m)
  | .primitive p, m => .returned (undisturbed_stepLaw.primitive p m).depth
  | .definition body, m => .nested (recordTokens_counts bounds body) m
  | .structural _, _ => .returned rfl
  | .readAhead _, _ => .returned rfl
  | .comment _, _ => .returned rfl
termination_by structural behavior => behavior

theorem recordTokens_counts (bounds : Bounds) : ∀ (tokens : List Token) (m : Machine),
    Counts bounds.nesting m (recordTokens bounds tokens m)
  | [], _ => .returned rfl
  | token :: tokens, m =>
    (recordToken_counts bounds token m).andThen (recordTokens_counts bounds tokens)
termination_by structural tokens => tokens

end

/-- What becomes of the depth in a run from machine `m` with this outcome. The record is one of
that run. -/
structure Balanced (limit : Nat) (m : Machine) (record : Record) (o : Option (Outcome Flow)) :
    Prop where
  outcome : record.outcome = o
  /-- Whatever the run comes to, a flow or a fault. -/
  returned : ∀ {o' : Outcome Flow}, o = some o' → o'.machine.depth = m.depth
  followed : ∃ last, Leads (some limit) m.depth record.seen last ∧ (o.isSome → last = m.depth)
  inRange : m.depth ≤ limit → ∀ observation ∈ record.seen, observation.InRange limit

theorem Counts.balanced {limit : Nat} {m : Machine} {record : Record} {o : Option (Outcome Flow)}
    {events : List Event} (h : Counts (some limit) m record) (hof : record.Of o events) :
    Balanced limit m record o := by
  obtain ⟨last, hleads, hback⟩ := h
  rw [hof.outcome] at hback
  refine ⟨hof.outcome, fun ho => (hback ho).2, ⟨last, hleads, fun hsome => ?_⟩, hleads.inRange⟩
  obtain ⟨o', ho⟩ := Option.isSome_iff_exists.mp hsome
  exact (hback ho).1

/-- Lists of tokens, single tokens and words leave the depth as they find it, and on the way it
neither exceeds the limit nor falls below zero. -/
theorem depth_is_balanced (passes : Nat) (m : Machine) :
    (∀ tokens : List Token, Balanced maxDepth m (recordExecute { passes } tokens m)
        (execute { passes } tokens m)) ∧
      (∀ token : Token, Balanced maxDepth m (recordToken { passes } token m)
        (runToken { passes } token m)) ∧
      ∀ word : Word, Balanced maxDepth m (recordCall { passes } word m)
        (callWord { passes } word m) := by
  refine ⟨fun tokens => ?_, fun token => ?_, fun word => ?_⟩
  · have hcounts := Counts.nested (recordTokens_counts { passes } tokens) m
    exact hcounts.balanced (recordExecute_of { passes } tokens m)
  · exact (recordToken_counts { passes } token m).balanced (recordToken_of { passes } token m)
  · exact (recordCall_counts { passes } word m).balanced (recordCall_of { passes } word m)

/-- The depth before each change of it, and after it. -/
def Observation.change? : Observation → Option (Nat × Nat)
  | taken _ => none
  | begins found => some (found, found + 1)
  | ends found => some (found, found - 1)

/-- The inner branch finds no room for its run. The fault leaves the two runs around it, and both
are taken off the count. -/
theorem depth_is_balanced_at_limit :
    ∃ (tokens : List Token) (m : Machine), m.depth = 254 ∧
      (recordExecute { passes := 0 } tokens m).seen.filterMap Observation.change? =
        [(254, 255), (255, 256), (256, 255), (255, 254)] ∧
      (∀ observation ∈ (recordExecute { passes := 0 } tokens m).seen,
        observation.InRange maxDepth) ∧
      ∃ m', execute { passes := 0 } tokens m = some (.error .tooDeep m') ∧ m'.depth = 254 := by
  let tokens : List Token := [.branch [.branch [.number 7] []] []]
  let m : Machine := { stack := [.value 1, .value 1], depth := 254 }
  obtain ⟨hexecute, -⟩ := depth_is_balanced 0 m
  have hbalanced := hexecute tokens
  have hfails : execute { passes := 0 } tokens m =
      some (.error .tooDeep { m with stack := [] }) := rfl
  exact ⟨tokens, m, rfl, rfl, hbalanced.inRange (by decide), _, hfails, hbalanced.returned hfails⟩

end ForthMachine
