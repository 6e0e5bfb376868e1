import ForthMachine.Proofs.CountedLoops
import ForthMachine.Proofs.Installation

/-!
# What runs to its end

A counted loop that counts by one comes to its limit, and there are only so many numbers between
two. Apart from that, the end of a loop is up to what its passes leave on the stack. Words without
such a loop in reach run to their end, whatever the machine is, and so does every line that calls no
other words.
-/

set_option autoImplicit false

namespace ForthMachine

open Machine

mutual

/-- There is a loop, at any depth of the structures, whose end is up to the values on the stack. -/
def Token.hasOpenLoop : Token → Bool
  | .number _ => false
  | .call _ => false
  | .unresolved _ => false
  | .counted body step => step == .fromStack || Token.anyOpenLoop body
  | .branch ifTrue ifFalse => Token.anyOpenLoop ifTrue || Token.anyOpenLoop ifFalse
  | .indefinite _ _ => true
  | .leave => false
termination_by structural token => token

def Token.anyOpenLoop : List Token → Bool
  | [] => false
  | token :: tokens => Token.hasOpenLoop token || Token.anyOpenLoop tokens
termination_by structural tokens => tokens

end

def Behavior.hasOpenLoop : Behavior → Bool
  | .definition body => Token.anyOpenLoop body
  | _ => false

/-- There is no loop of that kind in the body of the word, or of a word in its reach. -/
def Word.HasClosedLoops (word : Word) : Prop :=
  ∀ other, Relation.ReflTransGen Word.Calls word other → other.behavior.hasOpenLoop = false

namespace Word.HasClosedLoops

variable {word other : Word}

theorem calls (h : word.HasClosedLoops) (hcalls : other ∈ word.calls) : other.HasClosedLoops :=
  fun _ hreaches => h _ (.head hcalls hreaches)

theorem of_calls (h : word.behavior.hasOpenLoop = false)
    (hcalls : ∀ other ∈ word.calls, other.HasClosedLoops) : word.HasClosedLoops := by
  intro other hreaches
  rcases hreaches.cases_head with rfl | ⟨called, hcalled, hreaches⟩
  · exact h
  · exact hcalls called hcalled other hreaches

end Word.HasClosedLoops

mutual

theorem Token.Sound.of_calls : ∀ {token : Token}, token.Sound → ∀ word ∈ token.calls, word.Sound
  | .call _, hsound => by
    intro word hword
    obtain rfl := List.mem_singleton.mp hword
    exact hsound.2.2
  | .counted _ _, hsound => Token.AllSound.of_calls hsound.1
  | .branch _ _, hsound => List.forall_mem_append.mpr
      ⟨Token.AllSound.of_calls hsound.1, Token.AllSound.of_calls hsound.2⟩
  | .indefinite _ _, hsound => List.forall_mem_append.mpr
      ⟨Token.AllSound.of_calls hsound.1, Token.AllSound.of_calls hsound.2⟩
  | .number _, _ | .unresolved _, _ | .leave, _ => List.forall_mem_nil _
termination_by structural token => token

theorem Token.AllSound.of_calls : ∀ {tokens : List Token}, Token.AllSound tokens →
    ∀ word ∈ Token.callsAll tokens, word.Sound
  | [], _ => List.forall_mem_nil _
  | _ :: _, hsound => List.forall_mem_append.mpr
      ⟨Token.Sound.of_calls hsound.1, Token.AllSound.of_calls hsound.2⟩
termination_by structural tokens => tokens

end

theorem Word.Sound.calls {word other : Word} (h : word.Sound) (hcalls : other ∈ word.calls) :
    other.Sound := by
  have hbehavior := h.behavior
  rw [Word.calls] at hcalls
  cases hb : word.behavior with
  | definition body =>
    rw [hb] at hbehavior hcalls
    exact Token.AllSound.of_calls hbehavior other hcalls
  | primitive _ | structural _ | readAhead _ | comment _ =>
    rw [hb] at hcalls
    cases hcalls

theorem Dictionary.Sound.knows {dictionary : Dictionary} (h : dictionary.Sound) {word : Word}
    (hword : dictionary.Knows word) : word.Sound := by
  obtain ⟨entry, hentry, hreaches⟩ := hword
  induction hreaches with
  | refl => exact h.words entry hentry
  | tail _ hcalls ih => exact ih.calls hcalls

/-- The distance between the numbers that are farthest apart. -/
def farthest : Nat :=
  (Text.Numeral.greatest - Text.Numeral.least).toNat

/-- From every machine the run comes to one outcome, whatever number of passes a loop may take, as
long as it is not less than the farthest distance. -/
def Ends (run : Nat → Run) : Prop :=
  ∀ m, ∃ o, ∀ passes, farthest ≤ passes → run passes m = some o

theorem Ends.of_run (run : Machine → Outcome Flow) : Ends fun _ m => some (run m) :=
  fun m => ⟨run m, fun _ _ => rfl⟩

theorem nested_ends {run : Nat → Run} (h : Ends run) (limit : Option Nat) :
    Ends fun passes => nested limit (run passes) := by
  intro m
  by_cases hdeep : limit.any (· ≤ m.depth) = true
  · exact ⟨.error .tooDeep m, fun passes _ => if_pos hdeep⟩
  · obtain ⟨o, ho⟩ := h { m with depth := m.depth + 1 }
    refine ⟨o.adjust fun m => { m with depth := m.depth - 1 }, fun passes hpasses => ?_⟩
    simp only [nested, if_neg hdeep, ho passes hpasses, Option.map_some]

theorem withIndex_ends {run : Nat → Run} (h : Ends run) (index : Int64) :
    Ends fun passes => withIndex index (run passes) := by
  intro m
  obtain ⟨o, ho⟩ := h { m with returns := .value index :: m.returns }
  cases o with
  | error fault m₁ =>
    exact ⟨.error fault m₁, fun passes hpasses => by simp only [withIndex, ho passes hpasses]⟩
  | ok flow m₁ =>
    cases hpop : popReturn m₁ with
    | ok _ m₂ =>
      exact ⟨.ok flow m₂, fun passes hpasses => by simp only [withIndex, ho passes hpasses, hpop]⟩
    | error fault m₂ =>
      exact ⟨.error fault m₂, fun passes hpasses => by
        simp only [withIndex, ho passes hpasses, hpop]⟩

/-- A loop that counts by one makes no more passes than its limit is above its index. The induction
is on that distance. -/
theorem countedLoop_ends {pass : Nat → Run} (h : Ends pass) (limit : Int64) {left : Nat}
    {index : Int64} (hleft : (limit.toInt - index.toInt).toNat ≤ left) (m : Machine) :
    ∃ o, ∀ passes, farthest ≤ passes → ∀ count, left ≤ count →
      countedLoop (pass passes) (.fixed 1) limit count index m = some o := by
  induction left generalizing index m with
  | zero =>
    have hreached : ¬ index < limit := by
      rw [Int64.lt_iff_toInt_lt]
      omega
    exact ⟨.ok .next m, fun passes _ count _ => countedLoop_of_not_lt hreached count⟩
  | succ left ih =>
    by_cases hlt : index < limit
    · obtain ⟨o, ho⟩ : ∃ o, ∀ passes, farthest ≤ passes →
          withIndex index (pass passes) m = some o := withIndex_ends h index m
      -- After a pass that ends with the flow `next` the index is closer to the limit.
      have hpass : ∃ o', ∀ passes, farthest ≤ passes → ∀ count, left ≤ count →
          countedLoop (pass passes) (.fixed 1) limit (count + 1) index m = some o' := by
        simp only [countedLoop, if_pos hlt]
        cases o with
        | error fault m₁ =>
          exact ⟨.error fault m₁, fun passes hpasses count _ => by simp only [ho passes hpasses]⟩
        | ok flow m₁ =>
          cases flow with
          | leave =>
            exact ⟨.ok .next m₁, fun passes hpasses count _ => by simp only [ho passes hpasses]⟩
          | quit =>
            exact ⟨.ok .quit m₁, fun passes hpasses count _ => by simp only [ho passes hpasses]⟩
          | next =>
            obtain ⟨next, hnext, hsum, -⟩ := indicesBelow_of_lt hlt
            have hcloser : (limit.toInt - next.toInt).toNat ≤ left := by omega
            obtain ⟨o', ho'⟩ := ih hcloser m₁
            refine ⟨o', fun passes hpasses count hcount => ?_⟩
            simp only [ho passes hpasses, Step.size, pure, EStateM.pure, hnext]
            exact ho' passes hpasses count hcount
      obtain ⟨o', ho'⟩ := hpass
      refine ⟨o', fun passes hpasses count hcount => ?_⟩
      obtain ⟨count, rfl⟩ := Nat.exists_eq_succ_of_ne_zero
        (Nat.ne_of_gt (Nat.lt_of_lt_of_le (Nat.succ_pos left) hcount))
      exact ho' passes hpasses count (by omega)
    · exact ⟨.ok .next m, fun passes _ count _ => countedLoop_of_not_lt hlt count⟩

theorem distance_le_farthest (limit index : Int64) :
    (limit.toInt - index.toInt).toNat ≤ farthest := by
  have hmost : limit.toInt ≤ Text.Numeral.greatest := limit.toInt_le
  have hleast : Text.Numeral.least ≤ index.toInt := index.minValue_le_toInt
  unfold farthest
  omega

theorem Ends.andThen {first rest : Nat → Run} (hfirst : Ends first) (hrest : Ends rest) :
    Ends fun passes m =>
      match first passes m with
      | some (.ok .next m) => rest passes m
      | stopped => stopped := by
  intro m
  obtain ⟨o, ho⟩ := hfirst m
  cases o with
  | error fault m₁ => exact ⟨.error fault m₁, fun passes hpasses => by simp only [ho passes hpasses]⟩
  | ok flow m₁ =>
    cases flow with
    | leave => exact ⟨.ok .leave m₁, fun passes hpasses => by simp only [ho passes hpasses]⟩
    | quit => exact ⟨.ok .quit m₁, fun passes hpasses => by simp only [ho passes hpasses]⟩
    | next =>
      obtain ⟨o', ho'⟩ := hrest m₁
      exact ⟨o', fun passes hpasses => by simp only [ho passes hpasses, ho' passes hpasses]⟩

theorem counted_ends {nesting : Option Nat} {body : List Token}
    (h : Ends fun passes => runTokens { passes, nesting } body) :
    Ends fun passes => runToken { passes, nesting } (.counted body (.fixed 1)) := by
  intro m
  cases hpop : popValues 2 m with
  | error fault m₁ => exact ⟨.error fault m₁, fun passes _ => by simp only [runToken, hpop]⟩
  | ok limits m₁ =>
    have hpasses := distance_le_farthest limits[0] limits[1]
    obtain ⟨o, ho⟩ := countedLoop_ends (nested_ends h nesting) limits[0] hpasses m₁
    refine ⟨o, fun passes hbound => ?_⟩
    simp only [runToken, hpop]
    exact ho passes hbound passes hbound

theorem branch_ends {nesting : Option Nat} {ifTrue ifFalse : List Token}
    (hifTrue : Ends fun passes => runTokens { passes, nesting } ifTrue)
    (hifFalse : Ends fun passes => runTokens { passes, nesting } ifFalse) :
    Ends fun passes => runToken { passes, nesting } (.branch ifTrue ifFalse) := by
  intro m
  cases hpop : pop m with
  | error fault m₁ => exact ⟨.error fault m₁, fun passes _ => by simp only [runToken, hpop]⟩
  | ok choice m₁ =>
    simp only [runToken, hpop]
    split
    · exact nested_ends hifTrue nesting m₁
    · exact nested_ends hifFalse nesting m₁

section Tokens

variable (nesting : Option Nat)

mutual

/-- A token without open loops ends if the words that it calls have none in reach. -/
theorem runToken_ends : ∀ {token : Token}, token.Sound → token.hasOpenLoop = false →
    (∀ word ∈ token.calls, word.HasClosedLoops) →
    Ends fun passes => runToken { passes, nesting } token
  | .number _, _, _, _ => .of_run _
  | .call _, hsound, _, hcalls => callWord_ends hsound.2.2 (hcalls _ List.mem_cons_self)
  | .unresolved _, hsound, _, _ => hsound.elim
  | .counted body step, hsound, hloops, hcalls => by
    simp only [Token.hasOpenLoop, Bool.or_eq_false_iff, beq_eq_false_iff_ne] at hloops
    obtain ⟨hbody, rfl | rfl⟩ := hsound
    · exact counted_ends (runTokens_ends hbody hloops.2 hcalls)
    · exact absurd rfl hloops.1
  | .branch _ _, hsound, hloops, hcalls => by
    simp only [Token.hasOpenLoop, Bool.or_eq_false_iff] at hloops
    obtain ⟨hifTrue, hifFalse⟩ := List.forall_mem_append.mp hcalls
    exact branch_ends (runTokens_ends hsound.1 hloops.1 hifTrue)
      (runTokens_ends hsound.2 hloops.2 hifFalse)
  | .leave, _, _, _ => .of_run _
termination_by structural token => token

theorem callWord_ends : ∀ {word : Word}, word.Sound → word.HasClosedLoops →
    Ends fun passes => callWord { passes, nesting } word
  | ⟨_, _, _⟩, hsound, hloops => fun _ =>
    runBehavior_ends hsound.2 (hloops _ .refl) (fun _ hcalls => hloops.calls hcalls) _
termination_by structural word => word

theorem runBehavior_ends {name : String} : ∀ {behavior : Behavior}, behavior.SoundAs name →
    behavior.hasOpenLoop = false → (∀ word ∈ behavior.calls, word.HasClosedLoops) →
    Ends fun passes => runBehavior { passes, nesting } name behavior
  | .definition _, hsound, hloops, hcalls =>
    nested_ends (runTokens_ends hsound hloops hcalls) nesting
  | .primitive _, _, _, _ | .structural _, _, _, _ | .readAhead _, _, _, _
  | .comment _, _, _, _ => .of_run _
termination_by structural behavior => behavior

theorem runTokens_ends : ∀ {tokens : List Token}, Token.AllSound tokens →
    Token.anyOpenLoop tokens = false → (∀ word ∈ Token.callsAll tokens, word.HasClosedLoops) →
    Ends fun passes => runTokens { passes, nesting } tokens
  | [], _, _, _ => .of_run _
  | _ :: _, hsound, hloops, hcalls => by
    simp only [Token.anyOpenLoop, Bool.or_eq_false_iff] at hloops
    obtain ⟨hfirst, hrest⟩ := List.forall_mem_append.mp hcalls
    exact (runToken_ends hsound.1 hloops.1 hfirst).andThen
      (runTokens_ends hsound.2 hloops.2 hrest)
termination_by structural tokens => tokens

end

end Tokens

/-- When the machine reads the line, it becomes `before`, and comes to the word. -/
def Meets (m : Machine) (line : String) (before : Machine) (word : String) : Prop :=
  ∃ passes rest, Advances { passes } (m.reading line) before ∧
    Text.nextWord before.input = (some word, rest)

/-- The line calls no words with open loops in reach. Words that are compiled are not called. -/
def CallsClosedLoops (m : Machine) (line : String) : Prop :=
  ∀ before word called, Meets m line before word → before.mode = .immediate →
    classify before.dictionary word = .call called → called.HasClosedLoops

/-- Every word of the line joins a definition, or opens one. -/
def OnlyCompiles (m : Machine) (line : String) : Prop :=
  ∀ before word, Meets m line before word →
    before.mode = .compile ∨ before.dictionary.readAhead? word = some .colon

theorem Word.hasClosedLoops_of_readAhead {word : Word} {r : ReadAhead}
    (h : word.behavior = .readAhead r) : word.HasClosedLoops := by
  refine .of_calls ?_ ?_
  · rw [h]
    rfl
  · rw [Word.calls, h]
    exact List.forall_mem_nil _

theorem OnlyCompiles.callsClosedLoops {m : Machine} {line : String} (h : OnlyCompiles m line) :
    CallsClosedLoops m line := by
  intro before word called hmeets hmode hclassify
  rcases h before word hmeets with hcompile | hcolon
  · rw [hcompile] at hmode
    cases hmode
  · rw [Dictionary.readAhead?, find?_of_classify hclassify, Option.bind_some] at hcolon
    cases hb : called.behavior with
    | readAhead r => exact Word.hasClosedLoops_of_readAhead hb
    | primitive _ | structural _ | comment _ | definition _ =>
      rw [hb] at hcolon
      cases hcolon

theorem interpret_ends {nesting : Option Nat} {token : Token} {m : Machine}
    (h : ∀ word, token = .call word → word.Sound ∧ word.HasClosedLoops) :
    ∃ o, ∀ passes, farthest ≤ passes → interpret { passes, nesting } token m = some o := by
  cases token with
  | call word =>
    by_cases hruns : word.behavior.Runs
    · obtain ⟨hsound, hloops⟩ := h word rfl
      obtain ⟨o, ho⟩ : ∃ o, ∀ passes, farthest ≤ passes →
          callWord { passes, nesting } word m = some o := callWord_ends nesting hsound hloops m
      refine ⟨outsideLoops o, fun passes hpasses => ?_⟩
      rw [interpret_call_of_runs _ hruns, ho passes hpasses, Option.map_some]
    · cases hb : word.behavior with
      | primitive _ | definition _ => simp [hb, Behavior.Runs] at hruns
      | structural _ | readAhead _ | comment _ =>
        simp only [interpret, hb]
        exact ⟨_, fun _ _ => rfl⟩
  | number _ | unresolved _ | counted _ _ | branch _ _ | indefinite _ _ | leave =>
    exact ⟨_, fun _ _ => rfl⟩

theorem Steady.dispatch_ends {m : Machine} (hm : Steady m) {word : String}
    (hcalls : m.mode = .immediate → ∀ called, classify m.dictionary word = .call called →
      called.HasClosedLoops) :
    ∃ o, ∀ passes, farthest ≤ passes → ForthMachine.dispatch { passes } word m = some o := by
  cases hmode : m.mode with
  | immediate =>
    simp only [dispatch_of_immediate hmode]
    refine interpret_ends fun called hclassify => ?_
    exact ⟨hm.dictionary.find? (find?_of_classify hclassify), hcalls hmode called hclassify⟩
  | compile =>
    simp only [dispatch_of_compile hmode]
    exact ⟨_, fun _ _ => rfl⟩

theorem length_dispatch_lt {bounds : Bounds} {m : Machine} {word : String} {rest : List Char}
    {o : Outcome Flow} (hnext : Text.nextWord m.input = (some word, rest))
    (hrun : dispatch bounds word { m with input := rest } = some o) :
    o.machine.input.length < m.input.length :=
  Nat.lt_of_le_of_lt (dispatch_reads bounds word hrun).length_le (Text.length_nextWord_lt hnext)

theorem Advances.length_le {bounds : Bounds} {m m₁ : Machine} (h : Advances bounds m m₁) :
    m₁.input.length ≤ m.input.length := by
  induction h with
  | refl => exact Nat.le_refl _
  | word before read taken goesOn ih =>
    exact Nat.le_trans (Nat.le_of_lt (length_dispatch_lt read taken)) ih

theorem Steady.runInput_ends {n : Nat} {m : Machine} (hn : m.input.length ≤ n) (hm : Steady m)
    (hcalls : ∀ before word rest called, Advances { passes := farthest } m before →
      Text.nextWord before.input = (some word, rest) → before.mode = .immediate →
        classify before.dictionary word = .call called → called.HasClosedLoops) :
    ∃ o, ∀ passes, farthest ≤ passes → ForthMachine.runInput { passes } m = some o := by
  -- Every word takes some of the text that is left.
  induction n generalizing m with
  | zero =>
    have hnil : m.input = [] := List.length_eq_zero_iff.mp (Nat.le_zero.mp hn)
    have hwords : Text.words m.input = [] := by rw [hnil, Text.words_nil]
    exact ⟨_, fun _ _ => runInput_of_nil hwords⟩
  | succ n ih =>
    rcases hnext : Text.nextWord m.input with ⟨word, rest⟩
    cases word with
    | none => exact ⟨_, fun _ _ => runInput_of_nil (Text.words_of_nextWord_none hnext)⟩
    | some word =>
      obtain ⟨o, ho⟩ := (hm.withInput rest).dispatch_ends fun hmode called =>
        hcalls m word rest called .refl hnext hmode
      have hfirst := ho farthest (Nat.le_refl _)
      have hlt := length_dispatch_lt hnext hfirst
      simp only [runInput_of_nextWord hnext]
      by_cases hstops : o.Stops
      · refine ⟨o, fun passes hpasses => ?_⟩
        rw [ho passes hpasses, Option.bind_some, resume_of_stops _ hstops]
      · cases o with
        | error fault m₁ => exact absurd trivial hstops
        | ok flow m₁ =>
          obtain ⟨o', ho'⟩ := ih (m := m₁) (Nat.le_of_lt_succ (Nat.lt_of_lt_of_le hlt hn))
            ((hm.withInput rest).dispatch hfirst) fun before word rest called hadvances =>
              hcalls before word rest called
                ((Advances.refl.word hnext hfirst hstops).trans hadvances)
          refine ⟨o', fun passes hpasses => ?_⟩
          rw [ho passes hpasses, Option.bind_some]
          cases flow with
          | quit => exact absurd rfl hstops
          | next | leave => exact ho' passes hpasses

theorem Steady.evaluate_ends {m : Machine} (hm : Steady m) {line : String}
    (h : CallsClosedLoops m line) :
    ∃ a, ∀ passes, farthest ≤ passes → ForthMachine.evaluate { passes } m line = some a := by
  have hcalls : ∀ before word rest called,
      Advances { passes := farthest } (m.reading line) before →
        Text.nextWord before.input = (some word, rest) → before.mode = .immediate →
          classify before.dictionary word = .call called → called.HasClosedLoops :=
    fun before word rest called hadvances hnext =>
      h before word called ⟨farthest, rest, hadvances, hnext⟩
  obtain ⟨o, ho⟩ := (hm.reading line).runInput_ends (Nat.le_refl _) hcalls
  exact ⟨answer o, fun passes hpasses => congrArg (Option.map answer) (ho passes hpasses)⟩

/-- Only open loops can run on for ever. Every word of a machine calls words that were installed
before it, so serial numbers, which tell the words apart, fall along all calls and no word leads to
itself. A word without open
loops in reach comes to an end, whatever the machine is that calls it, and so does a line that calls
only such words, or compiles only; every word of a line takes characters from it. -/
theorem only_open_loops_run_on {m : Machine} (hm : Reachable m) :
    m.dictionary.Layered ∧
      (∀ word other, m.dictionary.Knows word → word.Reaches other → other.serial < word.serial) ∧
      (∀ word other, m.dictionary.Knows word → m.dictionary.Knows other →
        word.serial = other.serial → word = other) ∧
      (∀ word nesting, m.dictionary.Knows word → word.HasClosedLoops →
        Ends fun passes => callWord { passes, nesting } word) ∧
      (∀ line, CallsClosedLoops m line ∨ OnlyCompiles m line →
        ∃ a, ∀ passes, farthest ≤ passes → evaluate { passes } m line = some a) ∧
      ∀ (bounds : Bounds) (before : Machine) (word : String) (rest : List Char)
        (o : Outcome Flow), Text.nextWord before.input = (some word, rest) →
          dispatch bounds word { before with input := rest } = some o →
            o.machine.input.length < before.input.length := by
  have hsteady := steady_of_reachable hm
  have hlayered := (layered_of_reachable hm).dictionary
  refine ⟨hlayered, fun word other => hlayered.serial_lt_of_reaches,
    fun word other => hlayered.eq_of_serial, ?_, ?_, ?_⟩
  · intro word nesting hword hloops
    exact callWord_ends nesting (hsteady.dictionary.knows hword) hloops
  · intro line hline
    exact hsteady.evaluate_ends (hline.elim id OnlyCompiles.callsClosedLoops)
  · intro bounds before word rest o
    exact length_dispatch_lt

theorem Meets.of_last {m before : Machine} {line word last : String} (h : Meets m line before word)
    (hlast : Text.nextWord line.toList = (some last, [])) :
    before = m.reading line ∧ word = last := by
  obtain ⟨passes, rest, hadvances, hnext⟩ := h
  rcases hadvances.cases_first with rfl | ⟨first, text, flow, m₁, hfirst, htaken, -, hmore⟩
  · have hsame := hnext.symm.trans hlast
    exact ⟨rfl, Option.some.inj (congrArg Prod.fst hsame)⟩
  · have htext : text = [] := congrArg Prod.snd (hfirst.symm.trans hlast)
    have hend : before.input.length ≤ text.length :=
      Nat.le_trans hmore.length_le (dispatch_reads _ _ htaken).length_le
    rw [htext] at hend
    exact absurd (Text.length_nextWord_lt hnext) (Nat.not_lt_of_le (Nat.le_trans hend (Nat.zero_le _)))

theorem Word.hasClosedLoops_of_calls_nil {word : Word} (h : word.behavior.hasOpenLoop = false)
    (hcalls : word.calls = []) : word.HasClosedLoops :=
  .of_calls h (hcalls ▸ List.forall_mem_nil _)

/-- A word that adds up the indices of a counted loop comes to an end, and so does a line that calls
it. -/
theorem sum_of_indices_ends : ∃ m sum, Reachable m ∧ m.dictionary.find? "SUM" = some sum ∧
    (Ends fun passes => callWord { passes } sum) ∧
      ∃ a, ∀ passes, farthest ≤ passes → evaluate { passes } m "SUM" = some a := by
  have hline : ((evaluate { passes := 0 } Machine.new ": SUM 0 10 0 DO I + LOOP ;").any
      fun a => (a.2.dictionary.find? "SUM").any fun sum =>
        !sum.behavior.hasOpenLoop && sum.calls.all fun other =>
          !other.behavior.hasOpenLoop && other.calls.isEmpty) = true := by
    decide +kernel
  obtain ⟨⟨response, m⟩, hanswered, hfound⟩ := (Option.any_eq_true _ _).mp hline
  obtain ⟨sum, hfind, hsum⟩ := (Option.any_eq_true _ _).mp hfound
  simp only [Bool.and_eq_true, Bool.not_eq_true', List.all_eq_true, List.isEmpty_iff] at hsum
  have hloops : sum.HasClosedLoops := .of_calls hsum.1 fun other hother =>
    Word.hasClosedLoops_of_calls_nil (hsum.2 other hother).1 (hsum.2 other hother).2
  have hm : Reachable m := .line 0 .new hanswered
  obtain ⟨-, -, -, hends, hlines, -⟩ := only_open_loops_run_on hm
  have hknown : m.dictionary.Knows sum :=
    Dictionary.knows_of_mem (Dictionary.mem_words_of_find? hfind)
  refine ⟨m, sum, hm, hfind, hends sum (some maxDepth) hknown hloops, hlines "SUM" (.inl ?_)⟩
  intro before word called hmeets _ hclassify
  have hlast : Text.nextWord "SUM".toList = (some "SUM", []) := rfl
  obtain ⟨rfl, rfl⟩ := hmeets.of_last hlast
  obtain rfl : sum = called := Option.some.inj (hfind.symm.trans (find?_of_classify hclassify))
  exact hloops

end ForthMachine
