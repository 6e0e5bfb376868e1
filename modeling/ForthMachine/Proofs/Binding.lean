import ForthMachine.Proofs.Lockstep
import ForthMachine.Proofs.Shape

/-!
# Early binding

A name means what it means when its word is compiled: the token of a call holds the word it calls.
So a run looks at the dictionary only where it lists the names, and what is defined later, be it
under a name that was there before, changes no word that was compiled.
-/

set_option autoImplicit false

namespace ForthMachine

open Machine

/-- A listing of the names is in reach of the word. -/
def Word.Lists (word : Word) : Prop :=
  word.callsOnly (· ≠ .words) = false

theorem Word.not_lists (word : Word) (h : word.callsOnly (· ≠ .words) = true) : ¬ word.Lists := by
  rw [Word.Lists, h]
  exact Bool.noConfusion

/-- The text that the names are listed in. -/
def Dictionary.listing (dictionary : Dictionary) : String :=
  String.join (dictionary.names.map (· ++ " "))

/-- The texts grow by the same pieces, but for the listings of the names, if there are any: these
are `names` in the first text and `names'` in the second. -/
inductive PrintedAlike (listing : Prop) (names names' : String) : String → String → Prop where
  | refl (text : String) : PrintedAlike listing names names' text text
  | print {text text' : String} (before : PrintedAlike listing names names' text text')
      (piece : String) : PrintedAlike listing names names' (text ++ piece) (text' ++ piece)
  | list {text text' : String} (lists : listing)
      (before : PrintedAlike listing names names' text text') :
      PrintedAlike listing names names' (text ++ names) (text' ++ names')

theorem PrintedAlike.eq {listing : Prop} {names names' text text' : String}
    (h : PrintedAlike listing names names' text text') (hlisting : ¬ listing) : text' = text := by
  induction h with
  | refl => rfl
  | print _ piece ih => rw [ih]
  | list lists => exact absurd lists hlisting

/-- The machines have their own dictionaries, and their own logs of the same level. If `listing`
holds, each may have listed its own names among what they printed. -/
def Rebound (listing : Prop) (m m' : Machine) : Prop :=
  ∃ dictionary log output, log.level = m.log.level ∧
    PrintedAlike listing m.dictionary.listing dictionary.listing m.output output ∧
    m' = { m with dictionary, log, output }

namespace Rebound

variable {listing : Prop} {m m' : Machine}

theorem ofDictionary (listing : Prop) (m : Machine) (dictionary : Dictionary) :
    Rebound listing m { m with dictionary } :=
  ⟨dictionary, m.log, m.output, rfl, .refl _, rfl⟩

theorem printed (h : Rebound listing m m') :
    PrintedAlike listing m.dictionary.listing m'.dictionary.listing m.output m'.output := by
  obtain ⟨dictionary, log, output, -, hprinted, rfl⟩ := h
  exact hprinted

theorem read {γ : Type} (h : Rebound listing m m') (f : Machine → γ)
    (hf : ∀ m dictionary log output, f { m with dictionary, log, output } = f m) : f m' = f m := by
  obtain ⟨dictionary, log, output, -, -, rfl⟩ := h
  exact hf m dictionary log output

theorem change (h : Rebound listing m m') (f : Machine → Machine)
    (hf : ∀ m dictionary log output,
      f { m with dictionary, log, output } = { f m with dictionary, log, output }) :
    Rebound listing (f m) (f m') := by
  obtain ⟨dictionary, log, output, hlevel, hprinted, rfl⟩ := h
  have hkept : f m = { f m with dictionary := m.dictionary, log := m.log, output := m.output } :=
    hf m m.dictionary m.log m.output
  refine ⟨dictionary, log, output, ?_, ?_, hf m dictionary log output⟩
  · rw [hkept]
    exact hlevel
  · rw [hkept]
    exact hprinted

theorem print (h : Rebound listing m m') (text : String) :
    Rebound listing { m with output := m.output ++ text }
      { m' with output := m'.output ++ text } := by
  obtain ⟨dictionary, log, output, hlevel, hprinted, rfl⟩ := h
  exact ⟨dictionary, log, output ++ text, hlevel, hprinted.print text, rfl⟩

theorem list (h : Rebound listing m m') (hlisting : listing) :
    Rebound listing { m with output := m.output ++ m.dictionary.listing }
      { m' with output := m'.output ++ m'.dictionary.listing } := by
  obtain ⟨dictionary, log, output, hlevel, hprinted, rfl⟩ := h
  exact ⟨dictionary, log, output ++ dictionary.listing, hlevel, hprinted.list hlisting, rfl⟩

theorem note (h : Rebound listing m m') (entry entry' : Entry) :
    Rebound listing (m.note entry) (m'.note entry') := by
  obtain ⟨dictionary, log, output, hlevel, hprinted, rfl⟩ := h
  refine ⟨dictionary, log.add entry', output, ?_, hprinted, rfl⟩
  rw [Machine.note, Log.add_level, Log.add_level]
  exact hlevel

theorem setLevel (h : Rebound listing m m') (level : Level) :
    Rebound listing { m with log := { m.log with level } }
      { m' with log := { m'.log with level } } := by
  obtain ⟨dictionary, log, output, -, hprinted, rfl⟩ := h
  exact ⟨dictionary, { log with level }, output, rfl, hprinted, rfl⟩

theorem cleared (h : Rebound listing m m') :
    Rebound False { m with output := "" } { m' with output := "" } := by
  obtain ⟨dictionary, log, output, hlevel, -, rfl⟩ := h
  exact ⟨dictionary, log, "", hlevel, .refl "", rfl⟩

end Rebound

theorem rebound_lockstep (listing : Prop) (bounds : Bounds) :
    Lockstep (· ≠ .names) bounds bounds (Rebound listing) where
  passes := rfl
  room h hroom := by
    rwa [h.read (·.depth) fun _ _ _ _ => rfl]
  stack h := h.read (·.stack) fun _ _ _ _ => rfl
  returns _ _ _ h := h.read (·.returns) fun _ _ _ _ => rfl
  names hnames := absurd rfl hnames
  withStack cells h :=
    h.change ({ · with stack := cells }) fun _ _ _ _ => rfl
  withReturns _ _ _ cells h :=
    h.change ({ · with returns := cells }) fun _ _ _ _ => rfl
  print text h := h.print text
  exit h := h.change ({ · with exiting := true }) fun _ _ _ _ => rfl
  level level h := h.setLevel level
  note entry entry' h := h.note entry entry'
  deeper h := h.change (fun m => { m with depth := m.depth + 1 }) fun _ _ _ _ => rfl
  back h := h.change (fun m => { m with depth := m.depth - 1 }) fun _ _ _ _ => rfl

theorem Primitive.access?_eq_names {p : Primitive} (h : p.access? = some .names) : p = .words := by
  cases p <;> first | rfl | cases h

/-- The names are only listed where each machine may list its own. -/
theorem rebound_simulation {listing : Prop} {allowed : Primitive → Bool}
    (hallowed : allowed .words = true → listing) (bounds : Bounds) :
    Simulation bounds bounds (fun _ => False) allowed (fun _ : Unit => Rebound listing) id :=
  have hunlisted : Simulation bounds bounds (fun _ => False) (· ≠ .words)
      (fun _ : Unit => Rebound listing) id := by
    apply (rebound_lockstep listing bounds).onReturns nofun
    · intro m m' h hfull
      right
      rwa [h.read (·.depth) fun _ _ _ _ => rfl]
    · rintro p access hp haccess rfl
      exact of_decide_eq_true hp (Primitive.access?_eq_names haccess)
  { hunlisted with
    primitive := by
      intro _ p hp
      by_cases hwords : p = .words
      · subst hwords
        intro m m' h
        exact .ok Flow.next (h.list (hallowed hp))
      · exact hunlisted.primitive (decide_eq_true hwords) }

theorem callWord_rebound (bounds : Bounds) (word : Word) {m m' : Machine}
    (h : Rebound word.Lists m m') :
    Option.Rel (Outcome.Agree (Rebound word.Lists)) (callWord bounds word m)
      (callWord bounds word m') := by
  cases hcalls : word.callsOnly (· ≠ .words) with
  | true =>
    have hlaw : Simulation bounds bounds (fun _ => False) (· ≠ .words)
        (fun _ : Unit => Rebound word.Lists) id :=
      rebound_simulation (fun hwords => absurd rfl (of_decide_eq_true hwords)) bounds
    exact (hlaw.callWord () word hcalls m m' h).exact fun _ _ _ => id
  | false =>
    have hlaw : Simulation bounds bounds (fun _ => False) (fun _ => true)
        (fun _ : Unit => Rebound word.Lists) id :=
      rebound_simulation (fun _ => hcalls) bounds
    have hall := Word.callsOnly_of_forall (fun _ => rfl) word
    exact (hlaw.callWord () word hall m m' h).exact fun _ _ _ => id

namespace Dictionary

/-- The dictionary with definitions installed, the first of them first. -/
def define (dictionary : Dictionary) (definitions : List (String × List Token)) : Dictionary :=
  definitions.foldl (fun d (name, body) => d.install name (.definition body)) dictionary

@[simp] theorem define_nil (dictionary : Dictionary) : dictionary.define [] = dictionary := rfl

theorem define_append (dictionary : Dictionary) (first rest : List (String × List Token)) :
    dictionary.define (first ++ rest) = (dictionary.define first).define rest :=
  List.foldl_append

theorem find?_define (dictionary : Dictionary) {definitions : List (String × List Token)}
    {name : String} (h : name ∉ definitions.map Prod.fst) :
    (dictionary.define definitions).find? name = dictionary.find? name := by
  induction definitions generalizing dictionary with
  | nil => rfl
  | cons definition definitions ih =>
    rw [List.map_cons, List.mem_cons, not_or] at h
    obtain ⟨hname, hothers⟩ := h
    exact (ih _ hothers).trans (dictionary.find?_install_of_ne _ (Ne.symm hname))

theorem classify_define (dictionary : Dictionary) {definitions : List (String × List Token)}
    {name : String} (h : name ∉ definitions.map Prod.fst) :
    classify (dictionary.define definitions) name = classify dictionary name := by
  unfold classify
  rw [dictionary.find?_define h]

theorem find?_of_define {dictionary : Dictionary} {definitions : List (String × List Token)}
    {name : String} {word : Word} (h : (dictionary.define definitions).find? name = some word)
    (hold : word.serial < dictionary.installed) : dictionary.find? name = some word := by
  induction definitions generalizing dictionary with
  | nil => exact h
  | cons definition definitions ih =>
    obtain ⟨other, body⟩ := definition
    have hfind : (dictionary.install other (.definition body)).find? name = some word :=
      ih h (Nat.lt_succ_of_lt hold)
    by_cases hname : other = name
    · subst hname
      rw [dictionary.find?_install_self] at hfind
      cases hfind
      exact absurd hold (Nat.lt_irrefl _)
    · rwa [dictionary.find?_install_of_ne _ hname] at hfind

theorem classify_of_define {dictionary : Dictionary} {definitions : List (String × List Token)}
    {name : String} {word : Word}
    (h : classify (dictionary.define definitions) name = .call word)
    (hold : word.serial < dictionary.installed) : classify dictionary name = .call word := by
  have hfind := find?_of_define (find?_of_classify h) hold
  cases hparse : Text.Numeral.parse name with
  | ok n => simp [classify, hparse] at h
  | error fault => exact classify_of_find? hparse hfind

end Dictionary

/-- Nothing but definitions has been added to the dictionary. -/
def Redefines (m m' : Machine) : Prop :=
  ∃ definitions, m'.dictionary = m.dictionary.define definitions

namespace Redefines

variable {m m₁ m' : Machine}

theorem of_eq (h : m'.dictionary = m.dictionary) : Redefines m m' :=
  ⟨[], h⟩

theorem trans (h : Redefines m m₁) (h' : Redefines m₁ m') : Redefines m m' := by
  obtain ⟨first, hfirst⟩ := h
  obtain ⟨rest, hrest⟩ := h'
  refine ⟨first ++ rest, ?_⟩
  rw [hrest, hfirst, Dictionary.define_append]

end Redefines

def SameWords (m m' : Machine) : Prop :=
  m'.dictionary = m.dictionary

theorem SameWords.trans (m₁ m₂ m₃ : Machine) (h : SameWords m₁ m₂) (h' : SameWords m₂ m₃) :
    SameWords m₁ m₃ :=
  Eq.trans h' h

theorem told_sameWords {effect : Action Unit} (h : Action.Obeys SameWords effect)
    (context name : String) :
    Action.Obeys SameWords
      (do tell .debug context name none; effect; return .next : Action Flow) :=
  Action.Obeys.bind SameWords SameWords.trans (fun _ => rfl) fun _ =>
    Action.Obeys.bind SameWords SameWords.trans h fun _ _ => rfl

theorem openDefinition_sameWords : Action.Obeys SameWords openDefinition := by
  refine Action.Obeys.bind SameWords SameWords.trans (fun _ => rfl) fun word => ?_
  cases word with
  | none => exact fun _ => rfl
  | some name =>
    refine Action.Obeys.bind SameWords SameWords.trans (fun _ => rfl) fun _ => ?_
    refine Action.Obeys.bind SameWords SameWords.trans (fun _ => rfl) fun _ => ?_
    intro m
    unfold openStructure
    split <;> rfl

theorem describeNextWord_sameWords : Action.Obeys SameWords describeNextWord := by
  intro m
  obtain ⟨output, hdescribed⟩ := machine_describeNextWord m
  rw [hdescribed]
  rfl

theorem interpret_sameWords (bounds : Bounds) (token : Token) :
    Run.Obeys SameWords (interpret bounds token) := by
  intro m o hrun
  have hcases := interpret_cases bounds token m
  generalize interpret bounds token m = result at hrun hcases
  cases hcases with
  | pushes _ | compileOnly _ | undefined _ | unknown _ =>
    cases hrun
    rfl
  | runs hruns =>
    obtain ⟨o', hcall, rfl⟩ := Option.map_eq_some_iff.mp hrun
    rw [machine_outsideLoops]
    exact (undisturbed_stepLaw.callWord bounds _ hcall).dictionary
  | @readsAhead _ r _ =>
    cases hrun
    cases r with
    | colon => exact told_sameWords openDefinition_sameWords _ _ m
    | see => exact told_sameWords describeNextWord_sameWords _ _ m
  | @skips _ c _ =>
    cases hrun
    cases c <;> rfl

theorem Steady.dispatch_redefines {m : Machine} (h : Steady m) {bounds : Bounds} {word : String}
    {o : Outcome Flow} (hrun : ForthMachine.dispatch bounds word m = some o) :
    Redefines m o.machine := by
  cases hmode : m.mode with
  | immediate =>
    rw [dispatch_of_immediate hmode] at hrun
    exact .of_eq (interpret_sameWords bounds _ hrun)
  | compile =>
    rw [dispatch_of_compile hmode] at hrun
    cases hrun
    obtain ⟨below, name, draft, hcompiling⟩ := h.of_compile hmode
    have hsame : m.dictionary = below.dictionary := hcompiling.drafting.dictionary
    have hcases := hcompiling.drafting.compile_cases word
    rw [hsame]
    generalize ForthMachine.compile (classify below.dictionary word) m = o at hcases ⊢
    cases hcases with
    | taken _ _ drafting _ => exact .of_eq (drafting.dictionary.trans hsame.symm)
    | skipped _ drafting _ _ _ => exact .of_eq (drafting.dictionary.trans hsame.symm)
    | failed _ dictionary _ => exact .of_eq (dictionary.trans hsame.symm)
    | @ended body m' _ _ defined _ =>
      refine ⟨[(name, body)], ?_⟩
      rw [hsame]
      exact defined.dictionary

theorem Steady.evaluate_redefines {m m' : Machine} (h : Steady m) {bounds : Bounds}
    {line response : String} (hline : ForthMachine.evaluate bounds m line = some (response, m')) :
    Redefines m m' := by
  refine evaluate_keeps (P := Redefines m) (Q := Redefines m) (fun _ _ => id) ?_ id h (.of_eq rfl)
    hline
  intro word m₁ o hsteady hsofar hrun
  exact Outcome.leaves_of_machine (hsofar.trans (hsteady.dispatch_redefines hrun)) id

/-- What a machine can become by answering more lines. -/
inductive Later (m : Machine) : Machine → Prop where
  | refl : Later m m
  | line {m₁ m₂ : Machine} {text response : String} (passes : Nat) (before : Later m m₁)
      (answered : evaluate { passes } m₁ text = some (response, m₂)) : Later m m₂

theorem Later.redefines {m m' : Machine} (hm : Steady m) (h : Later m m') :
    Steady m' ∧ Redefines m m' := by
  induction h with
  | refl => exact ⟨hm, .of_eq rfl⟩
  | line passes before answered ih =>
    obtain ⟨hsteady, hredefines⟩ := ih
    exact ⟨hsteady.evaluate answered, hredefines.trans (hsteady.evaluate_redefines answered)⟩

/-- The same response, but for listings of the names, and the same machine but for its dictionary
and its log. -/
def AnswersAlike (listing : Prop) (a a' : String × Machine) : Prop :=
  PrintedAlike listing a.2.dictionary.listing a'.2.dictionary.listing a.1 a'.1 ∧
    Rebound False a.2 a'.2

theorem answer_rebound {listing : Prop} {o o' : Outcome Flow}
    (h : Outcome.Agree (Rebound listing) o o') : AnswersAlike listing (answer o) (answer o') := by
  cases h with
  | @ok m m' flow h =>
    refine ⟨?_, h.cleared⟩
    have hmode : m'.mode = m.mode := h.read (·.mode) fun _ _ _ _ => rfl
    simp only [answer, hmode]
    exact h.printed.print _
  | @error m m' fault h =>
    have hnoted := h.note ⟨.info, "eval", "error", some (.fault fault)⟩
      ⟨.info, "eval", "error", some (.fault fault)⟩
    exact ⟨(h.printed.print " ? ").print fault.message,
      (hnoted.change abort fun _ _ _ _ => rfl).cleared⟩

theorem answer_call_rebound (bounds : Bounds) {listing : Prop} {o o' : Option (Outcome Flow)}
    (h : Option.Rel (Outcome.Agree (Rebound listing)) o o')
    (hread : ∀ {flow m}, o = some (.ok flow m) → Text.words m.input = []) :
    Option.Rel (AnswersAlike listing)
      (((o.map outsideLoops).bind (resume bounds)).map answer)
      (((o'.map outsideLoops).bind (resume bounds)).map answer) := by
  cases h with
  | none => exact .none
  | some hagree =>
    cases hagree with
    | error fault h => exact .some (answer_rebound (.error fault h))
    | @ok m m' flow h =>
      cases flow with
      | quit => exact .some (answer_rebound (.ok Flow.quit h))
      | leave => exact .some (answer_rebound (.error .notLooping h))
      | next =>
        have hnil : Text.words m.input = [] := hread rfl
        have hnil' : Text.words m'.input = [] := by
          rwa [h.read (·.input) fun _ _ _ _ => rfl]
        have hended := h.change ({ · with input := [] }) fun _ _ _ _ => rfl
        change Option.Rel _ ((runInput bounds m).map answer) ((runInput bounds m').map answer)
        rw [runInput_of_nil hnil, runInput_of_nil hnil']
        exact .some (answer_rebound (.ok Flow.next hended))

/-- Both machines take the name for the same word, and there is no other word on the line. -/
theorem answer_runInput_rebound (bounds : Bounds) {m m' : Machine} {name : String} {word : Word}
    (h : Rebound word.Lists m m') (hmode : m.mode = .immediate)
    (hwords : Text.words m.input = [name]) (hclassify : classify m.dictionary name = .call word)
    (hclassify' : classify m'.dictionary name = .call word) (hruns : word.behavior.Runs) :
    Option.Rel (AnswersAlike word.Lists) ((runInput bounds m).map answer)
      ((runInput bounds m').map answer) := by
  obtain ⟨text, hnext, htext⟩ := Text.nextWord_of_words_cons hwords
  have hmode' : m'.mode = .immediate := by
    rwa [h.read (·.mode) fun _ _ _ _ => rfl]
  have hnext' : Text.nextWord m'.input = (some name, text) := by
    rwa [h.read (·.input) fun _ _ _ _ => rfl]
  rw [runInput_of_runs bounds hmode hnext hclassify hruns,
    runInput_of_runs bounds hmode' hnext' hclassify' hruns]
  apply answer_call_rebound
  · apply callWord_rebound
    exact h.change ({ · with input := text }) fun _ _ _ _ => rfl
  · intro flow m₁ hcall
    have hinput : m₁.input = text := (undisturbed_stepLaw.callWord bounds word hcall).input
    rw [hinput, htext]

/-- A word keeps the words that were compiled into it, whatever the dictionary becomes. A call of it
goes the same way with every dictionary, and prints the same, but for the text of each listing of
the names in reach of it. So a word that was there before some lines, and is still found by its
name, does after them what it did before. -/
theorem compiled_calls_bound_early (bounds : Bounds) :
    (∀ (word : Word) (m : Machine) (dictionary : Dictionary),
      Option.Rel (Outcome.Agree (Rebound word.Lists)) (callWord bounds word m)
        (callWord bounds word { m with dictionary })) ∧
    ∀ m m', Reachable m → Later m m' →
      (∃ definitions, m'.dictionary = m.dictionary.define definitions ∧
        ∀ name, name ∉ definitions.map Prod.fst →
          classify m'.dictionary name = classify m.dictionary name) ∧
      ∀ name word, classify m'.dictionary name = .call word → word.behavior.Runs →
        word.serial < m.dictionary.installed →
          classify m.dictionary name = .call word ∧
          ∀ s : Machine, s.mode = .immediate →
            Option.Rel (AnswersAlike word.Lists)
              (evaluate bounds { s with dictionary := m.dictionary } name)
              (evaluate bounds { s with dictionary := m'.dictionary } name) := by
  refine ⟨?_, ?_⟩
  · intro word m dictionary
    exact callWord_rebound bounds word (.ofDictionary _ m dictionary)
  · intro m m' hm hlater
    have hsteady := steady_of_reachable hm
    obtain ⟨-, definitions, hdefine⟩ := hlater.redefines hsteady
    refine ⟨⟨definitions, hdefine, ?_⟩, ?_⟩
    · intro name hname
      rw [hdefine, Dictionary.classify_define _ hname]
    · intro name word hclassify hruns hold
      have hbefore : classify m.dictionary name = .call word :=
        Dictionary.classify_of_define (hdefine ▸ hclassify) hold
      refine ⟨hbefore, ?_⟩
      intro s hmode
      obtain ⟨hsound, hname, -⟩ := classify_call hsteady.dictionary hbefore
      have hwords : Text.words name.toList = [name] := Text.words_toList (hname ▸ hsound.isWord)
      have hstart : Rebound word.Lists (({ s with dictionary := m.dictionary }).reading name)
          (({ s with dictionary := m'.dictionary }).reading name) := .ofDictionary _ _ _
      exact answer_runInput_rebound bounds hstart hmode hwords hbefore hclassify hruns

/-- A word and a built-in word that are defined again, and a caller of both that is not. -/
theorem caller_keeps_replaced_words :
    ∃ m m' word, Reachable m ∧ Later m m' ∧ classify m'.dictionary "C" = .call word ∧
      classify m.dictionary "C" = .call word ∧ ¬ word.Lists ∧
      Option.Rel (fun a a' => a'.1 = a.1 ∧ Rebound False a.2 a'.2)
        (evaluate { passes := 0 } { m' with dictionary := m.dictionary } "C")
        (evaluate { passes := 0 } m' "C") := by
  have hlines : ((evaluate { passes := 0 } Machine.new ": W 1 . ; : C W W + ;").bind fun (_, m) =>
      (evaluate { passes := 0 } m ": W 2 ; : + - ;").map fun (_, m') =>
        (m'.mode, (m'.dictionary.find? "C").map fun word =>
          decide (word.behavior.Runs ∧ word.serial < m.dictionary.installed ∧
            word.callsOnly (· ≠ .words) = true))) =
      some (.immediate, some true) := by
    decide +kernel
  obtain ⟨⟨first, m⟩, hfirst, hrest⟩ := Option.bind_eq_some_iff.mp hlines
  obtain ⟨⟨second, m'⟩, hsecond, hchecked⟩ := Option.map_eq_some_iff.mp hrest
  obtain ⟨hmode, hword⟩ := Prod.mk.inj hchecked
  obtain ⟨word, hfind, hholds⟩ := Option.map_eq_some_iff.mp hword
  obtain ⟨hruns, hold, hcalls⟩ := of_decide_eq_true hholds
  have hclassify : classify m'.dictionary "C" = .call word :=
    classify_of_not_isNumeral (by decide) hfind
  have hm : Reachable m := .line 0 .new hfirst
  have hlater : Later m m' := .line 0 .refl hsecond
  obtain ⟨hbefore, hsame⟩ :=
    ((compiled_calls_bound_early { passes := 0 }).2 m m' hm hlater).2 "C" word hclassify hruns hold
  have hsilent : ¬ word.Lists := word.not_lists hcalls
  exact ⟨m, m', word, hm, hlater, hclassify, hbefore, hsilent,
    rel_mono (fun _ _ halike => ⟨halike.1.eq hsilent, halike.2⟩) (hsame m' hmode)⟩

def Token.word? : Token → Option Word
  | .call word => some word
  | _ => none

/-- The words that a definition calls outside of its structures. -/
def Word.called (word : Word) : List Word :=
  match word.behavior with
  | .definition body => body.filterMap Token.word?
  | _ => []

/-- A caller may itself list the names, and then it prints what is defined later. -/
theorem listing_caller_sees_later_definition :
    ∃ m m' caller word, Reachable m ∧ Later m m' ∧ m.dictionary.find? "C" = some caller ∧
      word ∈ caller.called ∧ ¬ word.Lists ∧
      (callWord { passes := 0 } caller m).map (·.machine.output) ≠
        (callWord { passes := 0 } caller { m with dictionary := m'.dictionary }).map
          (·.machine.output) := by
  have hlines : ((evaluate { passes := 0 } Machine.new ": W 1 ; : C W WORDS ;").bind fun (_, m) =>
      (evaluate { passes := 0 } m ": X ;").map fun (_, m') =>
        (m.dictionary.find? "C").any fun caller =>
          caller.called.any fun word => decide (word.callsOnly (· ≠ .words) = true ∧
            (callWord { passes := 0 } caller m).map (·.machine.output) ≠
              (callWord { passes := 0 } caller { m with dictionary := m'.dictionary }).map
                (·.machine.output))) = some true := by
    decide +kernel
  obtain ⟨⟨first, m⟩, hfirst, hrest⟩ := Option.bind_eq_some_iff.mp hlines
  obtain ⟨⟨second, m'⟩, hsecond, hchecked⟩ := Option.map_eq_some_iff.mp hrest
  cases hfind : m.dictionary.find? "C" with
  | none => simp [hfind] at hchecked
  | some caller =>
    simp only [hfind, Option.any_some] at hchecked
    obtain ⟨word, hcalled, hholds⟩ := List.any_eq_true.mp hchecked
    obtain ⟨hsilent, hdiffers⟩ := of_decide_eq_true hholds
    exact ⟨m, m', caller, word, .line 0 .new hfirst, .line 0 .refl hsecond, hfind, hcalled,
      word.not_lists hsilent, hdiffers⟩

end ForthMachine
