import ForthMachine.Proofs.Editing
import Mathlib.Data.List.Destutter

/-!
# The history of an editor

The history has the lines that were entered, in order, without the blank ones and without those
that repeat the line before. Up and down move over it and the empty line below it, without a way out
at either end, and what is shown is the line at the place that they came to.
-/

set_option autoImplicit false

namespace ForthMachine

def Edit.entered : Edit → List String
  | .submit line => [line]
  | .goOn | .finish => []

namespace Editor

def entered (e : Editor) : List Key → List String
  | [] => []
  | key :: keys => (e.press key).2.entered ++ (e.press key).1.entered keys

section Remembering

variable {line : String} {history : List String}

theorem remember_of_blank (h : line.toList.all Text.isBlank = true) :
    remember history line = history :=
  if_pos (.inl h)

theorem remember_of_last (h : history.getLast? = some line) : remember history line = history :=
  if_pos (.inr h)

theorem remember_of_new (hblank : line.toList.all Text.isBlank = false)
    (hlast : history.getLast? ≠ some line) : remember history line = history ++ [line] :=
  if_neg (not_or.mpr ⟨by simp [hblank], hlast⟩)

theorem foldl_remember_concat (kept : List String) (last : String) (lines : List String) :
    lines.foldl remember (kept ++ [last]) =
      kept ++ (lines.filter fun line => !line.toList.all Text.isBlank).destutter' (· ≠ ·) last := by
  induction lines generalizing kept last with
  | nil => rfl
  | cons line lines ih =>
    have hlast : (kept ++ [last]).getLast? = some last := List.getLast?_concat
    rw [List.foldl_cons]
    cases hblank : line.toList.all Text.isBlank with
    | true => rw [remember_of_blank hblank, ih, List.filter_cons_of_neg (by simp [hblank])]
    | false =>
      rw [List.filter_cons_of_pos (by simp [hblank])]
      by_cases heq : last = line
      · subst heq
        rw [remember_of_last hlast, ih, List.destutter'_cons_neg _ (not_not.mpr rfl)]
      · have hnew : (kept ++ [last]).getLast? ≠ some line := by
          rw [hlast]
          exact fun hsome => heq (Option.some.inj hsome)
        rw [remember_of_new hblank hnew, ih, List.destutter'_cons_pos _ heq, List.append_assoc,
          List.singleton_append]

theorem foldl_remember (lines : List String) :
    lines.foldl remember [] =
      (lines.filter fun line => !line.toList.all Text.isBlank).destutter (· ≠ ·) := by
  induction lines with
  | nil => rfl
  | cons line lines ih =>
    rw [List.foldl_cons]
    cases hblank : line.toList.all Text.isBlank with
    | true => rw [remember_of_blank hblank, ih, List.filter_cons_of_neg (by simp [hblank])]
    | false =>
      rw [List.filter_cons_of_pos (by simp [hblank]), List.destutter_cons',
        remember_of_new hblank (by simp)]
      exact foldl_remember_concat [] line lines

end Remembering

section Keeping

variable {e e' : Editor}

theorem history_insert? {c : Char} (h : e.insert? c = some e') : e'.history = e.history := by
  obtain ⟨buffer, -, rfl⟩ := Option.map_eq_some_iff.mp h
  rfl

theorem history_eraseBack? (h : e.eraseBack? = some e') : e'.history = e.history := by
  unfold eraseBack? at h
  split_ifs at h with hcursor
  · cases h
    rfl
  · obtain ⟨buffer, -, rfl⟩ := Option.map_eq_some_iff.mp h
    rfl

theorem history_callBack? {place : Nat} (h : e.callBack? place = some e') :
    e'.history = e.history := by
  obtain ⟨line, -, rfl⟩ := Option.map_eq_some_iff.mp h
  rfl

theorem history_previous? (h : e.previous? = some e') : e'.history = e.history := by
  unfold previous? at h
  split_ifs at h with hplace
  · cases h
    rfl
  · exact history_callBack? h

theorem history_following? (h : e.following? = some e') : e'.history = e.history := by
  unfold following? at h
  split_ifs at h with hplace
  · exact history_callBack? h
  · cases h
    rfl

theorem history_pressControl (e : Editor) (c : Char) :
    (e.pressControl c).1.history = (e.pressControl c).2.entered.foldl remember e.history := by
  unfold pressControl
  split_ifs <;> rfl

/-- Whether there is an answer or not, the line is still being edited. -/
theorem history_answer {answer : Option Editor}
    (h : ∀ {e' : Editor}, answer = some e' → e'.history = e.history) :
    (((answer.map (·, Edit.goOn)).getD (e, .goOn)).1).history =
      ((answer.map (·, Edit.goOn)).getD (e, .goOn)).2.entered.foldl remember e.history := by
  cases answer with
  | none => rfl
  | some e' => exact h rfl

theorem history_press (e : Editor) (key : Key) :
    (e.press key).1.history = (e.press key).2.entered.foldl remember e.history := by
  obtain ⟨code, control⟩ := key
  cases code with
  | char c =>
    cases control with
    | true => exact history_pressControl e c
    | false => exact history_answer history_insert?
  | backspace => exact history_answer history_eraseBack?
  | up => exact history_answer history_previous?
  | down => exact history_answer history_following?
  | left | right | enter | escape | other => rfl

end Keeping

theorem history_after (e : Editor) (keys : List Key) :
    (e.after keys).history = (e.entered keys).foldl remember e.history := by
  induction keys generalizing e with
  | nil => rfl
  | cons key keys ih => rw [after_cons, ih, history_press, entered, List.foldl_append]

/-- Where up and down lead from a place of the history. -/
def browse (count place : Nat) (key : Key) : Nat :=
  if key.code = .up then place - 1 else min (place + 1) count

/-- The editor shows the line at the place, which is the empty line below the history. -/
structure Browses (e : Editor) (lines : List String) (index : Nat) : Prop where
  history : e.history = lines
  place : e.place = index
  index_le : index ≤ lines.length
  line : e.line = lines[index]?.getD ""
  cursor : e.cursor = e.buffer.length

namespace Browses

variable {e : Editor} {lines : List String} {index : Nat}

theorem load {text : String} (hhistory : e.history = lines) (hplace : e.place = index)
    (hle : index ≤ lines.length) (htext : lines[index]?.getD "" = text) :
    (e.load text).Browses lines index := by
  refine ⟨hhistory, hplace, hle, ?_, String.length_toList.symm⟩
  rw [htext]
  exact String.ofList_toList

theorem callBack? (hhistory : e.history = lines) (hlt : index < lines.length) :
    ∃ e', e.callBack? index = some e' ∧ e'.Browses lines index := by
  have hline : lines[index]? = some lines[index] := List.getElem?_eq_getElem hlt
  refine ⟨{ e with place := index }.load lines[index], ?_, ?_⟩
  · rw [Editor.callBack?, hhistory, hline, Option.map_some]
  · exact load hhistory rfl (Nat.le_of_lt hlt) (by rw [hline, Option.getD_some])

theorem previous? (h : e.Browses lines index) :
    ∃ e', e.previous? = some e' ∧ e'.Browses lines (index - 1) := by
  cases index with
  | zero => exact ⟨e, by rw [Editor.previous?, if_pos h.place], h⟩
  | succ index =>
    rw [Editor.previous?, h.place, if_neg (Nat.succ_ne_zero index)]
    exact callBack? h.history h.index_le

theorem following? (h : e.Browses lines index) :
    ∃ e', e.following? = some e' ∧ e'.Browses lines (min (index + 1) lines.length) := by
  rw [Editor.following?, h.place, h.history]
  split_ifs with hlt
  · rw [Nat.min_eq_left (Nat.le_of_lt hlt)]
    exact callBack? h.history hlt
  · rw [Nat.min_eq_right (Nat.not_lt.mp hlt)]
    refine ⟨_, rfl, load rfl rfl (Nat.le_refl _) ?_⟩
    rw [List.getElem?_eq_none (Nat.le_refl _), Option.getD_none]

theorem press (h : e.Browses lines index) {key : Key} (hkey : key.code = .up ∨ key.code = .down) :
    (e.press key).1.Browses lines (browse lines.length index key) := by
  obtain ⟨code, control⟩ := key
  obtain rfl | rfl : code = .up ∨ code = .down := hkey
  · obtain ⟨e', hprevious, hbrowses⟩ := h.previous?
    have hpress : e.press? ⟨.up, control⟩ = some (e', .goOn) :=
      congrArg (Option.map (·, Edit.goOn)) hprevious
    rwa [press_of_press? hpress]
  · obtain ⟨e', hfollowing, hbrowses⟩ := h.following?
    have hpress : e.press? ⟨.down, control⟩ = some (e', .goOn) :=
      congrArg (Option.map (·, Edit.goOn)) hfollowing
    rwa [press_of_press? hpress]

theorem after (h : e.Browses lines index) {moves : List Key}
    (hmoves : ∀ key ∈ moves, key.code = .up ∨ key.code = .down) :
    (e.after moves).Browses lines (moves.foldl (browse lines.length) index) := by
  induction moves generalizing e index with
  | nil => exact h
  | cons key moves ih =>
    obtain ⟨hkey, hmoves⟩ := List.forall_mem_cons.mp hmoves
    exact ih (h.press hkey) hmoves

end Browses

theorem browses_of_enter (e : Editor) {key : Key} (hkey : key.code = .enter) :
    (e.press key).1.Browses (e.press key).1.history (e.press key).1.history.length := by
  obtain ⟨code, control⟩ := key
  obtain rfl : code = .enter := hkey
  refine ⟨rfl, rfl, Nat.le_refl _, ?_, rfl⟩
  rw [List.getElem?_eq_none (Nat.le_refl _)]
  rfl

/-- The history has the lines entered, without blank ones and without repetitions, so that there
are none in it. From a line that was entered, up and down show the lines of the history and the
empty line below it. -/
theorem history_is_called_back (keys : List Key) :
    (Editor.new.after keys).history =
        ((Editor.new.entered keys).filter fun line => !line.toList.all Text.isBlank).destutter
          (· ≠ ·) ∧
      (∀ line ∈ (Editor.new.after keys).history, line.toList.all Text.isBlank = false) ∧
      (Editor.new.after keys).history.IsChain (· ≠ ·) ∧
      ∀ {enter : Key} {moves : List Key}, enter.code = .enter →
        (∀ key ∈ moves, key.code = .up ∨ key.code = .down) →
          ((Editor.new.after (keys ++ [enter])).after moves).Browses
            (Editor.new.after (keys ++ [enter])).history
            (moves.foldl (browse (Editor.new.after (keys ++ [enter])).history.length)
              (Editor.new.after (keys ++ [enter])).history.length) := by
  have hhistory : (Editor.new.after keys).history =
      ((Editor.new.entered keys).filter fun line => !line.toList.all Text.isBlank).destutter
        (· ≠ ·) :=
    (history_after .new keys).trans (foldl_remember _)
  refine ⟨hhistory, ?_, ?_, ?_⟩
  · intro line hline
    rw [hhistory] at hline
    have hkept := List.mem_filter.mp ((List.destutter_sublist _ _).mem hline)
    simpa using hkept.2
  · rw [hhistory]
    exact List.isChain_destutter _ _
  · intro enter moves henter hmoves
    rw [after_append]
    exact (browses_of_enter _ henter).after hmoves

/-- Up stops at the first of the lines that are kept, and the line down from there is the second. -/
theorem second_line_is_called_back :
    ∃ keys moves : List Key,
      Editor.new.entered (keys ++ [⟨.enter, false⟩]) = ["x", " ", "x", "y"] ∧
      moves.map Key.code = [.up, .up, .up, .down] ∧
      ((Editor.new.after (keys ++ [⟨.enter, false⟩])).after moves).Browses ["x", "y"] 1 := by
  let keys : List Key := [⟨.char 'x', false⟩, ⟨.enter, false⟩, ⟨.char ' ', false⟩, ⟨.enter, false⟩,
    ⟨.char 'x', false⟩, ⟨.enter, false⟩, ⟨.char 'y', false⟩]
  let moves : List Key := [⟨.up, false⟩, ⟨.up, false⟩, ⟨.up, false⟩, ⟨.down, false⟩]
  have hmoves : ∀ key ∈ moves, key.code = .up ∨ key.code = .down := by decide
  have hhistory : (Editor.new.after (keys ++ [⟨.enter, false⟩])).history = ["x", "y"] := by decide
  have hindex : moves.foldl (browse 2) 2 = 1 := by decide
  have henter : Key.code ⟨.enter, false⟩ = .enter := rfl
  obtain ⟨-, -, -, hbrowses⟩ := history_is_called_back keys
  have hshown := hbrowses henter hmoves
  rw [hhistory, List.length_cons, List.length_singleton, hindex] at hshown
  exact ⟨keys, moves, by decide, rfl, hshown⟩

end Editor

end ForthMachine
