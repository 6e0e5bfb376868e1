import ForthMachine.Editor.Basic
import Mathlib.Data.List.Basic

/-!
# Editing without indices

The same editor, with the line in the part in front of the cursor and the part behind it, and the
history in the lines above its place and the lines below. All its steps are at the ends of these
parts, so that there are no indices. The editor with indices shows what this one shows after any
keys, and its indices are always in range.
-/

set_option autoImplicit false

namespace ForthMachine

structure SplitEditor where
  left : List Char := []
  right : List Char := []
  /-- The lines above the one called back, the nearest first. -/
  older : List String := []
  /-- The line called back, if one is, and the lines below it. -/
  newer : List String := []

namespace SplitEditor

def line (s : SplitEditor) : String :=
  String.ofList (s.left ++ s.right)

def load (s : SplitEditor) (text : String) : SplitEditor :=
  { s with left := text.toList, right := [] }

def moveLeft (s : SplitEditor) : SplitEditor :=
  match s.left.getLast? with
  | none => s
  | some c => { s with left := s.left.dropLast, right := c :: s.right }

def moveRight (s : SplitEditor) : SplitEditor :=
  match s.right with
  | [] => s
  | c :: right => { s with left := s.left ++ [c], right }

def previous (s : SplitEditor) : SplitEditor :=
  match s.older with
  | [] => s
  | text :: older => { s with older, newer := text :: s.newer }.load text

/-- Below the last line of the history is an empty line. -/
def following (s : SplitEditor) : SplitEditor :=
  match s.newer with
  | [] => s.load ""
  | text :: newer => { s with older := text :: s.older, newer }.load (newer.head?.getD "")

/-- Enters the line, and leaves an empty one below the history. -/
def enter (s : SplitEditor) : SplitEditor where
  older := (Editor.remember (s.older.reverse ++ s.newer) s.line).reverse

def pressControl (s : SplitEditor) (c : Char) : SplitEditor × Edit :=
  if c = 'a' then ({ s with left := [], right := s.left ++ s.right }, .goOn)
  else if c = 'e' then ({ s with left := s.left ++ s.right, right := [] }, .goOn)
  else if c = 'k' then ({ s with right := [] }, .goOn)
  else if c = 'c' then (s, .finish)
  else if c = 'd' ∧ s.left ++ s.right = [] then (s, .finish)
  else (s, .goOn)

def press (s : SplitEditor) (key : Key) : SplitEditor × Edit :=
  match key.code with
  | .char c =>
    if key.control then s.pressControl c else ({ s with left := s.left ++ [c] }, .goOn)
  | .backspace => ({ s with left := s.left.dropLast }, .goOn)
  | .left => (s.moveLeft, .goOn)
  | .right => (s.moveRight, .goOn)
  | .up => (s.previous, .goOn)
  | .down => (s.following, .goOn)
  | .enter => (s.enter, .submit s.line)
  | .escape => (s, .finish)
  | .other => (s, .goOn)

def after (s : SplitEditor) (keys : List Key) : SplitEditor :=
  keys.foldl (fun s key => (s.press key).1) s

end SplitEditor

namespace Editor

def after (e : Editor) (keys : List Key) : Editor :=
  keys.foldl (fun e key => (e.press key).1) e

@[simp] theorem after_nil (e : Editor) : e.after [] = e := rfl

@[simp] theorem after_cons (e : Editor) (key : Key) (keys : List Key) :
    e.after (key :: keys) = (e.press key).1.after keys := rfl

theorem after_append (e : Editor) (keys keys' : List Key) :
    e.after (keys ++ keys') = (e.after keys).after keys' :=
  List.foldl_append

theorem press_of_press? {e : Editor} {key : Key} {result : Editor × Edit}
    (h : e.press? key = some result) : e.press key = result := by
  rw [press, h, Option.getD_some]

/-- The indices of the one editor are the lengths of the parts of the other. -/
structure Shows (e : Editor) (s : SplitEditor) : Prop where
  buffer : e.buffer = s.left ++ s.right
  cursor : e.cursor = s.left.length
  history : e.history = s.older.reverse ++ s.newer
  place : e.place = s.older.length

namespace Shows

variable {e : Editor} {s : SplitEditor}

theorem new : Editor.new.Shows {} :=
  ⟨rfl, rfl, rfl, rfl⟩

theorem cursor_le (h : e.Shows s) : e.cursor ≤ e.buffer.length := by
  rw [h.cursor, h.buffer, List.length_append]
  exact Nat.le_add_right _ _

theorem place_le (h : e.Shows s) : e.place ≤ e.history.length := by
  rw [h.place, h.history, List.length_append, List.length_reverse]
  exact Nat.le_add_right _ _

theorem line (h : e.Shows s) : e.line = s.line := by
  rw [Editor.line, h.buffer, SplitEditor.line]

theorem insert? (h : e.Shows s) (c : Char) :
    ∃ e', e.insert? c = some e' ∧ e'.Shows { s with left := s.left ++ [c] } := by
  refine ⟨_, by rw [Editor.insert?, insertAt?, if_pos h.cursor_le, Option.map_some], ?_⟩
  refine ⟨?_, ?_, h.history, h.place⟩
  · rw [h.buffer, h.cursor, List.take_left, List.drop_left, List.append_assoc,
      List.singleton_append]
  · rw [h.cursor, List.length_append, List.length_singleton]

theorem eraseBack? (h : e.Shows s) :
    ∃ e', e.eraseBack? = some e' ∧ e'.Shows { s with left := s.left.dropLast } := by
  rcases s.left.eq_nil_or_concat' with hleft | ⟨left, c, hleft⟩
  · have hcursor : e.cursor = 0 := by rw [h.cursor, hleft, List.length_nil]
    refine ⟨e, by rw [Editor.eraseBack?, if_pos hcursor], ?_, ?_, h.history, h.place⟩
    · rw [h.buffer, hleft, List.dropLast_nil]
    · rw [hcursor, hleft, List.dropLast_nil, List.length_nil]
  · have hcursor : e.cursor = left.length + 1 := by
      rw [h.cursor, hleft, List.length_append, List.length_singleton]
    have hbuffer : e.buffer = left ++ c :: s.right := by
      rw [h.buffer, hleft, List.append_assoc, List.singleton_append]
    have hlt : left.length < e.buffer.length := by
      rw [hbuffer, List.length_append, List.length_cons]
      omega
    have hrest : e.buffer.take left.length ++ e.buffer.drop (left.length + 1) =
        left ++ s.right := by
      simp [hbuffer]
    refine ⟨{ e with buffer := left ++ s.right, cursor := left.length }, ?_, ?_, ?_, h.history,
      h.place⟩
    · rw [Editor.eraseBack?, if_neg (by omega), hcursor, Nat.add_sub_cancel, removeAt?, if_pos hlt,
        hrest, Option.map_some]
    · rw [hleft, List.dropLast_concat]
    · rw [hleft, List.dropLast_concat]

theorem moveLeft (h : e.Shows s) : Editor.Shows { e with cursor := e.cursor - 1 } s.moveLeft := by
  rcases s.left.eq_nil_or_concat' with hleft | ⟨left, c, hleft⟩
  · rw [SplitEditor.moveLeft, hleft, List.getLast?_nil]
    refine ⟨h.buffer, ?_, h.history, h.place⟩
    rw [h.cursor, hleft, List.length_nil]
  · rw [SplitEditor.moveLeft, hleft, List.getLast?_concat]
    refine ⟨?_, ?_, h.history, h.place⟩
    · rw [h.buffer, hleft, List.dropLast_concat, List.append_assoc, List.singleton_append]
    · rw [h.cursor, hleft, List.dropLast_concat, List.length_append, List.length_singleton,
        Nat.add_sub_cancel]

theorem moveRight (h : e.Shows s) :
    Editor.Shows { e with cursor := min (e.cursor + 1) e.buffer.length } s.moveRight := by
  cases hright : s.right with
  | nil =>
    rw [SplitEditor.moveRight, hright]
    refine ⟨h.buffer, ?_, h.history, h.place⟩
    rw [h.buffer, hright, List.append_nil, h.cursor]
    exact Nat.min_eq_right (Nat.le_succ _)
  | cons c right =>
    rw [SplitEditor.moveRight, hright]
    refine ⟨?_, ?_, h.history, h.place⟩
    · rw [h.buffer, hright, List.append_assoc, List.singleton_append]
    · show min (e.cursor + 1) e.buffer.length = (s.left ++ [c]).length
      rw [h.buffer, hright, h.cursor, List.length_append, List.length_append, List.length_cons,
        List.length_singleton]
      omega

/-- The line below the place is called back, where the history is cut as the other editor cuts it
afterwards. -/
theorem callBack? {place : Nat} {text : String} (hhistory : e.history = s.older.reverse ++ s.newer)
    (hplace : place = s.older.length) (htext : s.newer.head? = some text) :
    ∃ e', e.callBack? place = some e' ∧ e'.Shows (s.load text) := by
  have hcalled : e.history[place]? = some text := by
    rw [hhistory, hplace, ← s.older.length_reverse, List.getElem?_append_right (Nat.le_refl _),
      Nat.sub_self, ← List.head?_eq_getElem?, htext]
  refine ⟨{ e with place }.load text, by rw [Editor.callBack?, hcalled, Option.map_some], ?_⟩
  exact ⟨(List.append_nil _).symm, String.length_toList.symm, hhistory, hplace⟩

theorem previous? (h : e.Shows s) : ∃ e', e.previous? = some e' ∧ e'.Shows s.previous := by
  cases holder : s.older with
  | nil =>
    have hplace : e.place = 0 := by rw [h.place, holder, List.length_nil]
    refine ⟨e, by rw [Editor.previous?, if_pos hplace], ?_⟩
    rwa [SplitEditor.previous, holder]
  | cons text older =>
    have hplace : e.place = older.length + 1 := by rw [h.place, holder, List.length_cons]
    have hhistory : e.history = older.reverse ++ text :: s.newer := by
      rw [h.history, holder, List.reverse_cons, List.append_assoc, List.singleton_append]
    rw [Editor.previous?, if_neg (by omega), hplace, Nat.add_sub_cancel, SplitEditor.previous,
      holder]
    exact callBack? (s := { s with older, newer := text :: s.newer }) hhistory rfl rfl

theorem following?_of_le (hhistory : e.history = s.older.reverse) (hnewer : s.newer = [])
    (hplace : e.history.length ≤ e.place + 1) :
    ∃ e', e.following? = some e' ∧ e'.Shows (s.load "") := by
  refine ⟨{ e with place := e.history.length }.load "", ?_, rfl, rfl, ?_, ?_⟩
  · rw [Editor.following?, if_neg (Nat.not_lt.mpr hplace)]
  · show e.history = s.older.reverse ++ s.newer
    rw [hnewer, List.append_nil, hhistory]
  · show e.history.length = s.older.length
    rw [hhistory, List.length_reverse]

theorem following? (h : e.Shows s) : ∃ e', e.following? = some e' ∧ e'.Shows s.following := by
  rw [SplitEditor.following]
  cases hnewer : s.newer with
  | nil =>
    have hhistory : e.history = s.older.reverse := by rw [h.history, hnewer, List.append_nil]
    refine following?_of_le hhistory hnewer ?_
    rw [hhistory, h.place, List.length_reverse]
    exact Nat.le_succ _
  | cons text newer =>
    have hhistory : e.history = (text :: s.older).reverse ++ newer := by
      rw [h.history, hnewer, List.reverse_cons, List.append_assoc, List.singleton_append]
    cases newer with
    | nil =>
      rw [List.append_nil] at hhistory
      have hlength : e.history.length = e.place + 1 := by
        rw [hhistory, h.place, List.length_reverse, List.length_cons]
      exact following?_of_le (s := { s with older := text :: s.older, newer := [] }) hhistory rfl
        (Nat.le_of_eq hlength)
    | cons next newer =>
      have hplace : e.place + 1 < e.history.length := by
        rw [hhistory, h.place, List.length_append, List.length_reverse, List.length_cons,
          List.length_cons]
        omega
      rw [Editor.following?, if_pos hplace]
      refine callBack? (s := { s with older := text :: s.older, newer := next :: newer }) hhistory
        ?_ rfl
      rw [h.place, List.length_cons]

theorem enter (h : e.Shows s) :
    Editor.Shows ({ e with history := remember e.history e.line }.reset) s.enter := by
  refine ⟨rfl, rfl, ?_, ?_⟩
  · show remember e.history e.line = s.enter.older.reverse ++ []
    rw [SplitEditor.enter, List.reverse_reverse, List.append_nil, h.history, h.line]
  · show (remember e.history e.line).length = s.enter.older.length
    rw [SplitEditor.enter, List.length_reverse, h.history, h.line]

theorem pressControl (h : e.Shows s) (c : Char) :
    (e.pressControl c).2 = (s.pressControl c).2 ∧
      (e.pressControl c).1.Shows (s.pressControl c).1 := by
  unfold Editor.pressControl SplitEditor.pressControl
  rw [h.buffer]
  split_ifs with ha he hk hc hd
  · exact ⟨rfl, rfl, rfl, h.history, h.place⟩
  · exact ⟨rfl, (List.append_nil _).symm, rfl, h.history, h.place⟩
  · refine ⟨rfl, ?_, h.cursor, h.history, h.place⟩
    show (s.left ++ s.right).take e.cursor = s.left ++ []
    rw [h.cursor, List.take_left, List.append_nil]
  · exact ⟨rfl, h⟩
  · exact ⟨rfl, h⟩
  · exact ⟨rfl, h⟩

theorem press? (h : e.Shows s) (key : Key) :
    ∃ e', e.press? key = some (e', (s.press key).2) ∧ e'.Shows (s.press key).1 := by
  obtain ⟨code, control⟩ := key
  cases code with
  | char c =>
    cases control with
    | true =>
      obtain ⟨hedit, hshows⟩ := h.pressControl c
      exact ⟨(e.pressControl c).1, congrArg some (Prod.ext rfl hedit), hshows⟩
    | false =>
      obtain ⟨e', hinsert, hshows⟩ := h.insert? c
      exact ⟨e', congrArg (Option.map (·, Edit.goOn)) hinsert, hshows⟩
  | backspace =>
    obtain ⟨e', herase, hshows⟩ := h.eraseBack?
    exact ⟨e', congrArg (Option.map (·, Edit.goOn)) herase, hshows⟩
  | left => exact ⟨_, rfl, h.moveLeft⟩
  | right => exact ⟨_, rfl, h.moveRight⟩
  | up =>
    obtain ⟨e', hprevious, hshows⟩ := h.previous?
    exact ⟨e', congrArg (Option.map (·, Edit.goOn)) hprevious, hshows⟩
  | down =>
    obtain ⟨e', hfollowing, hshows⟩ := h.following?
    exact ⟨e', congrArg (Option.map (·, Edit.goOn)) hfollowing, hshows⟩
  | enter =>
    have hedit : some ({ e with history := remember e.history e.line }.reset, Edit.submit e.line) =
        some ({ e with history := remember e.history e.line }.reset, Edit.submit s.line) := by
      rw [h.line]
    exact ⟨_, hedit, h.enter⟩
  | escape => exact ⟨e, rfl, h⟩
  | other => exact ⟨e, rfl, h⟩

theorem press (h : e.Shows s) (key : Key) :
    e.press? key = some (e.press key) ∧ (e.press key).2 = (s.press key).2 ∧
      (e.press key).1.Shows (s.press key).1 := by
  obtain ⟨e', hpress, hshows⟩ := h.press? key
  rw [press_of_press? hpress]
  exact ⟨hpress, rfl, hshows⟩

theorem after (h : e.Shows s) (keys : List Key) : (e.after keys).Shows (s.after keys) := by
  induction keys generalizing e s with
  | nil => exact h
  | cons key keys ih => exact ih (h.press key).2.2

end Shows

/-- After any keys the editor shows the line and the cursor of the editor without indices. Its
indices are in range, so that the next key has an answer, and it is the same for both. -/
theorem after_shows_split_editor (keys : List Key) :
    (Editor.new.after keys).cursor ≤ (Editor.new.after keys).buffer.length ∧
      (Editor.new.after keys).place ≤ (Editor.new.after keys).history.length ∧
      (Editor.new.after keys).Shows (SplitEditor.after {} keys) ∧
      (Editor.new.after keys).line = (SplitEditor.after {} keys).line ∧
      ∀ key, (Editor.new.after keys).press? key = some ((Editor.new.after keys).press key) ∧
        ((Editor.new.after keys).press key).2 = ((SplitEditor.after {} keys).press key).2 := by
  have hshows : (Editor.new.after keys).Shows (SplitEditor.after {} keys) := Shows.new.after keys
  refine ⟨hshows.cursor_le, hshows.place_le, hshows, hshows.line, fun key => ?_⟩
  obtain ⟨hanswer, hedit, -⟩ := hshows.press key
  exact ⟨hanswer, hedit⟩

end Editor

end ForthMachine
