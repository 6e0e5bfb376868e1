import ForthMachine.Editor.Terminal
import ForthMachine.Proofs.Editing
import Mathlib.Data.Nat.ModEq

/-!
# The cursor on the screen

A line that is drawn ends with the order to move to a column, and with no other. The column is the
one behind the prompt and the characters in front of the cursor, as long as it is in the range of
columns. There are 65536 of them, and a line can be longer: behind the last column the count starts
again at the left edge, so that two cursors are drawn at one column if they are as many characters
apart, or a multiple of that.
-/

set_option autoImplicit false

namespace ForthMachine

theorem toList_moveToColumn (column : UInt16) :
    (moveToColumn column).toList =
      '\x1b' :: '[' :: (Nat.toDigits 10 (column + 1).toNat ++ ['G']) := by
  rw [moveToColumn, String.toList_append, String.toList_append, Nat.toList_repr]
  rfl

theorem escape_not_mem_order (column : UInt16) :
    '\x1b' ∉ '[' :: (Nat.toDigits 10 (column + 1).toNat ++ ['G']) := by
  intro hmem
  rcases List.mem_cons.mp hmem with hbracket | hmem
  · cases hbracket
  · rcases List.mem_append.mp hmem with hdigit | hletter
    · have hescape := Nat.isDigit_of_mem_toDigits (by decide) (by decide) hdigit
      cases hescape
    · cases List.mem_singleton.mp hletter

theorem moveToColumn_inj {column column' : UInt16}
    (h : (moveToColumn column).toList = (moveToColumn column').toList) : column = column' := by
  rw [toList_moveToColumn, toList_moveToColumn, List.cons.injEq, List.cons.injEq,
    List.append_left_inj] at h
  have hnat : (column + 1).toNat = (column' + 1).toNat := by
    rw [← Nat.ofDigitChars_ten_toDigits (n := (column + 1).toNat), h.2.2,
      Nat.ofDigitChars_ten_toDigits]
  have hsucc : column + 1 = column' + 1 := UInt16.toNat_inj.mp hnat
  exact (UInt16.add_left_inj 1).mp hsucc

theorem eq_of_cons_suffix {α : Type} {a : α} {l l' : List α} (h : a :: l <:+ a :: l')
    (ha : a ∉ l') : a :: l = a :: l' := by
  rcases List.suffix_cons_iff.mp h with heq | hsuffix
  · exact heq
  · exact absurd (hsuffix.subset List.mem_cons_self) ha

namespace Editor

/-- The last thing that is sent when the line is drawn is the order to move to the column. -/
def AsksFor (e : Editor) (column : UInt16) : Prop :=
  (moveToColumn column).toList <:+ e.render.toList

theorem asksFor_iff {e : Editor} {column : UInt16} : e.AsksFor column ↔ column = e.column := by
  have hcolumn : e.AsksFor e.column := by
    rw [AsksFor, render, String.toList_append]
    exact List.suffix_append _ _
  constructor
  · intro h
    apply moveToColumn_inj
    -- Of two ends of one text, one is an end of the other, and both begin with the only escape
    -- character in them.
    rcases List.suffix_or_suffix_of_suffix h hcolumn with hsuffix | hsuffix
    · rw [toList_moveToColumn, toList_moveToColumn] at hsuffix ⊢
      exact eq_of_cons_suffix hsuffix (escape_not_mem_order _)
    · rw [toList_moveToColumn, toList_moveToColumn] at hsuffix ⊢
      exact (eq_of_cons_suffix hsuffix (escape_not_mem_order _)).symm
  · rintro rfl
    exact hcolumn

/-- The cursor that is drawn in the last column there is. -/
def farthestCursor : Nat := UInt16.size - 1 - prompt.length

theorem toNat_column (e : Editor) : e.column.toNat = (prompt.length + e.cursor) % UInt16.size :=
  UInt16.toNat_ofNat'

theorem toNat_column_eq_iff (e : Editor) :
    e.column.toNat = prompt.length + e.cursor ↔ e.cursor ≤ farthestCursor := by
  have hsize : UInt16.size = 65536 := rfl
  have hprompt : prompt.length = 4 := rfl
  rw [toNat_column, Nat.mod_eq_iff_lt (by decide), farthestCursor, hsize, hprompt]
  omega

theorem column_eq_iff {e e' : Editor} :
    e.column = e'.column ↔ e.cursor ≡ e'.cursor [MOD UInt16.size] := by
  rw [← UInt16.toNat_inj, toNat_column, toNat_column]
  exact ⟨Nat.ModEq.add_left_cancel' _, Nat.ModEq.add_left _⟩

end Editor

def Key.typing (text : List Char) : List Key :=
  text.map fun c => { code := .char c }

theorem SplitEditor.after_typing (s : SplitEditor) (text : List Char) :
    s.after (Key.typing text) = { s with left := s.left ++ text } := by
  induction text generalizing s with
  | nil =>
    rw [List.append_nil]
    rfl
  | cons c text ih =>
    have hrest := ih { s with left := s.left ++ [c] }
    rwa [List.append_assoc, List.singleton_append] at hrest

namespace Editor

theorem cursor_after_typing (text : List Char) :
    (Editor.new.after (Key.typing text)).cursor = text.length := by
  have hshows : (Editor.new.after (Key.typing text)).Shows _ := Shows.new.after _
  rw [hshows.cursor, SplitEditor.after_typing]
  rfl

/-- After any keys, the column that is asked for when the line is drawn is behind the prompt and
the characters in front of the cursor, up to the last column that there is. Two lines are drawn
with one column just if their cursors differ by a multiple of the number of columns. -/
theorem column_follows_cursor (keys : List Key) :
    ((∃ column, (Editor.new.after keys).AsksFor column ∧
        column.toNat = prompt.length + (Editor.new.after keys).cursor) ↔
      (Editor.new.after keys).cursor ≤ farthestCursor) ∧
    ∀ keys' : List Key,
      (∃ column, (Editor.new.after keys).AsksFor column ∧
          (Editor.new.after keys').AsksFor column) ↔
        (Editor.new.after keys).cursor ≡ (Editor.new.after keys').cursor [MOD UInt16.size] := by
  simp only [asksFor_iff, exists_eq_left]
  exact ⟨toNat_column_eq_iff _, fun _ => column_eq_iff⟩

/-- A line of so many characters is drawn with the column of an empty line. -/
theorem column_of_long_line :
    ∃ keys : List Key, keys = Key.typing (List.replicate 65536 'x') ∧
      (Editor.new.after keys).cursor = 65536 ∧ (Editor.new.after []).cursor = 0 ∧
      (Editor.new.after keys).AsksFor 4 ∧ (Editor.new.after []).AsksFor 4 ∧
      prompt.length + 65536 ≠ (4 : UInt16).toNat := by
  have hcursor : (Editor.new.after (Key.typing (List.replicate 65536 'x'))).cursor = 65536 := by
    rw [cursor_after_typing, List.length_replicate]
  refine ⟨_, rfl, hcursor, rfl, asksFor_iff.mpr ?_, asksFor_iff.mpr rfl, by decide⟩
  rw [column, hcursor]
  rfl

end Editor

end ForthMachine
