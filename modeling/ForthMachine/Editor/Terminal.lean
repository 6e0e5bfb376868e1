import ForthMachine.Editor.Basic

/-!
# The line on the screen

The line is drawn anew after every key, behind the prompt, and the cursor of the terminal is then
set to its column. A column is a 16-bit number.
-/

set_option autoImplicit false

namespace ForthMachine

def prompt : String := "fm> "

/-- The column of the cursor, counted from zero. -/
def Editor.column (e : Editor) : UInt16 :=
  UInt16.ofNat (prompt.length + e.cursor)

/-- The order to move to a column, which a terminal counts from one. The editor leaves the texts of
its orders to a terminal library; they are the ones that the library sends to an ANSI terminal. -/
def moveToColumn (column : UInt16) : String :=
  "\x1b[" ++ (column + 1).toNat.repr ++ "G"

/-- The order to clear the line from the cursor on, in the library's text, too. -/
def clearToLineEnd : String := "\x1b[K"

def Editor.render (e : Editor) : String :=
  moveToColumn 0 ++ clearToLineEnd ++ prompt ++ e.line ++ moveToColumn e.column

structure Terminal where
  editor : Editor := .new
  keys : List Key
  deriving DecidableEq, Repr

/-- The line entered, if one was; what the screen showed meanwhile; and the editor and the keys
left. The input also ends with the keys. -/
def Editor.edit (e : Editor) : List Key → Option String × String × Terminal
  | [] => (none, "", { editor := e, keys := [] })
  | key :: keys =>
    match e.press key with
    | (e, .goOn) =>
      let (line, shown, terminal) := e.edit keys
      (line, e.render ++ shown, terminal)
    | (e, .submit line) => (some line, "\r\n", { editor := e, keys })
    | (e, .finish) => (none, "\r\n", { editor := e, keys })

/-- Reads a line: it starts empty, and is shown from the start. -/
def Terminal.next (t : Terminal) : Option String × String × Terminal :=
  let e := t.editor.reset
  let (line, shown, terminal) := e.edit t.keys
  (line, e.render ++ shown, terminal)

/-- A line that is entered takes at least the key that enters it. -/
theorem Editor.length_edit_lt {e : Editor} {keys : List Key} (h : (e.edit keys).1.isSome) :
    (e.edit keys).2.2.keys.length < keys.length := by
  induction keys generalizing e with
  | nil => simp [Editor.edit] at h
  | cons key keys ih =>
    unfold Editor.edit at h ⊢
    split
    · next e' hpress =>
      simp only [hpress] at h
      exact Nat.lt_succ_of_lt (ih h)
    · exact Nat.lt_succ_self _
    · next hpress => simp [hpress] at h

theorem Terminal.length_next_lt {t : Terminal} (h : t.next.1.isSome) :
    t.next.2.2.keys.length < t.keys.length :=
  @Editor.length_edit_lt t.editor.reset t.keys h

end ForthMachine
