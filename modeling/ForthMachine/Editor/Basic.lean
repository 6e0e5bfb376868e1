import ForthMachine.Text.Blank

/-!
# Editing a line

The editor holds one line, the number of characters before the cursor, and the lines entered
before. The lines of this history can be called back, from the last one on. `place` is the index of
the line called back, and the number of lines in the history while none is. An index that is out of
range has no answer.
-/

set_option autoImplicit false

namespace ForthMachine

inductive KeyCode where
  | char (c : Char)
  | backspace | left | right | up | down | enter | escape
  /-- A key that means nothing to the editor. -/
  | other
  deriving DecidableEq, Repr

structure Key where
  code : KeyCode
  control : Bool := false
  deriving DecidableEq, Repr

structure Editor where
  buffer : List Char := []
  cursor : Nat := 0
  /-- Oldest first. -/
  history : List String := []
  place : Nat := 0
  deriving DecidableEq, Repr

/-- What a key did to the line: it is still being edited, it was entered, or the input ended. -/
inductive Edit where
  | goOn
  | submit (line : String)
  | finish
  deriving DecidableEq, Repr

/-- Puts an element in front of an index, or at the end. -/
def insertAt? {α : Type} (l : List α) (index : Nat) (a : α) : Option (List α) :=
  if index ≤ l.length then some (l.take index ++ a :: l.drop index) else none

def removeAt? {α : Type} (l : List α) (index : Nat) : Option (List α) :=
  if index < l.length then some (l.take index ++ l.drop (index + 1)) else none

namespace Editor

def new : Editor := {}

def line (e : Editor) : String :=
  String.ofList e.buffer

/-- An empty line, below the history. -/
def reset (e : Editor) : Editor :=
  { e with buffer := [], cursor := 0, place := e.history.length }

/-- Puts a text in the place of the line, with the cursor at its end. -/
def load (e : Editor) (text : String) : Editor :=
  { e with buffer := text.toList, cursor := text.length }

def insert? (e : Editor) (c : Char) : Option Editor :=
  (insertAt? e.buffer e.cursor c).map fun buffer => { e with buffer, cursor := e.cursor + 1 }

def eraseBack? (e : Editor) : Option Editor :=
  if e.cursor = 0 then some e
  else
    (removeAt? e.buffer (e.cursor - 1)).map fun buffer =>
      { e with buffer, cursor := e.cursor - 1 }

def callBack? (e : Editor) (place : Nat) : Option Editor :=
  e.history[place]?.map fun line => { e with place }.load line

def previous? (e : Editor) : Option Editor :=
  if e.place = 0 then some e else e.callBack? (e.place - 1)

def following? (e : Editor) : Option Editor :=
  if e.place + 1 < e.history.length then e.callBack? (e.place + 1)
  else some ({ e with place := e.history.length }.load "")

/-- The history with a line entered. Blank lines and repetitions of the last line are left out. -/
def remember (history : List String) (line : String) : List String :=
  if line.toList.all Text.isBlank ∨ history.getLast? = some line then history
  else history ++ [line]

def pressControl (e : Editor) (c : Char) : Editor × Edit :=
  if c = 'a' then ({ e with cursor := 0 }, .goOn)
  else if c = 'e' then ({ e with cursor := e.buffer.length }, .goOn)
  else if c = 'k' then ({ e with buffer := e.buffer.take e.cursor }, .goOn)
  else if c = 'c' then (e, .finish)
  else if c = 'd' ∧ e.buffer = [] then (e, .finish)
  else (e, .goOn)

def press? (e : Editor) (key : Key) : Option (Editor × Edit) :=
  match key.code with
  | .char c => if key.control then some (e.pressControl c) else (e.insert? c).map (·, .goOn)
  | .backspace => e.eraseBack?.map (·, .goOn)
  | .left => some ({ e with cursor := e.cursor - 1 }, .goOn)
  | .right => some ({ e with cursor := min (e.cursor + 1) e.buffer.length }, .goOn)
  | .up => e.previous?.map (·, .goOn)
  | .down => e.following?.map (·, .goOn)
  | .enter => some ({ e with history := remember e.history e.line }.reset, .submit e.line)
  | .escape => some (e, .finish)
  | .other => some (e, .goOn)

/-- Applies a key. One that has no answer changes nothing. -/
def press (e : Editor) (key : Key) : Editor × Edit :=
  (e.press? key).getD (e, .goOn)

end Editor

end ForthMachine
