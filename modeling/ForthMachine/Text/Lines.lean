import ForthMachine.Text.Words

/-!
# Lines of a text

A newline ends a line, and a carriage return in front of it goes with it. What follows the last
newline is a line too, unless it is empty.
-/

set_option autoImplicit false

namespace ForthMachine.Text

/-- A line without the carriage return at its end, if there is one. -/
def dropReturn (line : List Char) : List Char :=
  if line.getLast? = some '\r' then line.dropLast else line

def lines (text : List Char) : List String :=
  if text = [] then []
  else
    match _h : text.dropWhile (· != '\n') with
    | [] => [String.ofList text]
    | _ :: rest => String.ofList (dropReturn (text.takeWhile (· != '\n'))) :: lines rest
termination_by text.length
decreasing_by
  have hle := length_dropWhile_le (· != '\n') text
  rw [_h, List.length_cons] at hle
  omega

end ForthMachine.Text
