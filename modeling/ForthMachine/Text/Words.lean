import ForthMachine.Text.Blank

/-!
# Words of a text

A text is read from the front, and every reader gives what it took and what is left. A word is a
longest run of characters that are not blank. Comments take raw text up to a character, so the
readers can be mixed in any order.
-/

set_option autoImplicit false

namespace ForthMachine.Text

/-- The next word, if one is left, and the text behind it. -/
def nextWord (text : List Char) : Option String × List Char :=
  match text.dropWhile isBlank with
  | [] => (none, [])
  | c :: rest =>
    (some (String.ofList (c :: rest.takeWhile (!isBlank ·))), rest.dropWhile (!isBlank ·))

/-- The text in front of the first `stop`, and the text behind that character. Without a `stop`
everything is taken. -/
def splitAt (stop : Char) (text : List Char) : List Char × List Char :=
  (text.takeWhile (· != stop), (text.dropWhile (· != stop)).drop 1)

/-- The rest of the current line, and the lines behind it. -/
def splitLine (text : List Char) : List Char × List Char :=
  splitAt '\n' text

theorem length_dropWhile_le {α : Type} (p : α → Bool) (l : List α) :
    (l.dropWhile p).length ≤ l.length := by
  induction l with
  | nil => simp
  | cons a l ih => rw [List.dropWhile_cons]; split <;> simp only [List.length_cons] <;> omega

theorem nextWord_nil : nextWord [] = (none, []) := rfl

theorem length_nextWord_lt {text : List Char} {word : String} {rest : List Char}
    (h : nextWord text = (some word, rest)) : rest.length < text.length := by
  unfold nextWord at h
  split at h
  · simp at h
  · next c tail hc =>
    simp only [Prod.mk.injEq] at h
    have hle := length_dropWhile_le isBlank text
    have htail := length_dropWhile_le (!isBlank ·) tail
    rw [hc] at hle
    rw [← h.2]
    simp only [List.length_cons] at hle
    omega

theorem length_splitAt_le (stop : Char) (text : List Char) :
    (splitAt stop text).2.length ≤ text.length := by
  have h := length_dropWhile_le (· != stop) text
  simp only [splitAt, List.length_drop]
  omega

def words (text : List Char) : List String :=
  match _h : nextWord text with
  | (none, _) => []
  | (some word, rest) => word :: words rest
termination_by text.length
decreasing_by exact length_nextWord_lt _h

end ForthMachine.Text
