import ForthMachine.Text.Words

/-!
# Reading by byte positions

A reader keeps the whole text and the number of bytes that are read. What is left is a slice of the
text, and a text is only cut in front of a character or at its end: at any other byte there is no
slice, and then there is no answer. Requests can come in any order.
-/

set_option autoImplicit false

namespace ForthMachine.Text

/-- The length of a text in UTF-8. -/
def byteCount : List Char → Nat
  | [] => 0
  | c :: text => c.utf8Size + byteCount text

/-- The text in front of a byte position and behind it. -/
def cut? : (pos : Nat) → List Char → Option (List Char × List Char)
  | 0, text => some ([], text)
  | _ + 1, [] => none
  | pos + 1, c :: text =>
    if c.utf8Size ≤ pos + 1 then
      (cut? (pos + 1 - c.utf8Size) text).map fun (taken, rest) => (c :: taken, rest)
    else none

/-- The byte position of the first character with the property. -/
def bytesTo? (p : Char → Bool) : List Char → Option Nat
  | [] => none
  | c :: text => if p c then some 0 else (bytesTo? p text).map (c.utf8Size + ·)

structure Reader where
  text : String
  pos : Nat := 0
  deriving DecidableEq, Repr

/-- What can be asked of a reader: to skip blanks, the next word, the text up to a character, or
the rest of the line. -/
inductive Request where
  | blanks
  | word
  | upTo (stop : Char)
  | line
  deriving DecidableEq, Repr

inductive Answer where
  | skipped (bytes : Nat)
  | word (word : Option String)
  | text (text : String)
  deriving DecidableEq, Repr

namespace Reader

def rest? (r : Reader) : Option (List Char) :=
  (cut? r.pos r.text.toList).map Prod.snd

def isFinished (r : Reader) : Bool :=
  r.text.utf8ByteSize ≤ r.pos

def advance (r : Reader) (bytes : Nat) : Reader :=
  { r with pos := r.pos + bytes }

/-- Skips blanks, and tells how many bytes of them. -/
def skipBlanks (r : Reader) : Option (Nat × Reader) :=
  r.rest?.map fun rest =>
    let skipped := byteCount rest - byteCount (rest.dropWhile isBlank)
    (skipped, r.advance skipped)

def nextWord (r : Reader) : Option (Option String × Reader) :=
  r.skipBlanks.bind fun (_, r) =>
    if r.isFinished then some (none, r)
    else
      r.rest?.bind fun rest =>
        let stop := (bytesTo? isBlank rest).getD (byteCount rest)
        (cut? stop rest).map fun (word, _) => (some (String.ofList word), r.advance stop)

/-- The text in front of the first `stop`, which is read with it, or else all that is left. -/
def takeTo (stop : Char) (r : Reader) : Option (String × Reader) :=
  r.rest?.bind fun rest =>
    match bytesTo? (· == stop) rest with
    | some bytes =>
      (cut? bytes rest).map fun (taken, _) =>
        (String.ofList taken, r.advance (bytes + stop.utf8Size))
    | none => some (String.ofList rest, r.advance (byteCount rest))

def serve (r : Reader) : Request → Option (Answer × Reader)
  | .blanks => r.skipBlanks.map fun (bytes, r) => (.skipped bytes, r)
  | .word => r.nextWord.map fun (word, r) => (.word word, r)
  | .upTo stop => (r.takeTo stop).map fun (text, r) => (.text text, r)
  | .line => (r.takeTo '\n').map fun (text, r) => (.text text, r)

/-- The next words, as long as there are any, but no more than `count`. -/
def collect : (count : Nat) → Reader → Option (List String × Reader)
  | 0, r => some ([], r)
  | count + 1, r =>
    match r.nextWord with
    | none => none
    | some (none, r) => some ([], r)
    | some (some word, r) => (collect count r).map fun (words, r) => (word :: words, r)

end Reader

end ForthMachine.Text
