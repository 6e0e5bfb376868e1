import ForthMachine.Editor.Basic
import ForthMachine.Text.Numeral

/-!
# Keys from the bytes of a terminal

A terminal sends a key as a character, as one of the control characters, or as a sequence that the
escape character begins. A control sequence has a bracket behind it and ends with a letter or a
tilde; in between are parameters, numbers with semicolons between them. The bytes come one at a
time, and what was read of a sequence is kept until the sequence is complete. A sequence that
stands for no key is dropped as a whole.
-/

set_option autoImplicit false

namespace ForthMachine

/-- What was read of a sequence that is not complete. -/
inductive KeySequence where
  | nothing
  | escape
  /-- The escape character and an `O`. -/
  | shifted
  /-- The escape character, a bracket and these bytes. -/
  | control (body : List UInt8)
  /-- The first bytes of a character. -/
  | character (bytes : List UInt8)
  deriving DecidableEq, Repr

def escapeByte : UInt8 := 0x1B

/-- The key behind an ASCII character. The control characters stand for keys with a name, or for
keys held together with the control key. -/
def Key.ofAscii (c : Char) : Key :=
  let n := c.toNat
  if c = '\r' then { code := .enter }
  else if c = '\t' then { code := .other }
  else if c = '\x7f' then { code := .backspace }
  else if c = '\x1b' then { code := .escape }
  else if n = 0 then { code := .char ' ', control := true }
  else if n ≤ 0x1A then { code := .char (Char.ofNat (n - 1 + 'a'.toNat)), control := true }
  else if n ≤ 0x1F then { code := .char (Char.ofNat (n - 0x1C + '4'.toNat)), control := true }
  else { code := .char c }

namespace KeySequence

def finalKey? (c : Char) : Option KeyCode :=
  match c with
  | 'A' => some .up
  | 'B' => some .down
  | 'C' => some .right
  | 'D' => some .left
  | 'F' | 'H' | 'P' | 'Q' | 'S' => some .other
  | _ => none

/-- A number of decimal digits that is at most `most`. A plus sign may stand in front. -/
def number? (most : Nat) (text : String) : Option Nat := do
  let digits := if text.toList.head? = some '+' then text.toList.drop 1 else text.toList
  if digits = [] then none
  let n ← digits.foldlM (fun n c => (Text.Numeral.digit? c).map (10 * n + ·)) 0
  if n ≤ most then some n else none

/-- The parameters in front of the last byte of a sequence. -/
def parameters? (body : List UInt8) : Option (List String) :=
  (String.fromUTF8? ⟨body.toArray⟩).map (·.splitOn ";")

/-- What is told beside a key: the keys held, and that the key was let go. -/
structure Modifiers where
  shift : Bool := false
  control : Bool := false
  released : Bool := false
  deriving DecidableEq, Repr

/-- The keys held are a sum of powers of two, to which one is added. -/
def Modifiers.ofNumber (held : Nat) : Modifiers where
  shift := (held - 1) % 2 = 1
  control := (held - 1) / 4 % 2 = 1

/-- Reads the keys held and, behind a colon, what happened to the key; the number of letting go
is three. -/
def Modifiers.parse? (parameter : String) : Option Modifiers := do
  match parameter.splitOn ":" with
  | [] => none
  | held :: rest =>
    let held ← number? 255 held
    let event := rest.head?.bind (number? 255)
    return { Modifiers.ofNumber held with released := event = some 3 }

def pressed? (code : KeyCode) (modifiers : Modifiers) : Option Key :=
  if modifiers.released then none else some { code, control := modifiers.control }

/-- A key named by the last character. The keys held are in the second parameter or else in the
last digit. -/
def named? (body : List UInt8) (parameters : List String) (final : Char) : Option Key := do
  let modifiers ←
    match parameters[1]?.bind Modifiers.parse? with
    | some modifiers => some modifiers
    | none => (Text.Numeral.digit? (Char.ofNat (body.getLast?.getD 0).toNat)).map Modifiers.ofNumber
  pressed? (← finalKey? final) modifiers

/-- The numbers of the keys of a keyboard that have no character and no letter. -/
def isKeyNumber (n : Nat) : Bool :=
  (1 ≤ n && n ≤ 8) || (11 ≤ n && n ≤ 15) || (17 ≤ n && n ≤ 21) || (23 ≤ n && n ≤ 26) ||
    n = 28 || n = 29 || (31 ≤ n && n ≤ 34)

/-- The modifiers in the second parameter, if there are any. -/
def modifiersOf (parameters : List String) : Modifiers :=
  (parameters[1]?.bind Modifiers.parse?).getD {}

/-- A key with a number, which none of the keys of the editor has. -/
def numbered? (parameters : List String) : Option Key := do
  let n ← number? 255 (← parameters.head?)
  if isKeyNumber n then pressed? .other (modifiersOf parameters) else none

/-- The characters on the keypad, from the key with number 57409 on; its enter key is not among
them. -/
def keypadChars : List Char := ['.', '/', '*', '-', '+']

/-- The key with a code point for its number. Keys without a character have private code points. -/
def codePointKey? (n : Nat) : Option KeyCode :=
  if 57399 ≤ n ∧ n ≤ 57408 then some (.char (Char.ofNat (n - 57399 + '0'.toNat)))
  else if 57409 ≤ n ∧ n ≤ 57413 then keypadChars[n - 57409]?.map .char
  else if n = 57415 then some (.char '=')
  else if n = 57416 then some (.char ',')
  else if n = 57417 then some .left
  else if n = 57418 then some .right
  else if n = 57419 then some .up
  else if n = 57420 then some .down
  else if (57421 ≤ n ∧ n ≤ 57454) ∨ (57358 ≤ n ∧ n ≤ 57363) ∨ (57376 ≤ n ∧ n ≤ 57398) then
    some .other
  else if n = 57414 ∨ n = '\r'.toNat then some .enter
  else if n = escapeByte.toNat then some .escape
  else if n = '\t'.toNat then some .other
  else if n = '\x7f'.toNat then some .backspace
  else if n.isValidChar then some (.char (Char.ofNat n))
  else none

/-- A modifier key counts as held itself. -/
def ownModifiers (n : Nat) : Modifiers where
  shift := n = 57441 || n = 57447
  control := n = 57442 || n = 57448

/-- A key with a code point. Behind a colon is the character that it has with the shift key. -/
def codePoint? (parameters : List String) : Option Key := do
  let codes := (← parameters.head?).splitOn ":"
  let n ← number? 4294967295 (← codes.head?)
  let code ← codePointKey? n
  let told := modifiersOf parameters
  let own := ownModifiers n
  let modifiers :=
    { told with shift := told.shift || own.shift, control := told.control || own.control }
  let alternate := (codes[1]?.bind (number? 4294967295)).filter (·.isValidChar)
  match alternate with
  | some c => pressed? (if modifiers.shift then .char (Char.ofNat c) else code) modifiers
  | none => pressed? code modifiers

/-- The key of a control sequence with parameters, behind which `final` stands. -/
def withParameters? (body : List UInt8) (final : Char) : Option Key := do
  let parameters ← parameters? body
  if final = '~' then numbered? parameters
  else if final = 'u' then codePoint? parameters
  else named? body parameters final

/-- What goes in front of a text that is pasted, behind the bracket. -/
def pasteStart : List UInt8 := "200~".toUTF8.toList

def pasteEnd : List UInt8 := "\x1b[201~".toUTF8.toList

/-- The key of a complete sequence, or the sequence so far. -/
abbrev Progress := Option Key × KeySequence

def complete (key : Option Key) : Progress :=
  (key, nothing)

/-- Goes on behind a bracket and the bytes of `body`. The first of them tells the kind of sequence:
a second bracket is followed by one letter; reports of the mouse and answers of the terminal
have ends of their own and stand for no key. -/
def stepControl (body : List UInt8) (byte : UInt8) : Progress :=
  let c := Char.ofNat byte.toNat
  let more : Progress := (none, control (body ++ [byte]))
  match body.head?.map fun first => Char.ofNat first.toNat with
  | none =>
    if c.isDigit || c = '[' || c = 'M' || c = '<' || c = '?' then more
    else if c = 'Z' then complete (some { code := .other })
    else complete ((finalKey? c).map fun code => { code })
  | some '[' => complete (if 'A' ≤ c ∧ c ≤ 'E' then some { code := .other } else none)
  | some 'M' => if body.length < 3 then more else complete none
  | some '<' => if c = 'm' || c = 'M' then complete none else more
  | some '?' => if c = 'c' || (c = 'u' && 2 ≤ body.length) then complete none else more
  | some _ =>
    if pasteStart.isPrefixOf (body ++ [byte]) then
      if pasteEnd.isSuffixOf (body ++ [byte]) then complete none else more
    else if 64 ≤ byte && byte ≤ 126 then complete (withParameters? body c)
    else more

def characterSize (first : UInt8) : Nat :=
  if first < 0xE0 then 2 else if first < 0xF0 then 3 else 4

def stepCharacter (bytes : List UInt8) (byte : UInt8) : Progress :=
  let bytes := bytes ++ [byte]
  if byte < 0x80 || 0xC0 ≤ byte then complete none
  else if bytes.length < characterSize (bytes.headD 0) then (none, character bytes)
  else
    complete (((String.fromUTF8? ⟨bytes.toArray⟩).bind (·.toList.head?)).map fun c =>
      { code := .char c })

def stepFirst (byte : UInt8) : Progress :=
  if byte = escapeByte then (none, escape)
  else if byte < 0x80 then complete (some (Key.ofAscii (Char.ofNat byte.toNat)))
  else if 0xC0 ≤ byte && byte < 0xF8 then (none, character [byte])
  else complete none

/-- Takes one byte. The escape character in front of another character says that a key is held
which changes nothing here. -/
def step (read : KeySequence) (byte : UInt8) : Progress :=
  match read with
  | nothing => stepFirst byte
  | escape =>
    if byte = escapeByte then complete (some { code := .escape })
    else if byte = 'O'.toUInt8 then (none, shifted)
    else if byte = '['.toUInt8 then (none, control [])
    else stepFirst byte
  | shifted =>
    let c := Char.ofNat byte.toNat
    complete ((if c = 'R' then some .other else finalKey? c).map fun code => { code })
  | control body => stepControl body byte
  | character bytes => stepCharacter bytes byte

/-- The keys of the bytes that follow. Where they end, an escape character stands for its key. -/
def keys : KeySequence → List UInt8 → List Key
  | escape, [] => [{ code := .escape }]
  | _, [] => []
  | read, byte :: bytes =>
    let (key, read) := read.step byte
    key.toList ++ read.keys bytes

end KeySequence

def Key.ofBytes (bytes : List UInt8) : List Key :=
  KeySequence.nothing.keys bytes

end ForthMachine
