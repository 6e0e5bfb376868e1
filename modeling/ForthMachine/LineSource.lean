import ForthMachine.FileTree
import ForthMachine.Log

/-!
# Lines of a file

A line is the bytes up to and with the next newline, or all that is left. It is handed out as
text, without the carriage returns and newlines at its end. A line that is no UTF-8 is used up but
not handed out.
-/

set_option autoImplicit false

namespace ForthMachine

inductive ReadFault where
  | isDirectory
  | invalidText
  deriving DecidableEq, Repr

def ReadFault.message : ReadFault → String
  | .isDirectory => "Is a directory (os error 21)"
  | .invalidText => "stream did not contain valid UTF-8"

structure LineSource where
  content : FileContent
  /-- How many lines were handed out. -/
  number : Nat := 0
  deriving DecidableEq, Repr

inductive Reading where
  | line (text : String)
  | finished
  | failed (fault : ReadFault)
  deriving DecidableEq, Repr

def newlineByte : UInt8 := 10

/-- The first line, its newline with it, and what follows it. -/
def splitLineBytes (bytes : List UInt8) : List UInt8 × List UInt8 :=
  let rest := bytes.dropWhile (· != newlineByte)
  (bytes.takeWhile (· != newlineByte) ++ rest.take 1, rest.drop 1)

theorem splitLineBytes_append (bytes : List UInt8) :
    (splitLineBytes bytes).1 ++ (splitLineBytes bytes).2 = bytes := by
  unfold splitLineBytes
  rw [List.append_assoc, List.take_append_drop, List.takeWhile_append_dropWhile]

theorem splitLineBytes_ne_nil {bytes : List UInt8} (h : bytes ≠ []) :
    (splitLineBytes bytes).1 ≠ [] := by
  cases bytes with
  | nil => exact absurd rfl h
  | cons byte bytes => by_cases hb : byte = newlineByte <;> simp [splitLineBytes, hb]

theorem length_splitLineBytes_lt {bytes : List UInt8} (h : bytes ≠ []) :
    (splitLineBytes bytes).2.length < bytes.length := by
  have happ := congrArg List.length (splitLineBytes_append bytes)
  have hpos := List.length_pos_iff.mpr (splitLineBytes_ne_nil h)
  rw [List.length_append] at happ
  omega

def isLineEnd (c : Char) : Bool :=
  c == '\n' || c == '\r'

/-- The text without the carriage returns and newlines at its end. -/
def trimLineEnd (text : String) : String :=
  String.ofList (text.toList.reverse.dropWhile isLineEnd).reverse

def decodeUTF8? (bytes : List UInt8) : Option String :=
  String.fromUTF8? ⟨bytes.toArray⟩

namespace LineSource

/-- Opens a file. A directory can be opened too, but not read. -/
def ofFile (file : Except OpenFault FileContent) : Except OpenFault LineSource :=
  file.map fun content => { content }

def next (source : LineSource) : Reading × LineSource :=
  match source.content with
  | .directory => (.failed .isDirectory, source)
  | .bytes [] => (.finished, source)
  | .bytes bytes =>
    let (line, rest) := splitLineBytes bytes
    match decodeUTF8? line with
    | none => (.failed .invalidText, { source with content := .bytes rest })
    | some text =>
      (.line (trimLineEnd text), { content := .bytes rest, number := source.number + 1 })

def size (source : LineSource) : Nat :=
  match source.content with
  | .bytes bytes => bytes.length
  | .directory => 0

theorem size_next_lt {source rest : LineSource} {text : String}
    (h : source.next = (.line text, rest)) : rest.size < source.size := by
  unfold next at h
  split at h
  · simp at h
  · simp at h
  · next bytes hne hcontent =>
    have hlt : (splitLineBytes bytes).2.length < bytes.length :=
      length_splitLineBytes_lt (by rintro rfl; exact hne rfl)
    simp only at h
    split at h
    · simp at h
    · simp only [Prod.mk.injEq] at h
      rw [← h.2]
      simpa [size, hcontent] using hlt

end LineSource

def openingFailed (fault : OpenFault) : Entry where
  level := .error
  context := "FileHandle::new_file"
  text := "Unable to open file"
  detail := some (.text fault.message)

def readingFailed (fault : ReadFault) : Entry where
  level := .error
  context := "get_line"
  text := "read_line error"
  detail := some (.text fault.message)

end ForthMachine
