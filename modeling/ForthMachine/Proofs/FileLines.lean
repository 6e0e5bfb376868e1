import ForthMachine.Console

/-!
# The lines that a source hands out

The bytes of a file fall into lines, each with a newline at its end but perhaps the last. A file
hands them out one by one, as texts with numbers, up to the first that is no text.
-/

set_option autoImplicit false

namespace ForthMachine

/-- The lines of a file as bytes, each with its newline. -/
def byteLines : List UInt8 → List (List UInt8)
  | [] => []
  | byte :: bytes =>
    if byte = newlineByte then [byte] :: byteLines bytes
    else
      match byteLines bytes with
      | [] => [[byte]]
      | line :: lines => (byte :: line) :: lines

theorem splitLineBytes_newline (bytes : List UInt8) :
    splitLineBytes (newlineByte :: bytes) = ([newlineByte], bytes) := by
  simp [splitLineBytes]

theorem splitLineBytes_of_ne {byte : UInt8} (h : byte ≠ newlineByte) (bytes : List UInt8) :
    splitLineBytes (byte :: bytes) =
      (byte :: (splitLineBytes bytes).1, (splitLineBytes bytes).2) := by
  simp [splitLineBytes, h]

theorem byteLines_of_ne_nil {bytes : List UInt8} (h : bytes ≠ []) :
    byteLines bytes = (splitLineBytes bytes).1 :: byteLines (splitLineBytes bytes).2 := by
  induction bytes with
  | nil => exact absurd rfl h
  | cons byte bytes ih =>
    by_cases hbyte : byte = newlineByte
    · subst hbyte
      rw [splitLineBytes_newline, byteLines, if_pos rfl]
    · rw [splitLineBytes_of_ne hbyte, byteLines, if_neg hbyte]
      cases bytes with
      | nil => rfl
      | cons next bytes => rw [ih (List.cons_ne_nil next bytes)]

/-- The texts of lines, up to the first line that is none. -/
def readableTexts : List (List UInt8) → List String
  | [] => []
  | line :: lines =>
    match decodeUTF8? line with
    | none => []
    | some text => trimLineEnd text :: readableTexts lines

namespace LineSource

def texts (source : LineSource) : List String :=
  match source.content with
  | .directory => []
  | .bytes bytes => readableTexts (byteLines bytes)

/-- The texts to come with their numbers, which count the lines handed out before too. -/
def lines (source : LineSource) : List (String × Nat) :=
  source.texts.zipIdx (source.number + 1)

theorem next_cases (source : LineSource) :
    (source.texts = [] ∧ ∀ text, source.next.1 ≠ .line text) ∨
      ∃ text rest, source.next = (.line text, rest) ∧ rest.number = source.number + 1 ∧
        source.texts = text :: rest.texts := by
  rcases source with ⟨content, number⟩
  cases content with
  | directory => exact .inl ⟨rfl, nofun⟩
  | bytes bytes =>
    cases bytes with
    | nil => exact .inl ⟨rfl, nofun⟩
    | cons byte bytes =>
      have hlines := byteLines_of_ne_nil (List.cons_ne_nil byte bytes)
      cases htext : decodeUTF8? (splitLineBytes (byte :: bytes)).1 with
      | none =>
        refine .inl ⟨?_, fun text h => ?_⟩
        · simp only [texts, hlines, readableTexts, htext]
        · simp [next, htext] at h
      | some text =>
        refine .inr ⟨trimLineEnd text,
          ⟨.bytes (splitLineBytes (byte :: bytes)).2, number + 1⟩, ?_, rfl, ?_⟩
        · simp only [next, htext]
        · simp only [texts, hlines, readableTexts, htext]

end LineSource

/-- Asked again and again, the source hands out the lines with these numbers, and then none. -/
inductive Source.HandsOut : Source → List (String × Nat) → Prop where
  | finished {source rest : Source} {fetched : Fetched} (next : source.next = (fetched, rest))
      (nothing : fetched.line = none) : HandsOut source []
  | line {source rest : Source} {fetched : Fetched} {text : String} {lines : List (String × Nat)}
      (next : source.next = (fetched, rest)) (handed : fetched.line = some text)
      (others : HandsOut rest lines) : HandsOut source ((text, rest.number) :: lines)

theorem LineSource.handsOut (source : LineSource) : (Source.lines source).HandsOut source.lines := by
  generalize htexts : source.texts = texts
  induction texts generalizing source with
  | nil =>
    rw [LineSource.lines, htexts]
    obtain ⟨-, hnone⟩ | ⟨text, rest, -, -, hsome⟩ := source.next_cases
    · rcases hnext : source.next with ⟨reading, rest⟩
      cases reading with
      | line text => exact absurd (congrArg Prod.fst hnext) (hnone text)
      | finished | failed fault => exact .finished (by simp only [Source.next, hnext]; rfl) rfl
    · cases htexts.symm.trans hsome
  | cons text texts ih =>
    obtain ⟨hnil, -⟩ | ⟨text', rest, hnext, hnumber, hsome⟩ := source.next_cases
    · cases htexts.symm.trans hnil
    · obtain ⟨rfl, hrest⟩ := List.cons.inj (htexts.symm.trans hsome)
      have hlines : source.lines = (text, rest.number) :: rest.lines := by
        rw [LineSource.lines, htexts, List.zipIdx_cons, hrest, LineSource.lines, hnumber]
      have hstep : (Source.lines source).next = ({ line := some text }, .lines rest) := by
        simp only [Source.next, hnext]
      rw [hlines]
      exact .line hstep rfl (ih rest hrest.symm)

end ForthMachine
