import ForthMachine.Proofs.FileLines
import ForthMachine.Proofs.Words
import Mathlib.Tactic.SplitIfs

/-!
# Files read to their ends

A file is cut behind every newline, and what follows the last newline is a piece too, unless it is
empty. Asked again and again, the file answers for one piece after the other, for those too that
are no text. No newline stands within the bytes of another character, so that the pieces of a text
are texts, and cutting and trimming them leaves all of its words.
-/

set_option autoImplicit false

namespace ForthMachine

/-- The pieces of a list that is cut behind every `stop`. -/
inductive Cut {α : Type} (stop : α) : List α → List (List α) → Prop where
  | nothing : Cut stop [] []
  | ended {body rest : List α} {pieces : List (List α)} (plain : stop ∉ body)
      (others : Cut stop rest pieces) :
      Cut stop (body ++ stop :: rest) ((body ++ [stop]) :: pieces)
  | unended {body : List α} (plain : stop ∉ body) (some : body ≠ []) : Cut stop body [body]

namespace Cut

section Pieces

variable {α : Type} {stop a : α} {l : List α} {pieces : List (List α)}

theorem cons_stop (h : Cut stop l pieces) : Cut stop (stop :: l) ([stop] :: pieces) :=
  .ended List.not_mem_nil h

/-- Another element goes to the first piece. -/
theorem cons_of_ne (ha : a ≠ stop) (h : Cut stop l pieces) :
    Cut stop (a :: l) ((a :: pieces.head?.getD []) :: pieces.tail) := by
  cases h with
  | nothing => exact .unended (by simpa using ha.symm) (List.cons_ne_nil a [])
  | ended plain others => exact .ended (List.not_mem_cons_of_ne_of_not_mem ha.symm plain) others
  | unended plain =>
    exact .unended (List.not_mem_cons_of_ne_of_not_mem ha.symm plain) (List.cons_ne_nil a l)

theorem exists_pieces (stop : α) (l : List α) : ∃ pieces, Cut stop l pieces := by
  induction l with
  | nil => exact ⟨[], .nothing⟩
  | cons a l ih =>
    obtain ⟨pieces, h⟩ := ih
    by_cases ha : a = stop
    · subst ha
      exact ⟨_, h.cons_stop⟩
    · exact ⟨_, h.cons_of_ne ha⟩

end Pieces

end Cut

theorem splitLineBytes_append_newline {body : List UInt8} (h : newlineByte ∉ body)
    (rest : List UInt8) :
    splitLineBytes (body ++ newlineByte :: rest) = (body ++ [newlineByte], rest) := by
  induction body with
  | nil => exact splitLineBytes_newline rest
  | cons byte body ih =>
    obtain ⟨hbyte, hbody⟩ := List.ne_and_not_mem_of_not_mem_cons h
    rw [List.cons_append, splitLineBytes_of_ne hbyte.symm, ih hbody, List.cons_append]

theorem splitLineBytes_eq_self {body : List UInt8} (h : newlineByte ∉ body) :
    splitLineBytes body = (body, []) := by
  induction body with
  | nil => rfl
  | cons byte body ih =>
    obtain ⟨hbyte, hbody⟩ := List.ne_and_not_mem_of_not_mem_cons h
    rw [splitLineBytes_of_ne hbyte.symm, ih hbody]

/-- There is one way to cut. -/
theorem Cut.byteLines_eq {bytes : List UInt8} {lines : List (List UInt8)}
    (h : Cut newlineByte bytes lines) : byteLines bytes = lines := by
  induction h with
  | nothing => rfl
  | ended plain _ ih =>
    rw [byteLines_of_ne_nil (by simp), splitLineBytes_append_newline plain, ih]
  | unended plain some => rw [byteLines_of_ne_nil some, splitLineBytes_eq_self plain]; rfl

theorem cut_byteLines (bytes : List UInt8) : Cut newlineByte bytes (byteLines bytes) := by
  obtain ⟨lines, h⟩ := Cut.exists_pieces newlineByte bytes
  rwa [h.byteLines_eq]

/-- All but the run of carriage returns and newlines at the end. -/
def IsTrimmed (text trimmed : String) : Prop :=
  ∃ ending : List Char, text.toList = trimmed.toList ++ ending ∧
    (∀ c ∈ ending, c = '\r' ∨ c = '\n') ∧
    ∀ c ∈ trimmed.toList.getLast?, ¬(c = '\r' ∨ c = '\n')

theorem isLineEnd_iff {c : Char} : isLineEnd c = true ↔ c = '\r' ∨ c = '\n' := by
  simp [isLineEnd, or_comm]

theorem isBlank_of_isLineEnd {c : Char} (h : c = '\r' ∨ c = '\n') : Text.isBlank c = true := by
  obtain rfl | rfl := h <;> rfl

theorem isTrimmed_trimLineEnd (text : String) : IsTrimmed text (trimLineEnd text) := by
  refine ⟨(text.toList.reverse.takeWhile isLineEnd).reverse, ?_, fun c hc => ?_, fun c hc => ?_⟩
  · rw [trimLineEnd, String.toList_ofList, ← List.reverse_append, List.takeWhile_append_dropWhile,
      List.reverse_reverse]
  · exact isLineEnd_iff.mp (List.all_eq_true.mp List.all_takeWhile c (List.mem_reverse.mp hc))
  · rw [trimLineEnd, String.toList_ofList, List.getLast?_reverse, Option.mem_def] at hc
    have hhead := List.head?_dropWhile_not isLineEnd text.toList.reverse
    rw [hc] at hhead
    rw [← isLineEnd_iff]
    simpa using hhead

theorem IsTrimmed.words_eq {text trimmed : String} (h : IsTrimmed text trimmed) :
    Text.words trimmed.toList = Text.words text.toList := by
  obtain ⟨ending, htext, hending, -⟩ := h
  rw [htext]
  cases ending with
  | nil => rw [List.append_nil]
  | cons c ending =>
    have hnone : Text.words ending = [] :=
      Text.words_eq_nil_iff.mpr fun d hd =>
        isBlank_of_isLineEnd (hending d (List.mem_cons_of_mem c hd))
    rw [Text.words_append_cons_of_blank (isBlank_of_isLineEnd (hending c List.mem_cons_self)),
      hnone, List.append_nil]

/-- The bytes of a text. -/
def encodeUTF8 (text : List Char) : List UInt8 :=
  text.flatMap String.utf8EncodeChar

theorem decodeUTF8?_encodeUTF8 (text : List Char) :
    decodeUTF8? (encodeUTF8 text) = some (String.ofList text) := by
  have hbytes : (⟨(encodeUTF8 text).toArray⟩ : ByteArray) = text.utf8Encode :=
    ByteArray.ext List.data_toByteArray.symm
  rw [decodeUTF8?, hbytes, String.fromUTF8?, dif_pos ByteArray.isValidUTF8_utf8Encode]
  rfl

theorem decodeUTF8?_eq_some_iff {bytes : List UInt8} {text : String} :
    decodeUTF8? bytes = some text ↔ bytes = encodeUTF8 text.toList := by
  constructor
  · intro h
    unfold decodeUTF8? String.fromUTF8? at h
    split at h
    · have hbytes : text.toList.utf8Encode = ⟨bytes.toArray⟩ := by
        rw [String.utf8Encode_toList, ← Option.some.inj h]
        rfl
      have hdata := congrArg (fun array => array.data.toList) hbytes
      exact (List.toList_data_toByteArray.symm.trans hdata).symm
    · cases h
  · rintro rfl
    rw [decodeUTF8?_encodeUTF8, String.ofList_toList]

theorem decodeUTF8?_eq_none_iff {bytes : List UInt8} :
    decodeUTF8? bytes = none ↔ ∀ text : String, bytes ≠ encodeUTF8 text.toList := by
  simp only [Option.eq_none_iff_forall_ne_some, ne_eq, decodeUTF8?_eq_some_iff]

theorem newlineByte_not_mem_utf8EncodeChar {c : Char} (h : c ≠ '\n') :
    newlineByte ∉ String.utf8EncodeChar c := by
  have hval : c.val.toNat ≠ 10 := fun heq => h (Char.ext (UInt32.toNat_inj.mp heq))
  have hbyte {n : Nat} (hn : n % 256 ≠ 10) : newlineByte ≠ UInt8.ofNat n := fun heq => by
    have hnat := congrArg UInt8.toNat heq
    rw [UInt8.toNat_ofNat'] at hnat
    exact hn hnat.symm
  rw [String.utf8EncodeChar]
  generalize c.val.toNat = n at hval
  -- The bytes of the longer encodings are 128 and above.
  split_ifs <;> simp only [List.mem_cons, List.not_mem_nil, or_false, not_or]
  · exact hbyte (by omega)
  · exact ⟨hbyte (by omega), hbyte (by omega)⟩
  · exact ⟨hbyte (by omega), hbyte (by omega), hbyte (by omega)⟩
  · exact ⟨hbyte (by omega), hbyte (by omega), hbyte (by omega), hbyte (by omega)⟩

theorem encodeUTF8_append (text behind : List Char) :
    encodeUTF8 (text ++ behind) = encodeUTF8 text ++ encodeUTF8 behind :=
  List.flatMap_append

theorem newlineByte_not_mem_encodeUTF8 {text : List Char} (h : '\n' ∉ text) :
    newlineByte ∉ encodeUTF8 text := by
  intro hmem
  obtain ⟨c, hc, hbyte⟩ := List.mem_flatMap.mp hmem
  exact newlineByte_not_mem_utf8EncodeChar (fun heq => h (heq ▸ hc)) hbyte

theorem encodeUTF8_ne_nil {text : List Char} (h : text ≠ []) : encodeUTF8 text ≠ [] := by
  obtain ⟨c, rest, rfl⟩ := List.exists_cons_of_ne_nil h
  simp [encodeUTF8]

namespace Cut

variable {text : List Char} {pieces : List (List Char)}

theorem encodeUTF8 (h : Cut '\n' text pieces) :
    Cut newlineByte (encodeUTF8 text) (pieces.map ForthMachine.encodeUTF8) := by
  induction h with
  | nothing => exact .nothing
  | @ended body rest pieces plain _ ih =>
    rw [List.map_cons, encodeUTF8_append, encodeUTF8_append]
    exact .ended (newlineByte_not_mem_encodeUTF8 plain) ih
  | unended plain some =>
    exact .unended (newlineByte_not_mem_encodeUTF8 plain) (encodeUTF8_ne_nil some)

theorem words_eq (h : Cut '\n' text pieces) : pieces.flatMap Text.words = Text.words text := by
  induction h with
  | nothing => exact Text.words_nil.symm
  | @ended body rest pieces _ _ ih =>
    rw [List.flatMap_cons, ih, Text.words_append_cons_of_blank Text.isBlank_newline,
      Text.words_append_cons_of_blank Text.isBlank_newline, Text.words_nil, List.append_nil]
  | unended => rw [List.flatMap_singleton]

end Cut

/-- The words of a line, if it is a text. -/
def lineWords (line : List UInt8) : List String :=
  (decodeUTF8? line).elim [] fun text => Text.words text.toList

theorem lineWords_encodeUTF8 (text : List Char) :
    lineWords (encodeUTF8 text) = Text.words text := by
  rw [lineWords, decodeUTF8?_encodeUTF8, Option.elim_some, String.toList_ofList]

theorem lineWords_byteLines (text : List Char) :
    (byteLines (encodeUTF8 text)).flatMap lineWords = Text.words text := by
  obtain ⟨pieces, hcut⟩ := Cut.exists_pieces '\n' text
  rw [hcut.encodeUTF8.byteLines_eq, List.flatMap_map, ← hcut.words_eq]
  simp only [lineWords_encodeUTF8]

theorem LineSource.next_of_ne_nil {bytes : List UInt8} (h : bytes ≠ []) (number : Nat) :
    next { content := .bytes bytes, number } =
      match decodeUTF8? (splitLineBytes bytes).1 with
      | none => (.failed .invalidText, { content := .bytes (splitLineBytes bytes).2, number })
      | some text =>
        (.line (trimLineEnd text),
          { content := .bytes (splitLineBytes bytes).2, number := number + 1 }) := by
  cases bytes with
  | nil => exact absurd rfl h
  | cons byte bytes => rfl

namespace Source

/-- The bytes of a file that are still to come. -/
def unread : Source → List UInt8
  | lines { content := .bytes bytes, .. } => bytes
  | lines { content := .directory, .. } | terminal _ => []

/-- What the source does when it is asked and this line comes next, or the end. -/
inductive Answers (source : Source) : Option (List UInt8) → Prop where
  | text {line : List UInt8} {text trimmed : String} (valid : line = encodeUTF8 text.toList)
      (trimming : IsTrimmed text trimmed) (answer : source.next.1 = { line := some trimmed })
      (counted : source.next.2.number = source.number + 1)
      (consumed : source.unread = line ++ source.next.2.unread) : Answers source (some line)
  | invalid {line : List UInt8}
      (invalid : ∀ text : String, line ≠ encodeUTF8 text.toList)
      (answer : source.next.1 = { line := none, complaint := some (readingFailed .invalidText) })
      (counted : source.next.2.number = source.number)
      (consumed : source.unread = line ++ source.next.2.unread) : Answers source (some line)
  | finished (answer : source.next.1 = { line := none }) (unchanged : source.next.2 = source)
      (consumed : source.unread = []) : Answers source none

/-- The source after it was asked so many times. -/
def afterAsking (source : Source) : Nat → Source
  | 0 => source
  | n + 1 => source.next.2.afterAsking n

/-- What the source handed out when it was asked so many times. -/
def handedOut (source : Source) : Nat → List String
  | 0 => []
  | n + 1 => source.next.1.line.toList ++ source.next.2.handedOut n

theorem Answers.words_eq {source : Source} {line : Option (List UInt8)} (h : source.Answers line) :
    source.next.1.line.toList.flatMap (fun line => Text.words line.toList) =
      line.toList.flatMap lineWords := by
  cases h with
  | text valid trimming answer => simp [answer, valid, lineWords_encodeUTF8, trimming.words_eq]
  | invalid invalid answer => simp [answer, lineWords, decodeUTF8?_eq_none_iff.mpr invalid]
  | finished answer => simp [answer]

section File

variable (bytes : List UInt8) (number : Nat)

theorem answers_head_and_leaves_tail :
    (lines { content := .bytes bytes, number }).Answers (byteLines bytes).head? ∧
      ∃ left number', (lines { content := .bytes bytes, number }).next.2 =
          lines { content := .bytes left, number := number' } ∧
        byteLines left = (byteLines bytes).tail := by
  by_cases hne : bytes = []
  · subst hne
    exact ⟨.finished rfl rfl rfl, [], number, rfl, rfl⟩
  · have hnext := LineSource.next_of_ne_nil hne number
    have hbytes := (splitLineBytes_append bytes).symm
    rw [byteLines_of_ne_nil hne]
    cases htext : decodeUTF8? (splitLineBytes bytes).1 with
    | none =>
      have hstep : (lines { content := .bytes bytes, number }).next =
          ({ line := none, complaint := some (readingFailed .invalidText) },
            lines { content := .bytes (splitLineBytes bytes).2, number }) := by
        simp only [next, hnext, htext]
      have hinvalid := decodeUTF8?_eq_none_iff.mp htext
      refine ⟨.invalid hinvalid ?_ ?_ ?_, (splitLineBytes bytes).2, number, ?_, rfl⟩ <;> rw [hstep]
      · rfl
      · exact hbytes
    | some text =>
      have hstep : (lines { content := .bytes bytes, number }).next =
          ({ line := some (trimLineEnd text) },
            lines { content := .bytes (splitLineBytes bytes).2, number := number + 1 }) := by
        simp only [next, hnext, htext]
      have hvalid := decodeUTF8?_eq_some_iff.mp htext
      refine ⟨.text hvalid (isTrimmed_trimLineEnd text) ?_ ?_ ?_, (splitLineBytes bytes).2,
        number + 1, ?_, rfl⟩ <;> rw [hstep]
      · rfl
      · exact hbytes

theorem answers_afterAsking (n : Nat) :
    ((lines { content := .bytes bytes, number }).afterAsking n).Answers (byteLines bytes)[n]? := by
  induction n generalizing bytes number with
  | zero =>
    rw [← List.head?_eq_getElem?]
    exact (answers_head_and_leaves_tail bytes number).1
  | succ n ih =>
    obtain ⟨-, left, number', hnext, hleft⟩ := answers_head_and_leaves_tail bytes number
    rw [afterAsking, hnext, ← List.getElem?_tail, ← hleft]
    exact ih left number'

/-- The lines handed out have the words of the lines that they were asked for. -/
theorem words_handedOut (n : Nat) :
    ((lines { content := .bytes bytes, number }).handedOut n).flatMap
        (fun line => Text.words line.toList) =
      ((byteLines bytes).take n).flatMap lineWords := by
  induction n generalizing bytes number with
  | zero => rfl
  | succ n ih =>
    obtain ⟨hanswers, left, number', hnext, hleft⟩ := answers_head_and_leaves_tail bytes number
    rw [handedOut, List.flatMap_append, hanswers.words_eq, hnext, ih, hleft]
    cases byteLines bytes with
    | nil => simp
    | cons line lines => simp

end File

end Source

/-- A file answers for its lines one by one, and then it has no more: a line that is a text is
handed out without its end and counted, and any other is used up with a complaint. The lines of a
text have all its words. -/
theorem Source.file_is_read_line_by_line :
    (∀ (bytes : List UInt8) (number : Nat), Cut newlineByte bytes (byteLines bytes) ∧
      ∀ n, ((lines { content := .bytes bytes, number }).afterAsking n).Answers
        (byteLines bytes)[n]?) ∧
    ∀ (text : List Char) (number n : Nat), (byteLines (encodeUTF8 text)).length ≤ n →
      ((lines { content := .bytes (encodeUTF8 text), number }).handedOut n).flatMap
          (fun line => Text.words line.toList) =
        Text.words text := by
  refine ⟨fun bytes number => ⟨cut_byteLines bytes, answers_afterAsking bytes number⟩,
    fun text number n hn => ?_⟩
  rw [words_handedOut, List.take_of_length_le hn, lineWords_byteLines]

/-- A line that is no text is passed, and a carriage return in front of a newline is no word. -/
theorem Source.reads_past_invalid_line :
    ((lines { content := .bytes [49, 13, 10, 255, 10, 50] }).afterAsking 1).Answers
        (some [255, 10]) ∧
      (byteLines (encodeUTF8 "1\r\n2 +".toList)).length ≤ 2 ∧
      ((lines { content := .bytes (encodeUTF8 "1\r\n2 +".toList) }).handedOut 2).flatMap
        (fun line => Text.words line.toList) = Text.words "1\r\n2 +".toList :=
  ⟨(file_is_read_line_by_line.1 [49, 13, 10, 255, 10, 50] 0).2 1, by decide,
    file_is_read_line_by_line.2 "1\r\n2 +".toList 0 2 (by decide)⟩

end ForthMachine
