import ForthMachine.Proofs.Words
import ForthMachine.Text.Reader

/-!
# Readers read every character once

However requests are mixed, the position of a reader is the number of bytes in front of what is
left, so every cut is made in front of a character or at the end. Each request takes a piece of what
is left, the pieces are the text in order, and what is taken is what the readers of plain texts
take.
-/

set_option autoImplicit false

namespace ForthMachine.Text

@[simp] theorem byteCount_nil : byteCount [] = 0 := rfl

@[simp] theorem byteCount_cons (c : Char) (text : List Char) :
    byteCount (c :: text) = c.utf8Size + byteCount text := rfl

@[simp] theorem byteCount_append (first rest : List Char) :
    byteCount (first ++ rest) = byteCount first + byteCount rest := by
  induction first with
  | nil => rw [List.nil_append, byteCount_nil, Nat.zero_add]
  | cons c first ih => rw [List.cons_append, byteCount_cons, byteCount_cons, ih, Nat.add_assoc]

theorem byteCount_pos {text : List Char} (h : text ≠ []) : 0 < byteCount text := by
  cases text with
  | nil => exact absurd rfl h
  | cons c text =>
    have hc := c.utf8Size_pos
    rw [byteCount_cons]
    omega

theorem utf8ByteSize_ofList (text : List Char) :
    (String.ofList text).utf8ByteSize = byteCount text := by
  induction text with
  | nil => rfl
  | cons c text ih =>
    rw [← List.singleton_append, String.ofList_append, String.utf8ByteSize_append, ih,
      ← String.singleton_eq_ofList, String.utf8ByteSize_singleton]
    rfl

theorem utf8ByteSize_eq (text : String) : text.utf8ByteSize = byteCount text.toList := by
  rw [← utf8ByteSize_ofList, String.ofList_toList]

theorem cut?_append (first rest : List Char) :
    cut? (byteCount first) (first ++ rest) = some (first, rest) := by
  induction first with
  | nil => rw [List.nil_append, byteCount_nil, cut?]
  | cons c first ih =>
    have hc := c.utf8Size_pos
    obtain ⟨pos, hpos⟩ : ∃ pos, byteCount (c :: first) = pos + 1 :=
      Nat.exists_eq_add_one.mpr (byteCount_pos (List.cons_ne_nil c first))
    have hfirst : pos + 1 - c.utf8Size = byteCount first := by
      rw [← hpos, byteCount_cons]
      omega
    have hfits : c.utf8Size ≤ pos + 1 := by
      rw [← hpos, byteCount_cons]
      omega
    rw [hpos, List.cons_append, cut?, if_pos hfits, hfirst, ih]
    rfl

/-- Inside a character there is no cut. -/
example : cut? 1 ['é'] = none := by
  decide

theorem bytesTo?_append {p : Char → Bool} {first : List Char} {c : Char}
    (hfirst : ∀ d ∈ first, p d = false) (hc : p c = true) (rest : List Char) :
    bytesTo? p (first ++ c :: rest) = some (byteCount first) := by
  induction first with
  | nil => rw [List.nil_append, bytesTo?, if_pos hc, byteCount_nil]
  | cons d first ih =>
    have hd := hfirst d List.mem_cons_self
    rw [List.cons_append, bytesTo?, hd, if_neg Bool.false_ne_true,
      ih fun e he => hfirst e (List.mem_cons_of_mem d he)]
    rfl

theorem bytesTo?_eq_none {p : Char → Bool} {text : List Char} (h : ∀ c ∈ text, p c = false) :
    bytesTo? p text = none := by
  induction text with
  | nil => rfl
  | cons c text ih =>
    rw [bytesTo?, h c List.mem_cons_self, if_neg Bool.false_ne_true,
      ih fun d hd => h d (List.mem_cons_of_mem c hd)]
    rfl

/-- The reader has read the one part of its text, and the other part is left. -/
structure Reader.At (r : Reader) (read rest : List Char) : Prop where
  text : r.text.toList = read ++ rest
  pos : r.pos = byteCount read

namespace Reader.At

variable {r : Reader} {read rest piece : List Char}

theorem start (text : String) : Reader.At { text } [] text.toList :=
  ⟨rfl, rfl⟩

theorem isValid (h : r.At read rest) : String.Pos.Raw.IsValid r.text ⟨r.pos⟩ := by
  rw [String.Pos.Raw.isValid_iff_exists_append]
  refine ⟨String.ofList read, String.ofList rest, ?_, ?_⟩
  · rw [← String.ofList_append, ← h.text, String.ofList_toList]
  · rw [h.pos, ← utf8ByteSize_ofList]
    rfl

theorem rest?_eq (h : r.At read rest) : r.rest? = some rest := by
  rw [Reader.rest?, h.text, h.pos, cut?_append]
  rfl

theorem isFinished_iff (h : r.At read rest) : r.isFinished = true ↔ rest = [] := by
  rw [Reader.isFinished, decide_eq_true_iff, utf8ByteSize_eq, h.text, h.pos, byteCount_append]
  constructor
  · intro hle
    refine Classical.byContradiction fun hne => ?_
    have hpos := byteCount_pos hne
    omega
  · rintro rfl
    exact Nat.le_refl _

theorem advance (h : r.At read (piece ++ rest)) :
    (r.advance (byteCount piece)).At (read ++ piece) rest where
  text := h.text.trans (List.append_assoc read piece rest).symm
  pos := by
    rw [byteCount_append, ← h.pos]
    rfl

theorem skipBlanks_eq {blanks : List Char} (h : r.At read (blanks ++ rest))
    (hblanks : ∀ c ∈ blanks, isBlank c = true) (hrest : ∀ c ∈ rest.head?, isBlank c = false) :
    r.skipBlanks = some (byteCount blanks, r.advance (byteCount blanks)) := by
  have hskipped : byteCount (blanks ++ rest) - byteCount rest = byteCount blanks := by
    rw [byteCount_append, Nat.add_sub_cancel]
  rw [Reader.skipBlanks, h.rest?_eq, Option.map_some, (span_append hblanks hrest).2, hskipped]

theorem nextWord_eq_none (h : r.At read rest) (hrest : ∀ c ∈ rest, isBlank c = true) :
    r.nextWord = some (none, r.advance (byteCount rest)) := by
  have h : r.At read (rest ++ []) := by rwa [List.append_nil]
  have hend := h.advance.isFinished_iff.mpr rfl
  simp only [Reader.nextWord, h.skipBlanks_eq hrest (by simp), Option.bind_some, hend, if_true]

theorem nextWord_eq_some {blanks : List Char} {word : String}
    (h : r.At read (blanks ++ (word.toList ++ rest))) (hblanks : ∀ c ∈ blanks, isBlank c = true)
    (hword : IsWord word) (hrest : ∀ c ∈ rest.head?, isBlank c = true) :
    r.nextWord = some (some word, r.advance (byteCount (blanks ++ word.toList))) := by
  obtain ⟨hne, hall⟩ := hword
  have hfirst : ∀ c ∈ (word.toList ++ rest).head?, isBlank c = false := by
    rw [List.head?_append, List.head?_eq_some_head hne, Option.some_or]
    rintro c ⟨⟩
    exact hall _ (List.head_mem hne)
  have hgoes : (r.advance (byteCount blanks)).isFinished = false := by
    rw [← Bool.not_eq_true, h.advance.isFinished_iff]
    exact List.append_ne_nil_of_left_ne_nil hne rest
  have hstop : (bytesTo? isBlank (word.toList ++ rest)).getD (byteCount (word.toList ++ rest)) =
      byteCount word.toList := by
    cases rest with
    | nil => rw [List.append_nil, bytesTo?_eq_none hall, Option.getD_none]
    | cons c rest => rw [bytesTo?_append hall (hrest c rfl), Option.getD_some]
  have hpos : (r.advance (byteCount blanks)).advance (byteCount word.toList) =
      r.advance (byteCount (blanks ++ word.toList)) := by
    rw [Reader.advance, Reader.advance, Reader.advance, byteCount_append, Nat.add_assoc]
  simp only [Reader.nextWord, h.skipBlanks_eq hblanks hfirst, Option.bind_some, hgoes,
    Bool.false_eq_true, if_false, h.advance.rest?_eq, hstop, cut?_append, Option.map_some,
    String.ofList_toList, hpos]

variable {stop : Char} {taken : List Char}

theorem takeTo_eq_of_mem (h : r.At read (taken ++ stop :: rest)) (htaken : stop ∉ taken) :
    r.takeTo stop =
      some (String.ofList taken, r.advance (byteCount (taken ++ [stop]))) := by
  have hbefore : ∀ c ∈ taken, (c == stop) = false := by simpa using all_ne_of_not_mem htaken
  rw [Reader.takeTo, h.rest?_eq, Option.bind_some, bytesTo?_append hbefore (beq_self_eq_true stop)]
  simp only [cut?_append, Option.map_some, byteCount_append, byteCount_cons, byteCount_nil,
    Nat.add_zero]

theorem takeTo_eq_of_not_mem (h : r.At read taken) (htaken : stop ∉ taken) :
    r.takeTo stop = some (String.ofList taken, r.advance (byteCount taken)) := by
  have hbefore : ∀ c ∈ taken, (c == stop) = false := by simpa using all_ne_of_not_mem htaken
  rw [Reader.takeTo, h.rest?_eq, Option.bind_some, bytesTo?_eq_none hbefore]

theorem nextWord_agrees (h : r.At read rest) :
    ∃ r₁ read₁, r.nextWord = some ((Text.nextWord rest).1, r₁) ∧
      r₁.At read₁ (Text.nextWord rest).2 := by
  rcases hnext : Text.nextWord rest with ⟨word, rest₁⟩
  cases word with
  | none =>
    have hwords := words_of_nextWord_none hnext
    obtain rfl : rest₁ = [] := by
      rw [nextWord_of_words_nil hwords] at hnext
      exact (Prod.mk.inj hnext).2.symm
    refine ⟨_, read ++ rest, h.nextWord_eq_none (words_eq_nil_iff.mp hwords), advance ?_⟩
    rwa [List.append_nil]
  | some word =>
    obtain ⟨blanks, hblanks, rfl, hrest⟩ := eq_append_of_nextWord hnext
    refine ⟨_, read ++ (blanks ++ word.toList),
      h.nextWord_eq_some hblanks (isWord_of_nextWord hnext) hrest, advance ?_⟩
    rwa [List.append_assoc]

end Reader.At

/-- What a request takes of a text, and what it answers, when the other part is left. -/
inductive Serves : Request → Answer → (piece rest : List Char) → Prop
  | blanks {blanks rest : List Char} (blank : ∀ c ∈ blanks, isBlank c = true)
      (behind : ∀ c ∈ rest.head?, isBlank c = false) :
      Serves .blanks (.skipped (byteCount blanks)) blanks rest
  | word {blanks rest : List Char} {word : String} (blank : ∀ c ∈ blanks, isBlank c = true)
      (isWord : IsWord word) (behind : ∀ c ∈ rest.head?, isBlank c = true) :
      Serves .word (.word (some word)) (blanks ++ word.toList) rest
  | noWord {blanks : List Char} (blank : ∀ c ∈ blanks, isBlank c = true) :
      Serves .word (.word none) blanks []
  | upTo {stop : Char} {taken rest : List Char} (before : stop ∉ taken) :
      Serves (.upTo stop) (.text (String.ofList taken)) (taken ++ [stop]) rest
  | toEnd {stop : Char} {taken : List Char} (before : stop ∉ taken) :
      Serves (.upTo stop) (.text (String.ofList taken)) taken []
  | line {answer : Answer} {piece rest : List Char}
      (upToNewline : Serves (.upTo '\n') answer piece rest) : Serves .line answer piece rest

theorem exists_serves (request : Request) (text : List Char) :
    ∃ answer piece rest, text = piece ++ rest ∧ Serves request answer piece rest := by
  have hstop (stop : Char) : ∃ answer piece rest,
      text = piece ++ rest ∧ Serves (.upTo stop) answer piece rest := by
    by_cases hmem : stop ∈ text
    · obtain ⟨taken, rest, rfl, htaken⟩ := List.eq_append_cons_of_mem hmem
      refine ⟨_, taken ++ [stop], rest, ?_, .upTo htaken⟩
      rw [List.append_assoc, List.singleton_append]
    · exact ⟨_, text, [], (List.append_nil text).symm, .toEnd hmem⟩
  cases request with
  | blanks =>
    refine ⟨_, text.takeWhile isBlank, text.dropWhile isBlank,
      List.takeWhile_append_dropWhile.symm, .blanks ?_ ?_⟩
    · exact fun c hc => List.all_eq_true.mp List.all_takeWhile c hc
    · intro c hc
      have hhead := List.head?_dropWhile_not isBlank text
      rw [Option.mem_def.mp hc] at hhead
      simpa using hhead
  | word =>
    rcases hnext : nextWord text with ⟨word, rest⟩
    cases word with
    | none =>
      have hblank := words_eq_nil_iff.mp (words_of_nextWord_none hnext)
      exact ⟨_, text, [], (List.append_nil text).symm, .noWord hblank⟩
    | some word =>
      obtain ⟨blanks, hblanks, htext, hrest⟩ := eq_append_of_nextWord hnext
      refine ⟨_, blanks ++ word.toList, rest, ?_, .word hblanks (isWord_of_nextWord hnext) hrest⟩
      rw [htext, List.append_assoc]
  | upTo stop => exact hstop stop
  | line =>
    obtain ⟨answer, piece, rest, htext, hserves⟩ := hstop '\n'
    exact ⟨answer, piece, rest, htext, .line hserves⟩

/-- The reader takes the part of the text that answers the request, and nothing more. -/
theorem Reader.At.serve_eq {r : Reader} {read piece rest : List Char} {request : Request}
    {answer : Answer} (h : r.At read (piece ++ rest)) (hserves : Serves request answer piece rest) :
    r.serve request = some (answer, r.advance (byteCount piece)) := by
  induction hserves with
  | blanks hblank hbehind => rw [Reader.serve, h.skipBlanks_eq hblank hbehind, Option.map_some]
  | word hblank hword hbehind =>
    rw [List.append_assoc] at h
    rw [Reader.serve, h.nextWord_eq_some hblank hword hbehind, Option.map_some]
  | noWord hblank =>
    rw [List.append_nil] at h
    rw [Reader.serve, h.nextWord_eq_none hblank, Option.map_some]
  | upTo hbefore =>
    rw [List.append_assoc] at h
    rw [Reader.serve, h.takeTo_eq_of_mem hbefore, Option.map_some]
  | toEnd hbefore =>
    rw [List.append_nil] at h
    rw [Reader.serve, h.takeTo_eq_of_not_mem hbefore, Option.map_some]
  | line hserves ih => exact ih h

/-- A request with its answer, and the part of the text that it took. -/
structure Turn where
  request : Request
  answer : Answer
  piece : List Char

/-- The requests are served one after another. Every time the reader is in front of a character or
at the end, it goes on by the part that was taken, and the answer is right for what was left. -/
inductive Turns : Reader → List Turn → Reader → Prop
  | done (r : Reader) : Turns r [] r
  | turn {r r₁ r₂ : Reader} {t : Turn} {turns : List Turn} {read rest : List Char}
      (before : r.At read (t.piece ++ rest)) (served : r.serve t.request = some (t.answer, r₁))
      (after : r₁.At (read ++ t.piece) rest) (forward : r.pos ≤ r₁.pos)
      (right : Serves t.request t.answer t.piece rest) (more : Turns r₁ turns r₂) :
      Turns r (t :: turns) r₂

theorem exists_turns (requests : List Request) {r : Reader} {read rest : List Char}
    (h : r.At read rest) :
    ∃ turns r₁ rest₁, Turns r turns r₁ ∧ turns.map Turn.request = requests ∧
      r₁.At (read ++ turns.flatMap Turn.piece) rest₁ := by
  induction requests generalizing r read rest with
  | nil =>
    refine ⟨[], r, rest, .done r, rfl, ?_⟩
    rwa [List.flatMap_nil, List.append_nil]
  | cons request requests ih =>
    obtain ⟨answer, piece, rest, rfl, hserves⟩ := exists_serves request rest
    have hserved := h.serve_eq hserves
    obtain ⟨turns, r₁, rest₁, hturns, rfl, hat⟩ := ih h.advance
    refine ⟨⟨request, answer, piece⟩ :: turns, r₁, rest₁, ?_, rfl, ?_⟩
    · exact .turn h hserved h.advance (Nat.le_add_right r.pos _) hserves hturns
    · rwa [List.flatMap_cons, ← List.append_assoc]

theorem Turns.text_eq {r r₁ : Reader} {turns : List Turn} (h : Turns r turns r₁) :
    r₁.text = r.text := by
  induction h with
  | done r => rfl
  | turn before _ after _ _ _ ih =>
    rw [ih, ← String.toList_inj, before.text, after.text, List.append_assoc]

theorem Reader.At.nextWord_eq_none_iff {r : Reader} {read rest : List Char} (h : r.At read rest) :
    (∃ r₁, r.nextWord = some (none, r₁)) ↔ ∀ c ∈ rest, isBlank c = true := by
  constructor
  · rintro ⟨r₁, hnone⟩
    rw [← words_eq_nil_iff]
    refine Classical.byContradiction fun hwords => ?_
    obtain ⟨word, ws, hcons⟩ := List.exists_cons_of_ne_nil hwords
    obtain ⟨rest', hnext, -⟩ := nextWord_of_words_cons hcons
    obtain ⟨blanks, hblanks, rfl, hrest⟩ := eq_append_of_nextWord hnext
    rw [h.nextWord_eq_some hblanks (isWord_of_nextWord hnext) hrest] at hnone
    simp at hnone
  · intro hblank
    exact ⟨_, h.nextWord_eq_none hblank⟩

theorem Reader.At.collect_eq {r : Reader} {read rest : List Char} (h : r.At read rest)
    (count : Nat) : ∃ r₁, r.collect count = some ((words rest).take count, r₁) := by
  induction count generalizing r read rest with
  | zero => exact ⟨r, rfl⟩
  | succ count ih =>
    obtain ⟨r₁, read₁, hread, hat⟩ := h.nextWord_agrees
    rcases hnext : Text.nextWord rest with ⟨word, rest₁⟩
    rw [hnext] at hread hat
    cases word with
    | none =>
      rw [words_of_nextWord_none hnext, List.take_nil, Reader.collect, hread]
      exact ⟨r₁, rfl⟩
    | some word =>
      obtain ⟨r₂, hmore⟩ := ih hat
      rw [words_of_nextWord hnext, List.take_succ_cons, Reader.collect, hread]
      exact ⟨r₂, congrArg (Option.map _) hmore⟩

/-- The parts of a text between its blanks, without the empty ones. -/
def betweenBlanks (text : List Char) : List (List Char) :=
  (text.splitOnP isBlank).filter (!·.isEmpty)

theorem betweenBlanks_cons_of_blank {c : Char} (hc : isBlank c = true) (text : List Char) :
    betweenBlanks (c :: text) = betweenBlanks text := by
  rw [betweenBlanks, List.splitOnP_cons_eq_if_modifyHead, if_pos hc,
    List.filter_cons_of_neg (by simp), betweenBlanks]

theorem betweenBlanks_append_of_blanks {blanks : List Char} (h : ∀ c ∈ blanks, isBlank c = true)
    (text : List Char) : betweenBlanks (blanks ++ text) = betweenBlanks text := by
  induction blanks with
  | nil => rfl
  | cons c blanks ih =>
    rw [List.cons_append, betweenBlanks_cons_of_blank (h c List.mem_cons_self),
      ih fun d hd => h d (List.mem_cons_of_mem c hd)]

theorem betweenBlanks_append {word : String} (h : IsWord word) {rest : List Char}
    (hrest : ∀ c ∈ rest.head?, isBlank c = true) :
    betweenBlanks (word.toList ++ rest) = word.toList :: betweenBlanks rest := by
  obtain ⟨hne, hall⟩ := h
  have hkept : (!word.toList.isEmpty) = true := by simpa using hne
  cases rest with
  | nil =>
    rw [List.append_nil, betweenBlanks, List.splitOnP_eq_singleton hall, List.filter_cons,
      if_pos hkept]
    rfl
  | cons c rest =>
    rw [betweenBlanks_cons_of_blank (hrest c rfl), betweenBlanks,
      List.splitOnP_append_cons_of_forall_mem hall c (hrest c rfl), List.filter_cons,
      if_pos hkept, betweenBlanks]

theorem words_eq_betweenBlanks (text : List Char) :
    words text = (betweenBlanks text).map String.ofList := by
  induction text using words.induct with
  | case1 text rest hnext =>
    have hblank := words_eq_nil_iff.mp (words_of_nextWord_none hnext)
    have hempty := betweenBlanks_append_of_blanks hblank []
    rw [List.append_nil] at hempty
    rw [words_of_nextWord_none hnext, hempty]
    rfl
  | case2 text word rest hnext ih =>
    obtain ⟨blanks, hblanks, rfl, hrest⟩ := eq_append_of_nextWord hnext
    rw [words_of_nextWord hnext, ih, betweenBlanks_append_of_blanks hblanks,
      betweenBlanks_append (isWord_of_nextWord hnext) hrest, List.map_cons, String.ofList_toList]

/-- The code points with the property White_Space. -/
def whiteSpace : List Nat :=
  [0x9, 0xA, 0xB, 0xC, 0xD, 0x20, 0x85, 0xA0, 0x1680, 0x2000, 0x2001, 0x2002, 0x2003, 0x2004,
    0x2005, 0x2006, 0x2007, 0x2008, 0x2009, 0x200A, 0x2028, 0x2029, 0x202F, 0x205F, 0x3000]

theorem isBlank_iff (c : Char) : isBlank c = true ↔ c.toNat ∈ whiteSpace := by
  simp only [isBlank, whiteSpace, Bool.or_eq_true, Bool.and_eq_true, decide_eq_true_eq,
    beq_iff_eq, List.mem_cons, List.not_mem_nil, or_false]
  omega

/-- A reader reads every character of its text once, whatever is asked of it. Every slice it takes
is there: in front of every request, and at the end, its position is the number of bytes in front
of a character, or of the whole text, and never goes back. The parts taken by the requests, one
behind the other, are the beginning of the text that is read. Words end at blanks or at the end of
the text, and there is none when only blanks are left; asked for words alone, the reader gives the
parts of the text between its blanks, where the blanks are the characters with the property
White_Space. -/
theorem every_character_is_read_once (text : String) :
    (∀ requests : List Request, ∃ turns r rest, Turns { text } turns r ∧
      turns.map Turn.request = requests ∧ r.At (turns.flatMap Turn.piece) rest ∧ r.text = text ∧
        String.Pos.Raw.IsValid text ⟨r.pos⟩ ∧
          ((∃ r₁, r.nextWord = some (none, r₁)) ↔ ∀ c ∈ rest, isBlank c = true)) ∧
      (∀ count, ∃ r, Reader.collect count { text } =
        some (((betweenBlanks text.toList).map String.ofList).take count, r)) ∧
        ∀ c, isBlank c = true ↔ c.toNat ∈ whiteSpace := by
  refine ⟨?_, ?_, isBlank_iff⟩
  · intro requests
    obtain ⟨turns, r, rest, hturns, hrequests, hat⟩ := exists_turns requests (.start text)
    rw [List.nil_append] at hat
    have htext : r.text = text := hturns.text_eq
    exact ⟨turns, r, rest, hturns, hrequests, hat, htext, htext ▸ hat.isValid,
      hat.nextWord_eq_none_iff⟩
  · intro count
    rw [← words_eq_betweenBlanks]
    exact (Reader.At.start text).collect_eq count

end ForthMachine.Text
