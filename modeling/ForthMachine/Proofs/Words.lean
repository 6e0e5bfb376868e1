import ForthMachine.Text.Words

/-!
# Words and the texts that hold them

A text is seen as the list of its words. Words with a blank behind each, or one between every two
of them, are read back as they are.
-/

set_option autoImplicit false

namespace ForthMachine.Text

/-- What can stand between two blanks. -/
def IsWord (word : String) : Prop :=
  word.toList ≠ [] ∧ ∀ c ∈ word.toList, isBlank c = false

theorem isWord_iff (word : String) :
    (!word.toList.isEmpty && word.toList.all (!isBlank ·)) = true ↔ IsWord word := by
  simp [IsWord]

instance : DecidablePred IsWord := fun word => decidable_of_iff _ (isWord_iff word)

theorem isWord_of_nextWord {text rest : List Char} {word : String}
    (h : nextWord text = (some word, rest)) : IsWord word := by
  unfold nextWord at h
  split at h
  · simp at h
  · rename_i c tail hdrop
    simp only [Prod.mk.injEq, Option.some.injEq] at h
    have hc : isBlank c = false := by
      have hhead := List.head?_dropWhile_not isBlank text
      rw [hdrop] at hhead
      simpa using hhead
    rw [← h.1]
    refine ⟨by simp, ?_⟩
    intro d hd
    rw [String.toList_ofList] at hd
    rcases List.mem_cons.mp hd with rfl | hd
    · exact hc
    · simpa using List.all_eq_true.mp List.all_takeWhile d hd

theorem span_append {p : Char → Bool} {first rest : List Char} (hfirst : ∀ c ∈ first, p c = true)
    (hrest : ∀ c ∈ rest.head?, p c = false) :
    (first ++ rest).takeWhile p = first ∧ (first ++ rest).dropWhile p = rest := by
  rw [List.takeWhile_append_of_pos hfirst, List.dropWhile_append_of_pos hfirst]
  cases rest with
  | nil => simp
  | cons c rest => simp [hrest c rfl]

theorem nextWord_cons_of_blank {c : Char} (hc : isBlank c = true) (text : List Char) :
    nextWord (c :: text) = nextWord text := by
  simp only [nextWord, List.dropWhile_cons, hc, if_true]

theorem nextWord_append {word : String} (h : IsWord word) {rest : List Char}
    (hrest : ∀ c ∈ rest.head?, isBlank c = true) :
    nextWord (word.toList ++ rest) = (some word, rest) := by
  obtain ⟨hne, hall⟩ := h
  obtain ⟨c, cs, hcs⟩ := List.exists_cons_of_ne_nil hne
  have hc : isBlank c = false := hall c (by simp [hcs])
  have hcs' : ∀ d ∈ cs, (!isBlank d) = true := by
    intro d hd
    simpa using hall d (by simp [hcs, hd])
  have hrest' : ∀ d ∈ rest.head?, (!isBlank d) = false := by simpa using hrest
  obtain ⟨htake, hdrop⟩ := span_append hcs' hrest'
  rw [hcs, List.cons_append, nextWord, List.dropWhile_cons_of_neg (by simp [hc])]
  simp only [htake, hdrop, Prod.mk.injEq, Option.some.injEq, and_true]
  rw [← hcs, String.ofList_toList]

theorem nextWord_append_of_blanks {blanks : List Char} (h : ∀ c ∈ blanks, isBlank c = true)
    (text : List Char) : nextWord (blanks ++ text) = nextWord text := by
  induction blanks with
  | nil => rfl
  | cons c blanks ih =>
    rw [List.cons_append, nextWord_cons_of_blank (h c List.mem_cons_self),
      ih fun d hd => h d (List.mem_cons_of_mem c hd)]

/-- A text with a word in it: blanks, the word, and what is left, which is set off by a blank. -/
theorem eq_append_of_nextWord {text rest : List Char} {word : String}
    (h : nextWord text = (some word, rest)) :
    ∃ blanks, (∀ c ∈ blanks, isBlank c = true) ∧ text = blanks ++ (word.toList ++ rest) ∧
      ∀ c ∈ rest.head?, isBlank c = true := by
  unfold nextWord at h
  split at h
  · simp at h
  · rename_i c tail hdrop
    simp only [Prod.mk.injEq, Option.some.injEq] at h
    obtain ⟨rfl, rfl⟩ := h
    refine ⟨text.takeWhile isBlank, fun d hd => List.all_eq_true.mp List.all_takeWhile d hd, ?_, ?_⟩
    · rw [String.toList_ofList, List.cons_append, List.takeWhile_append_dropWhile, ← hdrop,
        List.takeWhile_append_dropWhile]
    · intro d hd
      have hhead := List.head?_dropWhile_not (!isBlank ·) tail
      rw [Option.mem_def.mp hd] at hhead
      simpa using hhead

theorem nextWord_append_of_some {text rest behind : List Char} {word : String}
    (h : nextWord text = (some word, rest)) (hbehind : ∀ c ∈ behind.head?, isBlank c = true) :
    nextWord (text ++ behind) = (some word, rest ++ behind) := by
  obtain ⟨blanks, hblanks, rfl, hrest⟩ := eq_append_of_nextWord h
  rw [List.append_assoc, nextWord_append_of_blanks hblanks, List.append_assoc]
  refine nextWord_append (isWord_of_nextWord h) ?_
  cases rest with
  | nil => exact hbehind
  | cons c rest => exact hrest

theorem words_of_nextWord_none {text rest : List Char} (h : nextWord text = (none, rest)) :
    words text = [] := by
  rw [words]
  split
  · rfl
  · rename_i word rest' hnext
    rw [h] at hnext
    simp at hnext

theorem words_of_nextWord {text rest : List Char} {word : String}
    (h : nextWord text = (some word, rest)) : words text = word :: words rest := by
  rw [words]
  split
  · rename_i hnext
    rw [h] at hnext
    simp at hnext
  · rename_i word' rest' hnext
    rw [h] at hnext
    simp only [Prod.mk.injEq, Option.some.injEq] at hnext
    rw [hnext.1, hnext.2]

theorem nextWord_of_words_nil {text : List Char} (h : words text = []) :
    nextWord text = (none, []) := by
  rcases hnext : nextWord text with ⟨word, rest⟩
  cases word with
  | none =>
    unfold nextWord at hnext
    split at hnext <;> simp_all
  | some word => simp [words_of_nextWord hnext] at h

theorem nextWord_of_words_cons {text : List Char} {word : String} {ws : List String}
    (h : words text = word :: ws) :
    ∃ rest, nextWord text = (some word, rest) ∧ words rest = ws := by
  rcases hnext : nextWord text with ⟨first, rest⟩
  cases first with
  | none => simp [words_of_nextWord_none hnext] at h
  | some first =>
    rw [words_of_nextWord hnext] at h
    obtain ⟨rfl, rfl⟩ := List.cons.inj h
    exact ⟨rest, rfl, rfl⟩

@[simp] theorem words_nil : words [] = [] :=
  words_of_nextWord_none nextWord_nil

theorem words_cons_of_blank {c : Char} (hc : isBlank c = true) (text : List Char) :
    words (c :: text) = words text := by
  rcases hnext : nextWord text with ⟨word, rest⟩
  have hcons := (nextWord_cons_of_blank hc text).trans hnext
  cases word with
  | none => rw [words_of_nextWord_none hcons, words_of_nextWord_none hnext]
  | some word => rw [words_of_nextWord hcons, words_of_nextWord hnext]

theorem words_toList {word : String} (h : IsWord word) : words word.toList = [word] := by
  have hnext : nextWord (word.toList ++ []) = (some word, []) := nextWord_append h (by simp)
  rw [List.append_nil] at hnext
  rw [words_of_nextWord hnext, words_nil]

theorem words_append_space {word : String} (h : IsWord word) (rest : List Char) :
    words (word.toList ++ ' ' :: rest) = word :: words rest := by
  rw [words_of_nextWord (nextWord_append h (by simp [isBlank_space])),
    words_cons_of_blank isBlank_space]

theorem words_eq_nil_iff {text : List Char} : words text = [] ↔ ∀ c ∈ text, isBlank c = true := by
  induction text with
  | nil => simp
  | cons c text ih =>
    by_cases hc : isBlank c = true
    · simp [words_cons_of_blank hc, ih, hc]
    · have hnext : nextWord (c :: text) = (some (String.ofList (c :: text.takeWhile (!isBlank ·))),
          text.dropWhile (!isBlank ·)) := by
        simp [nextWord, hc]
      simp [words_of_nextWord hnext, hc]

theorem words_append_of_blanks {blanks : List Char} (h : ∀ c ∈ blanks, isBlank c = true)
    (text : List Char) : words (blanks ++ text) = words text := by
  induction blanks with
  | nil => rfl
  | cons c blanks ih =>
    rw [List.cons_append, words_cons_of_blank (h c List.mem_cons_self),
      ih fun d hd => h d (List.mem_cons_of_mem c hd)]

theorem words_append_cons_of_blank {c : Char} (hc : isBlank c = true) (text behind : List Char) :
    words (text ++ c :: behind) = words text ++ words behind := by
  induction text using words.induct with
  | case1 text rest hnext =>
    have hnil := words_of_nextWord_none hnext
    rw [hnil, words_append_of_blanks (words_eq_nil_iff.mp hnil), words_cons_of_blank hc,
      List.nil_append]
  | case2 text word rest hnext ih =>
    rw [words_of_nextWord (nextWord_append_of_some hnext (by simpa using hc)), ih,
      words_of_nextWord hnext, List.cons_append]

theorem words_intercalate {ws : List String} (h : ∀ w ∈ ws, IsWord w) :
    words (" ".intercalate ws).toList = ws := by
  induction ws with
  | nil => simp
  | cons w ws ih =>
    have hw := h w List.mem_cons_self
    cases ws with
    | nil => rw [String.intercalate_singleton, words_toList hw]
    | cons v ws =>
      rw [String.intercalate_cons_cons, String.append_assoc, String.toList_append,
        String.toList_append, show " ".toList = [' '] from rfl, List.singleton_append,
        words_append_space hw, ih fun u hu => h u (List.mem_cons_of_mem w hu)]

theorem words_join {ws : List String} (h : ∀ w ∈ ws, IsWord w) :
    words (String.join (ws.map (· ++ " "))).toList = ws := by
  induction ws with
  | nil => exact words_nil
  | cons w ws ih =>
    rw [List.map_cons, String.join_cons, String.append_assoc, String.toList_append,
      String.toList_append, show " ".toList = [' '] from rfl, List.singleton_append,
      words_append_space (h w List.mem_cons_self), ih fun u hu => h u (List.mem_cons_of_mem w hu)]

section SplitAt

variable {stop : Char} {text : List Char}

theorem splitAt_cons_of_ne {c : Char} (h : c ≠ stop) (text : List Char) :
    (splitAt stop (c :: text)).2 = (splitAt stop text).2 := by
  simp [splitAt, h]

theorem splitAt_cons_self (stop : Char) (text : List Char) :
    (splitAt stop (stop :: text)).2 = text := by
  simp [splitAt]

theorem all_ne_of_not_mem (h : stop ∉ text) : ∀ c ∈ text, (c != stop) = true :=
  fun _ hc => bne_iff_ne.mpr fun heq => h (heq ▸ hc)

theorem splitAt_append_cons (h : stop ∉ text) (rest : List Char) :
    splitAt stop (text ++ stop :: rest) = (text, rest) := by
  have hstop : ∀ c ∈ (stop :: rest).head?, (c != stop) = false := by simp
  obtain ⟨htake, hdrop⟩ := span_append (all_ne_of_not_mem h) hstop
  rw [splitAt, htake, hdrop, List.drop_one, List.tail_cons]

theorem splitAt_eq_self (h : stop ∉ text) : splitAt stop text = (text, []) := by
  have hend : ∀ c ∈ [].head?, (c != stop) = false := by simp
  obtain ⟨htake, hdrop⟩ := span_append (all_ne_of_not_mem h) hend
  rw [List.append_nil] at htake hdrop
  rw [splitAt, htake, hdrop, List.drop_nil]

theorem splitAt_append_of_mem (h : stop ∈ text) (behind : List Char) :
    (splitAt stop (text ++ behind)).2 = (splitAt stop text).2 ++ behind := by
  obtain ⟨taken, rest, rfl, htaken⟩ := List.eq_append_cons_of_mem h
  rw [List.append_assoc, List.cons_append, splitAt_append_cons htaken, splitAt_append_cons htaken]

theorem splitAt_append_of_not_mem (h : stop ∉ text) (behind : List Char) :
    (splitAt stop (text ++ behind)).2 = (splitAt stop behind).2 := by
  rw [splitAt, splitAt, List.dropWhile_append_of_pos (all_ne_of_not_mem h)]

end SplitAt

end ForthMachine.Text
