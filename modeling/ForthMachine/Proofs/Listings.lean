import ForthMachine.Proofs.Grammar
import ForthMachine.Proofs.Numerals

/-!
# Listings that are read back

The source text of a definition is a line that defines it again. The words of the text are the
words its tree is written with, and the compiler makes the same tree of them, as long as every name
still means the word that was called.
-/

set_option autoImplicit false

namespace ForthMachine

open Machine

mutual

def Token.source : Token → List String
  | .number n => [Text.Numeral.write n]
  | .call word => [word.name]
  | .unresolved name => [name]
  | .counted body step => "DO" :: (Token.sourceAll body ++ [step.closer])
  | .branch ifTrue [] => "IF" :: (Token.sourceAll ifTrue ++ ["THEN"])
  | .branch ifTrue ifFalse =>
    "IF" :: (Token.sourceAll ifTrue ++ "ELSE" :: (Token.sourceAll ifFalse ++ ["THEN"]))
  | .indefinite condition body =>
    "BEGIN" :: (Token.sourceAll condition ++ "WHILE" :: (Token.sourceAll body ++ ["REPEAT"]))
  | .leave => ["LEAVE"]
termination_by structural token => token

def Token.sourceAll : List Token → List String
  | [] => []
  | token :: tokens => Token.source token ++ Token.sourceAll tokens
termination_by structural tokens => tokens

end

mutual

/-- How many marks the source of a token has open at once. -/
def Token.marks : Token → Nat
  | .counted body _ => Token.marksAll body + 1
  | .branch ifTrue ifFalse => max (Token.marksAll ifTrue) (Token.marksAll ifFalse) + 1
  | .indefinite condition body => max (Token.marksAll condition + 1) (Token.marksAll body + 2)
  | _ => 0
termination_by structural token => token

def Token.marksAll : List Token → Nat
  | [] => 0
  | token :: tokens => max (Token.marks token) (Token.marksAll tokens)
termination_by structural tokens => tokens

end

mutual

/-- Every call in the tree is of the word that the dictionary holds under its name. -/
def Token.Current (dictionary : Dictionary) : Token → Prop
  | .call word => dictionary.find? word.name = some word
  | .counted body _ => Token.AllCurrent dictionary body
  | .branch ifTrue ifFalse =>
    Token.AllCurrent dictionary ifTrue ∧ Token.AllCurrent dictionary ifFalse
  | .indefinite condition body =>
    Token.AllCurrent dictionary condition ∧ Token.AllCurrent dictionary body
  | _ => True
termination_by structural token => token

def Token.AllCurrent (dictionary : Dictionary) : List Token → Prop
  | [] => True
  | token :: tokens => Token.Current dictionary token ∧ Token.AllCurrent dictionary tokens
termination_by structural tokens => tokens

end

theorem Step.isWord_closer (step : Step) : Text.IsWord step.closer := by
  cases step with
  | fixed n => exact Structural.loopWord.isWord_name
  | fromStack => exact Structural.plusLoop.isWord_name

theorem Opener.isWord_text (opener : Opener) : Text.IsWord opener.text := by
  cases opener <;> decide

theorem words_opener (opener : Opener) (rest : List Char) :
    Text.words ((opener.text ++ " ").toList ++ rest) = opener.text :: Text.words rest := by
  rw [String.toList_append, List.append_assoc]
  exact Text.words_append_space opener.isWord_text rest

mutual

theorem Token.words_text : ∀ (token : Token), token.Sound → ∀ rest : List Char,
    Text.words (token.text.toList ++ ' ' :: rest) = token.source ++ Text.words rest
  | .number n, _, rest => Text.words_append_space (Text.Numeral.isWord_write n) rest
  | .call word, h, rest => Text.words_append_space h.2.2.isWord rest
  | .unresolved _, h, _ => h.elim
  | .counted body step, h, rest => by
    simp only [Token.text, Token.source, String.toList_append, List.append_assoc, List.cons_append,
      List.nil_append]
    rw [show "DO " = Opener.doWord.text ++ " " from rfl, words_opener,
      Token.words_listing body h.1, Text.words_append_space step.isWord_closer]
    rfl
  | .branch ifTrue [], h, rest => by
    simp only [Token.text, Token.source, String.toList_append, List.append_assoc, List.cons_append,
      List.nil_append]
    rw [show "IF " = Opener.ifWord.text ++ " " from rfl, words_opener,
      Token.words_listing ifTrue h.1, Text.words_append_space (by decide)]
    rfl
  | .branch ifTrue (token :: tokens), h, rest => by
    simp only [Token.text, Token.source, String.toList_append, List.append_assoc, List.cons_append,
      List.nil_append]
    rw [show "IF " = Opener.ifWord.text ++ " " from rfl, words_opener,
      Token.words_listing ifTrue h.1, show "ELSE " = Opener.elseWord.text ++ " " from rfl,
      words_opener, Token.words_listing (token :: tokens) h.2,
      Text.words_append_space (by decide)]
    rfl
  | .indefinite condition body, h, rest => by
    simp only [Token.text, Token.source, String.toList_append, List.append_assoc, List.cons_append,
      List.nil_append]
    rw [show "BEGIN " = Opener.beginWord.text ++ " " from rfl, words_opener,
      Token.words_listing condition h.1, show "WHILE " = Opener.whileWord.text ++ " " from rfl,
      words_opener, Token.words_listing body h.2, Text.words_append_space (by decide)]
    rfl
  | .leave, _, rest => Text.words_append_space (by decide) rest
termination_by structural token => token

theorem Token.words_listing : ∀ (tokens : List Token), Token.AllSound tokens →
    ∀ rest : List Char,
    Text.words ((Token.listing tokens).toList ++ rest) = Token.sourceAll tokens ++ Text.words rest
  | [], _, rest => rfl
  | token :: tokens, h, rest => by
    have htoken := Token.words_text token h.1 ((Token.listing tokens).toList ++ rest)
    have htokens := Token.words_listing tokens h.2 rest
    simp only [Token.listing, Token.sourceAll, String.toList_append, List.append_assoc]
    rw [← htokens, ← htoken]
    rfl
termination_by structural tokens => tokens

end

section Compiled

variable {dictionary : Dictionary} {limit : Nat}

mutual

theorem Token.piece
    (hheld : ∀ s : Structural, s ≠ .untilWord → dictionary.structural? s.name = some s) :
    ∀ token : Token, token.Sound → token.Current dictionary →
    Piece dictionary limit token.source [token] token.marks
  | .number n, _, _ => by
    have hclassify : classify dictionary (Text.Numeral.write n) = .number n := by
      simp [classify, Text.Numeral.parse_write]
    have hplain : Piece dictionary limit [Text.Numeral.write n] [_] 0 :=
      .plain (by rw [hclassify]; trivial)
    rwa [hclassify] at hplain
  | .call word, h, hcurrent => by
    have hclassify : classify dictionary word.name = .call word :=
      classify_of_not_isNumeral h.2.1 hcurrent
    have hplain : Piece dictionary limit [word.name] [_] 0 :=
      .plain (by rw [hclassify]; exact h.1)
    rwa [hclassify] at hplain
  | .unresolved _, h, _ => h.elim
  | .counted body step, h, hcurrent => by
    have hbody := Token.pieceAll hheld body h.1 hcurrent
    rcases h.2 with rfl | rfl
    · exact .loop (hheld .doWord nofun) (hheld .loopWord nofun) hbody
    · exact .plusLoop (hheld .doWord nofun) (hheld .plusLoop nofun) hbody
  | .branch ifTrue [], h, hcurrent => by
    have hpiece := Piece.ifThen (hheld .ifWord nofun) (hheld .thenWord nofun)
      (Token.pieceAll hheld ifTrue h.1 hcurrent.1)
    simpa [Token.source, Token.marks, Token.marksAll] using hpiece
  | .branch ifTrue (token :: tokens), h, hcurrent =>
    .ifElse (hheld .ifWord nofun) (hheld .elseWord nofun) (hheld .thenWord nofun)
      (Token.pieceAll hheld ifTrue h.1 hcurrent.1)
      (Token.pieceAll hheld (token :: tokens) h.2 hcurrent.2)
  | .indefinite condition body, h, hcurrent =>
    .whileLoop (hheld .beginWord nofun) (hheld .whileWord nofun)
      (hheld .repeatWord nofun) (Token.pieceAll hheld condition h.1 hcurrent.1)
      (Token.pieceAll hheld body h.2 hcurrent.2)
  | .leave, _, _ => .leave (hheld .leaveWord nofun)
termination_by structural token => token

theorem Token.pieceAll
    (hheld : ∀ s : Structural, s ≠ .untilWord → dictionary.structural? s.name = some s) :
    ∀ tokens : List Token, Token.AllSound tokens → Token.AllCurrent dictionary tokens →
    Piece dictionary limit (Token.sourceAll tokens) tokens (Token.marksAll tokens)
  | [], _, _ => .nil
  | token :: tokens, h, hcurrent =>
    (Token.piece hheld token h.1 hcurrent.1).append (Token.pieceAll hheld tokens h.2 hcurrent.2)
termination_by structural tokens => tokens

end

end Compiled

mutual

theorem Token.same_refl : ∀ token : Token, Token.same token token = true
  | .number n => by simp [Token.same]
  | .call word => by simp [Token.same]
  | .unresolved name => by simp [Token.same]
  | .counted body step => by simp [Token.same, Token.sameList_refl body]
  | .branch ifTrue ifFalse => by
    simp [Token.same, Token.sameList_refl ifTrue, Token.sameList_refl ifFalse]
  | .indefinite condition body => by
    simp [Token.same, Token.sameList_refl condition, Token.sameList_refl body]
  | .leave => rfl
termination_by structural token => token

theorem Token.sameList_refl : ∀ tokens : List Token, Token.sameList tokens tokens = true
  | [] => rfl
  | token :: tokens => by
    simp [Token.sameList, Token.same_refl token, Token.sameList_refl tokens]
termination_by structural tokens => tokens

end

end ForthMachine
