import ForthMachine.Text.Numeral
import ForthMachine.Proofs.Words

/-!
# Numerals that were written

A number is written as a word, and the word is read back as the number.
-/

set_option autoImplicit false

namespace ForthMachine.Text

namespace Numeral

/-- A count away from zero, on the side that `negative` tells. -/
def signed (negative : Bool) (n : Nat) : Int := if negative then -n else n

theorem digit?_of_isDigit {c : Char} (h : c.isDigit = true) :
    digit? c = some (c.toNat - '0'.toNat) := by
  unfold digit?
  rw [if_pos h]

theorem le_ofDigitChars (digits : List Char) (n : Nat) : n ≤ Nat.ofDigitChars 10 digits n := by
  rw [Nat.ofDigitChars_eq_ofDigitChars_zero]
  have hpow : 1 ≤ 10 ^ digits.length := Nat.one_le_pow _ _ (by decide)
  have hmul := Nat.mul_le_mul_right n hpow
  omega

theorem extend_signed {digits : List Char} (hdigits : ∀ c ∈ digits, c.isDigit = true)
    {negative : Bool} {n : Nat} (hleast : least ≤ signed negative (Nat.ofDigitChars 10 digits n))
    (hgreatest : signed negative (Nat.ofDigitChars 10 digits n) ≤ greatest) :
    extend negative (signed negative n) digits =
      .ok (Int64.ofInt (signed negative (Nat.ofDigitChars 10 digits n))) := by
  induction digits generalizing n with
  | nil =>
    rw [Nat.ofDigitChars_nil]
    rfl
  | cons c digits ih =>
    have hdigit := digit?_of_isDigit (hdigits c List.mem_cons_self)
    have hzero : least ≤ 0 ∧ 0 ≤ greatest := by decide
    have hle := le_ofDigitChars digits (10 * n + (c.toNat - '0'.toNat))
    rw [Nat.ofDigitChars_cons] at hleast hgreatest ⊢
    have hnext : (if negative then 10 * signed negative n - (c.toNat - '0'.toNat : Nat)
        else 10 * signed negative n + (c.toNat - '0'.toNat : Nat)) =
        signed negative (10 * n + (c.toNat - '0'.toNat)) := by
      cases negative with
      | false => simp [signed]
      | true =>
        simp only [signed, if_true, Int.natCast_add, Int.natCast_mul, Int.cast_ofNat_Int]
        omega
    have hrange : least ≤ signed negative (10 * n + (c.toNat - '0'.toNat)) ∧
        signed negative (10 * n + (c.toNat - '0'.toNat)) ≤ greatest := by
      obtain ⟨hnegative, hpositive⟩ := hzero
      cases negative <;> simp only [signed, Bool.false_eq_true, if_true, if_false] at * <;> omega
    have hrest := ih (fun d hd => hdigits d (List.mem_cons_of_mem c hd)) hleast hgreatest
    simp only [extend, hdigit, hnext]
    rw [if_neg (Int.not_lt.mpr hrange.1), if_neg (Int.not_lt.mpr hrange.2)]
    exact hrest

theorem parseChars_of_isDigit {c : Char} (hc : c.isDigit = true) (digits : List Char) :
    parseChars (c :: digits) = extend false 0 (c :: digits) := by
  unfold parseChars
  split
  · rename_i h
    cases h
  · rename_i h
    cases h
    cases hc
  · rename_i h
    cases h
    cases hc
  · rename_i h
    cases h
    cases hc
  · rename_i h
    cases h
    cases hc
  · rfl

theorem parseChars_of_minus {digits : List Char} (h : digits ≠ []) :
    parseChars ('-' :: digits) = extend true 0 digits := by
  obtain ⟨c, rest, rfl⟩ := List.exists_cons_of_ne_nil h
  rfl

theorem toDigits_ne_nil (n : Nat) : Nat.toDigits 10 n ≠ [] :=
  List.ne_nil_of_length_pos Nat.length_toDigits_pos

theorem isDigit_toDigits (n : Nat) : ∀ c ∈ Nat.toDigits 10 n, c.isDigit = true := by
  intro c hc
  exact Nat.isDigit_of_mem_toDigits (by decide) (by decide) hc

theorem extend_toDigits (negative : Bool) {n : Nat} (hleast : least ≤ signed negative n)
    (hgreatest : signed negative n ≤ greatest) :
    extend negative 0 (Nat.toDigits 10 n) = .ok (Int64.ofInt (signed negative n)) := by
  have hzero : signed negative 0 = 0 := by cases negative <;> rfl
  have hread := extend_signed (n := 0) (isDigit_toDigits n)
    (by rw [Nat.ofDigitChars_ten_toDigits]; exact hleast)
    (by rw [Nat.ofDigitChars_ten_toDigits]; exact hgreatest)
  rwa [Nat.ofDigitChars_ten_toDigits, hzero] at hread

theorem toList_write (n : Int64) :
    (write n).toList = if 0 ≤ n.toInt then Nat.toDigits 10 n.toInt.toNat
      else '-' :: Nat.toDigits 10 (-n.toInt).toNat := by
  unfold write
  rw [Int.repr_eq_if]
  split
  · exact Nat.toList_repr
  · rw [String.toList_append, Nat.toList_repr]
    rfl

theorem parse_write (n : Int64) : parse (write n) = .ok n := by
  have hleast : least ≤ n.toInt := n.minValue_le_toInt
  have hgreatest : n.toInt ≤ greatest := n.toInt_le
  unfold parse
  rw [toList_write]
  split
  · rename_i hsign
    have hvalue : signed false n.toInt.toNat = n.toInt := Int.toNat_of_nonneg hsign
    obtain ⟨c, digits, hdigits⟩ := List.exists_cons_of_ne_nil (toDigits_ne_nil n.toInt.toNat)
    have hc : c.isDigit = true := by
      apply isDigit_toDigits n.toInt.toNat
      rw [hdigits]
      exact List.mem_cons_self
    rw [hdigits, parseChars_of_isDigit hc, ← hdigits,
      extend_toDigits false (by rw [hvalue]; exact hleast) (by rw [hvalue]; exact hgreatest),
      hvalue, Int64.ofInt_toInt]
  · rename_i hsign
    have hvalue : signed true (-n.toInt).toNat = n.toInt := by
      simp only [signed, if_true]
      omega
    rw [parseChars_of_minus (toDigits_ne_nil _),
      extend_toDigits true (by rw [hvalue]; exact hleast) (by rw [hvalue]; exact hgreatest),
      hvalue, Int64.ofInt_toInt]

theorem isBlank_of_isDigit {c : Char} (h : c.isDigit = true) : isBlank c = false := by
  have hrange : 48 ≤ c.toNat ∧ c.toNat ≤ 57 := by
    simp only [Char.isDigit, Bool.and_eq_true, decide_eq_true_eq] at h
    exact ⟨h.1, h.2⟩
  simp only [isBlank, Bool.or_eq_false_iff, Bool.and_eq_false_iff, decide_eq_false_iff_not,
    beq_eq_false_iff_ne]
  omega

theorem isWord_write (n : Int64) : IsWord (write n) := by
  refine ⟨?_, ?_⟩
  · rw [toList_write]
    split
    · exact toDigits_ne_nil _
    · exact List.cons_ne_nil _ _
  · intro c hc
    rw [toList_write] at hc
    split at hc
    · exact isBlank_of_isDigit (isDigit_toDigits _ c hc)
    · rcases List.mem_cons.mp hc with rfl | hc
      · rfl
      · exact isBlank_of_isDigit (isDigit_toDigits _ c hc)

end Numeral

end ForthMachine.Text
