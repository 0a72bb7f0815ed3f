import TreeDelta.Tree.Search

/-!
# Numerals

An index is written as its decimal numeral, and texts meet indices in two places: a run of digits
inside a path expression is read back as an index, and a property that is the numeral of an index
names that place of a list. Both readings undo the writing.

## Main results

* `Text.digitsValue_toDigits`: the digits of a number are read back as the number.
* `numeral?_eq_some_iff`: a text is the numeral of an index exactly when the index is written so.
* `Component.index_text_inj`: different indices have different texts.
-/

namespace TreeDelta

namespace Text

/-! ### Runs of digits -/

/-- A run of digits is read with the digits of the standard library, whose lemmas apply from here
on. -/
theorem digitsValue_eq_ofDigitChars (cs : List Char) :
    digitsValue cs = Nat.ofDigitChars 10 cs 0 := by
  rw [digitsValue, Nat.ofDigitChars_eq_foldl]
  congr 1
  funext n c
  rw [Nat.mul_comm]
  rfl

/-- The digits of a number are read back as the number. -/
theorem digitsValue_toDigits (n : Nat) : digitsValue (Nat.toDigits 10 n) = n := by
  rw [digitsValue_eq_ofDigitChars, Nat.ofDigitChars_ten_toDigits]

/-- Every character of a number is a digit. -/
theorem isDigit_of_mem_toDigits {n : Nat} {c : Char} (h : c ∈ Nat.toDigits 10 n) :
    isDigit c = true :=
  Nat.isDigit_of_mem_toDigits (by decide) (by decide) h

/-- A digit is the digit of its distance from zero. -/
theorem digitChar_of_isDigit {c : Char} (h : isDigit c = true) :
    c.toNat - 48 < 10 ∧ Nat.digitChar (c.toNat - 48) = c := by
  simp only [isDigit, Bool.and_eq_true, decide_eq_true_eq] at h
  have low : 48 ≤ c.toNat := h.1
  have high : c.toNat ≤ 57 := h.2
  refine ⟨by omega, ?_⟩
  apply Char.toNat_inj.mp
  rw [Nat.toNat_digitChar_of_lt_ten (by omega)]
  omega

/-- Digits that follow a number other than zero extend its numeral. Behind a zero they would not, as
no numeral starts with one. -/
theorem toDigits_append {n : Nat} (hn : 0 < n) {cs : List Char}
    (h : ∀ c ∈ cs, isDigit c = true) :
    Nat.toDigits 10 n ++ cs = Nat.toDigits 10 (Nat.ofDigitChars 10 cs n) := by
  induction cs generalizing n with
  | nil => simp
  | cons c cs ih =>
      obtain ⟨hd, hc⟩ := digitChar_of_isDigit (h c (by simp))
      have step : Nat.toDigits 10 n ++ [c] = Nat.toDigits 10 (10 * n + (c.toNat - 48)) := by
        rw [← Nat.toDigits_append_toDigits (by decide) hn hd, Nat.toDigits_of_lt_base hd, hc]
      calc Nat.toDigits 10 n ++ c :: cs
          = (Nat.toDigits 10 n ++ [c]) ++ cs := by simp
        _ = Nat.toDigits 10 (10 * n + (c.toNat - 48)) ++ cs := by rw [step]
        _ = Nat.toDigits 10 (Nat.ofDigitChars 10 (c :: cs) n) := by
            rw [ih (by omega) fun d hd => h d (by simp [hd]), Nat.ofDigitChars_cons]
            rfl

/-- A run of digits without a leading zero is the numeral of its value. This is the converse of
reading a numeral. -/
theorem toDigits_digitsValue {c : Char} {cs : List Char} (hz : c ≠ '0')
    (h : ∀ d ∈ c :: cs, isDigit d = true) :
    Nat.toDigits 10 (digitsValue (c :: cs)) = c :: cs := by
  obtain ⟨hd, hc⟩ := digitChar_of_isDigit (h c (by simp))
  have pos : 0 < c.toNat - 48 := by
    refine Nat.pos_of_ne_zero fun h0 => hz ?_
    rw [← hc, h0]
    rfl
  have tail := toDigits_append pos fun d hm => h d (List.mem_cons_of_mem c hm)
  rw [Nat.toDigits_of_lt_base hd, hc] at tail
  rw [digitsValue_eq_ofDigitChars, Nat.ofDigitChars_cons, Nat.mul_zero, Nat.zero_add]
  exact tail.symm

/-- Only zero is written with a leading zero. -/
theorem head_toDigits_ne_zero {n : Nat} (hn : 0 < n) :
    ∃ c cs, Nat.toDigits 10 n = c :: cs ∧ c ≠ '0' := by
  induction n using Nat.base_induction 10 (by decide) with
  | single m hm =>
      refine ⟨m.digitChar, [], Nat.toDigits_of_lt_base hm, fun h0 => ?_⟩
      have hval := Nat.toNat_digitChar_of_lt_ten hm
      rw [h0] at hval
      have : ('0' : Char).toNat = 48 := rfl
      omega
  | digit m k hk hm ih =>
      obtain ⟨c, cs, hcs, hc⟩ := ih hm
      refine ⟨c, cs ++ Nat.toDigits 10 k, ?_, hc⟩
      rw [← Nat.toDigits_append_toDigits (by decide) hm hk, hcs]
      rfl

end Text

/-! ### Numerals as properties -/

/-- A text is the numeral of an index exactly when the index is written so. This leaves out signs,
blanks and zeros in front. -/
theorem numeral?_eq_some_iff {s : String} {i : Nat} :
    numeral? s = some i ↔ toString i = s := by
  rw [Nat.toString_eq_repr, ← String.toList_inj, Nat.toList_repr, numeral?]
  constructor
  · intro h
    split at h
    · exact absurd h (by simp)
    · next hs =>
        obtain rfl := Option.some.inj h
        rw [hs, Nat.toDigits_zero]
    · next c cs hs =>
        split at h
        · next hdigits =>
            simp only [Bool.and_eq_true, bne_iff_ne, ne_eq, List.all_eq_true] at hdigits
            obtain rfl := Option.some.inj h
            rw [hs, Text.toDigits_digitsValue hdigits.1 hdigits.2]
        · exact absurd h (by simp)
  · intro h
    rcases Nat.eq_zero_or_pos i with rfl | hi
    · rw [← h, Nat.toDigits_zero]
      rfl
    · obtain ⟨c, cs, hcs, hc⟩ := Text.head_toDigits_ne_zero hi
      have hall : (c :: cs).all Text.isDigit = true := by
        rw [List.all_eq_true, ← hcs]
        exact fun d hd => Text.isDigit_of_mem_toDigits hd
      rw [← h, hcs]
      split
      · next he => exact absurd he (by simp)
      · next he => exact absurd (List.cons.inj he).1 hc
      · next d ds he =>
          obtain ⟨rfl, rfl⟩ := List.cons.inj he
          rw [if_pos (by rw [hall]; simpa using hc), ← hcs, Text.digitsValue_toDigits]

/-- Different indices have different texts. -/
theorem Component.index_text_inj {i j : Nat} :
    (Component.index i).text = (Component.index j).text ↔ i = j := by
  constructor
  · intro h
    have hi : numeral? (toString i) = some i := numeral?_eq_some_iff.mpr rfl
    have hj : numeral? (toString j) = some j := numeral?_eq_some_iff.mpr rfl
    simp only [Component.text] at h
    rw [h, hj] at hi
    exact (Option.some.inj hi).symm
  · exact fun h => h ▸ rfl

end TreeDelta
