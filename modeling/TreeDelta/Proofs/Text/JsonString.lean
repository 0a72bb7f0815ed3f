import TreeDelta.Proofs.Text.Spelling

/-!
# Written strings are read back

The body of a JSON string is written character by character, and what stands for a character spells
its code point. So a written string spells the code points of the string, which are no surrogates
and are not joined to anything else.

## Main results

* `JsonString.denoted_encodeBody`: the body of a written string stands for the string.
-/

namespace TreeDelta.JsonString

/-! ### One character -/

/-- What is written as a letter after a backslash is spelled by that letter. -/
theorem letterEscape?_spec {c e : Char} (h : letterEscape? c = some e) :
    (e, c.toNat) ∈ letters := by
  unfold letterEscape? at h
  repeat' split at h
  all_goals
    first
      | next hc =>
          obtain rfl := eq_of_beq hc
          obtain rfl := Option.some.inj h
          decide
      | contradiction

/-- What is not written as a letter is neither a quote nor a backslash, so it may stand in a string
as it is unless it is a control character. -/
theorem letterEscape?_none {c : Char} (h : letterEscape? c = none) : c ≠ '"' ∧ c ≠ '\\' := by
  constructor <;> (rintro rfl; exact absurd h (by decide))

/-- A control character is written with four digits, of which the first two are zeros. -/
theorem hex_control {n : Nat} (hn : n < 0x20) :
    ∃ a b c d, Text.hex 4 n = [a, b, c, d] ∧ IsHexUnit a b c d n := by
  have digits : ∀ n ∈ List.range 0x20, (Text.hex 4 n).length = 4 ∧
      hexUnit? ((Text.hex 4 n).getD 0 '0') ((Text.hex 4 n).getD 1 '0')
        ((Text.hex 4 n).getD 2 '0') ((Text.hex 4 n).getD 3 '0') = some n := by decide
  obtain ⟨hlen, hval⟩ := digits n (List.mem_range.mpr hn)
  match hd : Text.hex 4 n, hlen with
  | [a, b, c, d], _ =>
      rw [hd] at hval
      exact ⟨a, b, c, d, rfl, hexUnit?_eq_some_iff.mp hval⟩

/-- What stands for a character spells its code point, in front of whatever is spelled behind it. -/
theorem Spelled.encodeChar {w : List Char} {us : List Nat} (rest : Spelled '"' w us) (c : Char) :
    Spelled '"' (encodeChar c ++ w) (c.toNat :: us) := by
  unfold JsonString.encodeChar
  split
  · next e he => exact .letter (letterEscape?_spec he) rest
  · next he =>
      obtain ⟨hq, hb⟩ := letterEscape?_none he
      split
      · next hlow =>
          obtain ⟨a, b, d, f, hx, hunit⟩ := hex_control hlow
          rw [unitEscape, hx]
          exact .unit hunit rest
      · next hlow => exact .plain hq hb (Nat.le_of_not_lt hlow) rest

/-! ### Whole strings -/

/-- The body of a written string spells the code points of the string. -/
theorem spelled_encodeBody (cs : List Char) : Spelled '"' (encodeBody cs) (cs.map Char.toNat) := by
  induction cs with
  | nil => exact .nil
  | cons c cs ih => exact ih.encodeChar c

/-- Code points of characters are not joined: none of them is a surrogate. -/
theorem joined_toNat (cs : List Char) : Joined (cs.map Char.toNat) cs := by
  induction cs with
  | nil => exact .nil
  | cons c cs ih => exact .char c ih

/-- **The body of a written string stands for the string.** Reading what was written gives back what
was there. -/
theorem denoted_encodeBody (s : String) : Denoted '"' (encodeBody s.toList) s :=
  ⟨s.toList.map Char.toNat, spelled_encodeBody s.toList, joined_toNat s.toList⟩

/-- A written string is its body in quotes. -/
theorem toList_encode (s : String) :
    (encode s).toList = '"' :: (encodeBody s.toList ++ ['"']) := by
  rw [encode, String.toList_ofList]
  rfl

/-- The body of a written string is not closed by its quote, so that the quote behind it is the
closing one. -/
theorem span_encodeBody (cs : List Char) : Token.Span '"' (encodeBody cs) :=
  (spelled_encodeBody cs).span (.inl rfl)

end TreeDelta.JsonString
