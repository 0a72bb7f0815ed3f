import TreeDelta.Text.Printable

/-!
# Quoted text

A quoted text stands between apostrophes, or between double quotes when it holds an apostrophe and
no double quote. Backslashes, the chosen quote and whatever is not printable are escaped, so the
quoted form is one line of printable characters.

## Main definitions

* `Text.quoted`: the quoted form of a string.
* `Text.quotedBytes`: the quoted form of a byte string.
-/

namespace TreeDelta.Text

/-- The digits of `n` in base sixteen, in lower case, padded with zeros to at least `width`. -/
def hex (width n : Nat) : List Char :=
  let digits := Nat.toDigits 16 n
  List.replicate (width - digits.length) '0' ++ digits

/-- The quote around a text: an apostrophe, unless only that one occurs inside. When both quotes
occur, the apostrophe is used and escaped. -/
def quoteFor (cs : List Char) : Char :=
  if cs.contains '\x27' && !cs.contains '"' then '"' else '\x27'

/-- The escape of a character that is not printable, as short as its code point allows: two, four or
eight digits. -/
def escapeCode (n : Nat) : List Char :=
  if n < 0x100 then '\\' :: 'x' :: hex 2 n
  else if n < 0x10000 then '\\' :: 'u' :: hex 4 n
  else '\\' :: 'U' :: hex 8 n

/-- A character inside a text quoted by `quote`. The other quote needs no escape. -/
def quotedChar (quote c : Char) : List Char :=
  if c == quote || c == '\\' then ['\\', c]
  else if c == '\n' then ['\\', 'n']
  else if c == '\r' then ['\\', 'r']
  else if c == '\t' then ['\\', 't']
  else if isPrintable c then [c]
  else escapeCode c.toNat

/-- A list of characters in quotes. -/
def quotedChars (cs : List Char) : List Char :=
  let quote := quoteFor cs
  quote :: cs.flatMap (quotedChar quote) ++ [quote]

/-- The quoted form of a string, as a string is shown inside of other values and in messages. -/
def quoted (s : String) : String := String.ofList (quotedChars s.toList)

/-- A byte inside a byte string quoted by `quote`; only printable ASCII is shown as it is. -/
def quotedByte (quote : Char) (b : UInt8) : List Char :=
  let c := Char.ofNat b.toNat
  if c == quote || c == '\\' then ['\\', c]
  else if c == '\n' then ['\\', 'n']
  else if c == '\r' then ['\\', 'r']
  else if c == '\t' then ['\\', 't']
  else if 0x20 ≤ b.toNat && b.toNat < 0x7f then [c]
  else '\\' :: 'x' :: hex 2 b.toNat

/-- The quoted form of a byte string, marked by a `b` in front. -/
def quotedBytes (bs : List UInt8) : String :=
  let quote := quoteFor (bs.map fun b => Char.ofNat b.toNat)
  String.ofList ('b' :: quote :: bs.flatMap (quotedByte quote) ++ [quote])

end TreeDelta.Text
