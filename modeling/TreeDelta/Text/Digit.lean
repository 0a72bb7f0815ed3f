import TreeDelta.Text.Blank

/-!
# Digits

A run of digits writes a number. Reading a numeral takes a time that grows faster than its length,
so the interpreter guards against numerals with too many digits: it refuses them with an error of
its own. The guard can be set to another number of digits or be turned off. It is part of the
reading of path expressions here (`Token.component`), where the numeral comes from outside. Where a
numeral is the name of a property, or stands in a document, its length is left unguarded.

## Main definitions

* `Text.isDigit`: the ten ASCII digits.
* `Text.isDecimalDigit`: the decimal digits of all scripts.
* `Text.digitsValue`: the number that a run of digits writes.
* `Text.Readable`: the runs of digits that the guard lets pass.
-/

namespace TreeDelta.Text

/-- Whether a character is one of the ten ASCII digits. Indices in expressions are written with
these alone. -/
def isDigit (c : Char) : Bool := '0' ≤ c && c ≤ '9'

/-- The number that a run of digits writes. Every run has one, whether or not the guard would let it
pass: see `Readable`. -/
def digitsValue (cs : List Char) : Nat :=
  cs.foldl (fun n c => n * 10 + (c.toNat - 48)) 0

/-! ### The guard against long numerals -/

/-- The number of digits at most that are read as a number, unless the interpreter is told
otherwise. The guard keeps the time of reading a long numeral within bounds. -/
def standardDigitLimit : Nat := 4300

/-- The guard lets a run of digits pass when it is no longer than the limit. Zeros in front count as
digits, too. The limit zero turns the guard off. -/
def Readable (limit : Nat) (cs : List Char) : Prop := limit = 0 ∨ cs.length ≤ limit

instance (limit : Nat) (cs : List Char) : Decidable (Readable limit cs) :=
  inferInstanceAs (Decidable (_ ∨ _))

/-- Without a limit every run of digits is read. -/
theorem readable_zero (cs : List Char) : Readable 0 cs := .inl rfl

/-! ### Digits of all scripts -/

/-- The zeros of Unicode 14.0, as code points; each one starts a run of ten decimal digits. -/
def decimalZeros : List Nat :=
  [0x30, 0x660, 0x6f0, 0x7c0, 0x966, 0x9e6, 0xa66, 0xae6, 0xb66, 0xbe6, 0xc66, 0xce6, 0xd66, 0xde6,
    0xe50, 0xed0, 0xf20, 0x1040, 0x1090, 0x17e0, 0x1810, 0x1946, 0x19d0, 0x1a80, 0x1a90, 0x1b50,
    0x1bb0, 0x1c40, 0x1c50, 0xa620, 0xa8d0, 0xa900, 0xa9d0, 0xa9f0, 0xaa50, 0xabf0, 0xff10, 0x104a0,
    0x10d30, 0x11066, 0x110f0, 0x11136, 0x111d0, 0x112f0, 0x11450, 0x114d0, 0x11650, 0x116c0,
    0x11730, 0x118e0, 0x11950, 0x11c50, 0x11d50, 0x11da0, 0x16a60, 0x16ac0, 0x16b50, 0x1d7ce,
    0x1d7d8, 0x1d7e2, 0x1d7ec, 0x1d7f6, 0x1e140, 0x1e2f0, 0x1e950, 0x1fbf0]

/-- Whether a character is a decimal digit of any script. An argument that starts with a minus sign
and goes on with such digits is a number, not an option. -/
def isDecimalDigit (c : Char) : Bool :=
  inRanges (decimalZeros.map fun first => (first, first + 9)) c.toNat

end TreeDelta.Text
