/-!
# Binary floating-point numbers

A finite double is an integer multiple of `2⁻¹⁰⁷⁴`, so `Binary64` stores that multiple and every
comparison is a comparison of integers. Numbers that are not a number carry a label: two of them
are the same number only when their labels agree, although none is ever equal to another in value.

## Main definitions

* `Binary64`: signed zero, finite, infinite and not-a-number values.
* `Binary64.roundUnits`: a quotient rounded to 53 significant bits, a tie going to the even one.
* `Binary64.ofDecimal`: the double nearest to a decimal.
* `Binary64.sameValue`, `Binary64.isInt`, `Binary64.less`, `Binary64.lessInt`: exact comparisons.
-/

namespace TreeDelta

/-- A double: a signed multiple of `2⁻¹⁰⁷⁴`, an infinity, or not a number. Every finite double is
such a multiple, so comparing doubles, also with integers, is comparing integers. -/
inductive Binary64 where
  /-- The number `units · 2⁻¹⁰⁷⁴`, negated if `negative`; zero keeps its sign. -/
  | finite (negative : Bool) (units : Nat)
  /-- An infinity of the given sign. -/
  | infinite (negative : Bool)
  /-- Not a number; the label tells one occurrence from another. -/
  | nan (label : Nat)
  deriving DecidableEq, Repr, Inhabited

namespace Binary64

/-! ### Rounding -/

/-- The exponent of the smallest positive double, which is `2⁻¹⁰⁷⁴`. Magnitudes are counted in units
of this number. -/
def unitExponent : Nat := 1074

/-- The number of significant bits of a double, the leading one among them, which is not stored. -/
def precision : Nat := 53

/-- The least number of units that overflows to infinity: `2¹⁰²⁴`, which a magnitude reaches only by
being rounded up or read from too large a decimal. -/
def overflowUnits : Nat := Nat.pow 2 2098

/-- The quotient `num / den` rounded to an integer, a tie going to the even one. This is the one
rounding mode that reading and writing numbers needs. -/
def divNearestEven (num den : Nat) : Nat :=
  let q := num / den
  let r := num % den
  if den < 2 * r || (2 * r == den && q % 2 == 1) then q + 1 else q

/-- The distance between neighbouring doubles at a magnitude of `units`, in units. It is a single
unit up to the first `2⁵³` of them, and doubles with every power of two from there on. -/
def spacing (units : Nat) : Nat :=
  Nat.pow 2 (units.log2 + 1 - precision)

/-- The quotient `num / den` of units rounded to the nearest double, a tie going to the one
whose last bit is zero. -/
def roundUnits (num den : Nat) : Nat :=
  let step := spacing (num / den)
  divNearestEven num (den * step) * step

/-- The number of decimal digits of `n`; zero has one. It bounds a decimal from both sides without
any powers being computed. -/
def digitCount (n : Nat) : Nat := (Nat.toDigits 10 n).length

/-- The magnitude of the double nearest to `digits · 10 ^ exponent`, in units. Decimals far
outside the range of a double are settled by their digit count alone. -/
def decimalUnits (digits : Nat) (exponent : Int) : Nat :=
  if digits = 0 then 0
  else if exponent + digitCount digits > 310 then overflowUnits
  else if exponent + digitCount digits < -330 then 0
  else roundUnits (digits * Nat.pow 10 exponent.toNat * Nat.pow 2 unitExponent)
    (Nat.pow 10 (-exponent).toNat)

/-- The double nearest to `digits · 10 ^ exponent`, with the given sign. A decimal that is too large
gives an infinity and one that is too small a zero, both with the sign that was written. -/
def ofDecimal (negative : Bool) (digits : Nat) (exponent : Int) : Binary64 :=
  let units := decimalUnits digits exponent
  if overflowUnits ≤ units then .infinite negative else .finite negative units

/-! ### Comparison -/

/-- The integer `n` with the given sign. The two zeros become the same integer, which is how they
come to be equal. -/
def signed (negative : Bool) (n : Nat) : Int := if negative then -(n : Int) else n

/-- An integer in units. No integer is rounded when it is compared with a double, however large it
is. -/
def unitsOfInt (n : Int) : Int := n * (Nat.pow 2 unitExponent : Nat)

/-- Equality of values: the two zeros are equal, and no value that is not a number equals any, not
even the one with its own label. Identity is looked at elsewhere. -/
def sameValue : Binary64 → Binary64 → Bool
  | .finite s m, .finite t n => signed s m == signed t n
  | .infinite s, .infinite t => s == t
  | _, _ => false

/-- Whether a double is exactly the given integer. Infinities and what is not a number are no
integers. -/
def isInt : Binary64 → Int → Bool
  | .finite s m, n => signed s m == unitsOfInt n
  | _, _ => false

/-- Whether the first double is less than the second one. Nothing is less than what is not a number,
and neither is that less than anything. -/
def less : Binary64 → Binary64 → Bool
  | .nan _, _ => false
  | _, .nan _ => false
  | .infinite s, .infinite t => s && !t
  | .infinite s, .finite _ _ => s
  | .finite _ _, .infinite t => !t
  | .finite s m, .finite t n => decide (signed s m < signed t n)

/-- Whether a double is less than an integer. -/
def lessInt : Binary64 → Int → Bool
  | .nan _, _ => false
  | .infinite s, _ => s
  | .finite s m, n => decide (signed s m < unitsOfInt n)

/-- Whether an integer is less than a double. -/
def intLess : Int → Binary64 → Bool
  | _, .nan _ => false
  | _, .infinite s => !s
  | n, .finite s m => decide (unitsOfInt n < signed s m)

/-- Whether a double is one of the two zeros. -/
def isZero : Binary64 → Bool
  | .finite _ m => m == 0
  | _ => false

end Binary64

end TreeDelta
