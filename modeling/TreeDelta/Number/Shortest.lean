import TreeDelta.Number.Binary64

/-!
# Shortest decimals

The text of a double has the fewest significant digits that read back as the same double, and of
those decimals the nearest one. A finite double of `m` units is `m · 5¹⁰⁷⁴ · 10⁻¹⁰⁷⁴`, so its
decimal expansion is exact and the search works on integers alone.

## Main definitions

* `Decimal`: an unsigned decimal `digits · 10 ^ exponent`.
* `Binary64.shortest`: the shortest decimal of a magnitude.
* `Binary64.text`: the written form, positional below `10¹⁶` and from `10⁻⁴` on.
-/

namespace TreeDelta

/-- The decimal `digits · 10 ^ exponent`. -/
structure Decimal where
  /-- The significant digits as one number. -/
  digits : Nat
  /-- The power of ten of the last digit. -/
  exponent : Int
  deriving DecidableEq, Repr

namespace Binary64

/-! ### Choosing the digits -/

/-- Twice the distance from `units` to the end of the interval below it that reads back as the
same double: the gap to the next smaller double. -/
def gapBelow (units : Nat) : Nat :=
  if units == Nat.pow 2 units.log2 && spacing units != 1 then spacing units / 2 else spacing units

/-- Whether the decimal `digits · 10 ^ place · 10⁻¹⁰⁷⁴` reads back as the double of `units`: it
lies in the rounding interval, whose ends belong to it when the last bit of the double is zero. -/
def readsBack (units digits place : Nat) : Bool :=
  let scale := Nat.pow 5 unitExponent
  let low := (2 * units - gapBelow units) * scale
  let high := (2 * units + spacing units) * scale
  let candidate := 2 * digits * Nat.pow 10 place
  if (units / spacing units) % 2 == 0 then low ≤ candidate && candidate ≤ high
  else low < candidate && candidate < high

/-- The nearest decimal with its last digit at `10 ^ place · 10⁻¹⁰⁷⁴` that reads back as the
double of `units`, if there is one. -/
def candidate? (units place : Nat) : Option Nat :=
  let exact := units * Nat.pow 5 unitExponent
  let floor := exact / Nat.pow 10 place
  let near := divNearestEven exact (Nat.pow 10 place)
  let far := if near == floor then floor + 1 else floor
  if readsBack units near place then some near
  else if readsBack units far place then some far
  else none

/-- Moves the zeros at the end of the digits into the exponent, at most `fuel` of them. The number
stays the same; only its digits become fewer. -/
def dropZeros : Nat → Decimal → Decimal
  | 0, d => d
  | fuel + 1, d =>
    if d.digits != 0 && d.digits % 10 == 0 then dropZeros fuel ⟨d.digits / 10, d.exponent + 1⟩
    else d

/-- The shortest decimal among the next `tries` digit counts, starting with the count that puts
the last digit at `place`. The exact expansion reads back, so the last try always succeeds. -/
def shortestFrom (units : Nat) : Nat → Nat → Decimal
  | 0, place => ⟨units * Nat.pow 5 unitExponent / Nat.pow 10 place, (place : Int) - unitExponent⟩
  | tries + 1, place =>
    match candidate? units place with
    | some digits => ⟨digits, (place : Int) - unitExponent⟩
    | none => shortestFrom units tries (place - 1)

/-- The shortest decimal that reads back as the double of `units`; seventeen digits always do. -/
def shortest (units : Nat) : Decimal :=
  if units = 0 then ⟨0, 0⟩
  else dropZeros 20 (shortestFrom units 17 (digitCount (units * Nat.pow 5 unitExponent) - 1))

/-! ### Layout -/

/-- A text of `n` zeros. -/
def zeros (n : Nat) : String := String.ofList (List.replicate n '0')

/-- The written form of an exponent: a sign, also where it is positive, and at least two digits. -/
def exponentText (e : Int) : String :=
  let digits := toString e.natAbs
  (if e < 0 then "-" else "+") ++ (if digits.length < 2 then "0" ++ digits else digits)

/-- The written form of a decimal. Numbers from `10⁻⁴` up to `10¹⁶` are positional, where a whole
number ends in `.0` if `point` asks for it; the others are scientific. -/
def layout (point : Bool) (d : Decimal) : String :=
  let digits := toString d.digits
  let width := digits.length
  let whole : Int := width + d.exponent
  if whole ≤ -4 || 16 < whole then
    let fraction := digits.drop 1
    (digits.take 1).toString ++ (if width ≤ 1 then "" else "." ++ fraction.toString)
      ++ "e" ++ exponentText (whole - 1)
  else if whole ≤ 0 then "0." ++ zeros (-whole).toNat ++ digits
  else if width ≤ whole.toNat then
    digits ++ zeros (whole.toNat - width) ++ (if point then ".0" else "")
  else (digits.take whole.toNat).toString ++ "." ++ (digits.drop whole.toNat).toString

/-- Whether the sign of a double is negative; what is not a number has no sign. -/
def isNegative : Binary64 → Bool
  | .finite s _ => s
  | .infinite s => s
  | .nan _ => false

/-- The written form of a magnitude, without its sign. Infinities and what is not a number have
names of their own. -/
def magnitudeText (point : Bool) : Binary64 → String
  | .finite _ m => layout point (shortest m)
  | .infinite _ => "inf"
  | .nan _ => "nan"

/-- The written form of a double; `point` keeps the `.0` of a whole number. Complex numbers are the
one place where their parts are written without it. -/
def text (x : Binary64) (point : Bool) : String :=
  (if x.isNegative then "-" else "") ++ x.magnitudeText point

end Binary64

end TreeDelta
