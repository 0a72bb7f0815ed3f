/-!
# Points in time

A point in time is a number of microseconds since the start of 1970, and is written as a date and a
time of day. The calendar is that of Gregory, extended to all years.

## Main definitions

* `Timestamp`: a point in time.
* `Timestamp.text`: its date and time of day.
-/

namespace TreeDelta

/-- A point in time, in microseconds since the start of 1970. -/
structure Timestamp where
  /-- The microseconds. -/
  micros : Int
  deriving DecidableEq, Repr

namespace Timestamp

/-- A date of the calendar. -/
structure Date where
  /-- The year. -/
  year : Int
  /-- The month, from one on. -/
  month : Nat
  /-- The day of the month, from one on. -/
  day : Nat
  deriving DecidableEq, Repr

/-- The date a number of days after the start of 1970. The years are counted from March, so that a
leap day is the last day of its year, in cycles of 400 years. -/
def Date.ofDays (days : Int) : Date :=
  let shifted := days + 719468
  let era := shifted.fdiv 146097
  let dayOfEra := (shifted.fmod 146097).toNat
  let yearOfEra :=
    (dayOfEra - dayOfEra / 1460 + dayOfEra / 36524 - dayOfEra / 146096) / 365
  let dayOfYear := dayOfEra - (365 * yearOfEra + yearOfEra / 4 - yearOfEra / 100)
  let shiftedMonth := (5 * dayOfYear + 2) / 153
  let day := dayOfYear - (153 * shiftedMonth + 2) / 5 + 1
  let month := if shiftedMonth < 10 then shiftedMonth + 3 else shiftedMonth - 9
  let year : Int := yearOfEra + era * 400
  ⟨if month ≤ 2 then year + 1 else year, month, day⟩

/-- The last day of a year and the first one of the next, and a leap day. -/
example : Date.ofDays 10956 = ⟨1999, 12, 31⟩ ∧ Date.ofDays 10957 = ⟨2000, 1, 1⟩ ∧
    Date.ofDays 19782 = ⟨2024, 2, 29⟩ := by
  decide

/-- A number with zeros in front, up to a width. -/
def padded (width n : Nat) : String :=
  let digits := toString n
  String.ofList (List.replicate (width - digits.length) '0') ++ digits

/-- The date and the time of day, in universal time; microseconds are written if there are any. -/
def text (t : Timestamp) : String :=
  let seconds := t.micros.fdiv 1000000
  let micros := (t.micros.fmod 1000000).toNat
  let date := Date.ofDays (seconds.fdiv 86400)
  let time := (seconds.fmod 86400).toNat
  padded 4 date.year.toNat ++ "-" ++ padded 2 date.month ++ "-" ++ padded 2 date.day ++ " "
    ++ padded 2 (time / 3600) ++ ":" ++ padded 2 (time / 60 % 60) ++ ":" ++ padded 2 (time % 60)
    ++ (if micros == 0 then "" else "." ++ padded 6 micros)

end Timestamp

end TreeDelta
