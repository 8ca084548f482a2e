/-! # Push times

The moment at which an image was pushed, in seconds since the beginning of 1970.

* `PushTime.ofNumber?`: reads a moment from the text of a number.
* `PushTime.later`: the order in which a registry's images are compared.
* `PushTime.text?`: the date and time of day.
-/

set_option autoImplicit false

namespace MountMatrix

structure PushTime where
  seconds : Int
  nanoseconds : Nat
  deriving DecidableEq

namespace PushTime

/-! ## Order -/

def after (a b : PushTime) : Bool :=
  b.seconds < a.seconds || a.seconds == b.seconds && b.nanoseconds < a.nanoseconds

/-- Later, for moments that may be unknown: a known moment is later than an unknown one, and an
unknown moment is not later than any. -/
def later : Option PushTime → Option PushTime → Bool
  | some a, some b => a.after b
  | some _, none => true
  | none, _ => false

/-! ## Reading -/

def readDigits (text : List Char) : Nat × Nat × List Char :=
  let digits := text.takeWhile Char.isDigit
  (digits.foldl (fun n c => 10 * n + (c.toNat - '0'.toNat)) 0, digits.length,
    text.dropWhile Char.isDigit)

def readExponent : List Char → Int × List Char
  | c :: rest =>
    if c == 'e' || c == 'E' then
      let (negative, rest) := match rest with
        | '-' :: more => (true, more)
        | '+' :: more => (false, more)
        | more => (false, more)
      let (power, _, rest) := readDigits rest
      (if negative then -(power : Int) else power, rest)
    else (0, c :: rest)
  | [] => (0, [])

/-- The double nearest to `mantissa · 10 ^ power`. Powers beyond the range of doubles are cut. -/
def nearestDouble (mantissa : Nat) (power : Int) : Float :=
  if mantissa = 0 then 0
  else if 400 < power then 1 / 0
  else if power < -(1000 + Nat.log2 mantissa : Int) then 0
  else OfScientific.ofScientific mantissa (decide (power < 0)) power.natAbs

def readDouble? (text : String) : Option Float :=
  let (negative, body) := match text.toList with
    | '-' :: rest => (true, rest)
    | rest => (false, rest)
  let (whole, wholeCount, rest) := readDigits body
  let (digits, fractionCount, rest) := match rest with
    | '.' :: more =>
      let (fraction, count, more) := readDigits more
      (whole * Nat.pow 10 count + fraction, count, more)
    | more => (whole, 0, more)
  let (power, rest) := readExponent rest
  if wholeCount = 0 || !rest.isEmpty then none
  else
    let value := nearestDouble digits (power - fractionCount)
    some (if negative then -value else value)

/-- The moment that a double denotes: its floor, kept within 64 bits, and the billionths of the
fraction, cut off. A fraction that rounding has made a whole second counts as one. -/
def ofDouble (t : Float) : PushTime :=
  let seconds := t.floor.toInt64.toInt
  let nanoseconds := ((t - t.floor) * 1e9).toUInt64.toNat
  if nanoseconds < 1000000000 then ⟨seconds, nanoseconds⟩ else ⟨seconds + 1, 0⟩

def ofNumber? (text : String) : Option PushTime :=
  (readDouble? text).map ofDouble

/-! ## Writing -/

/-- The year, month and day of a day counted from the beginning of 1970. Years are counted from
March, and in eras of four hundred. -/
def civil (day : Int) : Int × Nat × Nat :=
  let shifted := day + 719468
  let era := shifted / 146097
  let dayOfEra := (shifted % 146097).toNat
  let yearOfEra := (dayOfEra - dayOfEra / 1460 + dayOfEra / 36524 - dayOfEra / 146096) / 365
  let dayOfYear := dayOfEra - (365 * yearOfEra + yearOfEra / 4 - yearOfEra / 100)
  let shiftedMonth := (5 * dayOfYear + 2) / 153
  let dayOfMonth := dayOfYear - (153 * shiftedMonth + 2) / 5 + 1
  let month := if shiftedMonth < 10 then shiftedMonth + 3 else shiftedMonth - 9
  (yearOfEra + era * 400 + (if month ≤ 2 then 1 else 0), month, dayOfMonth)

def padded (width n : Nat) : String :=
  let digits := Nat.toDigits 10 n
  .ofList (List.replicate (width - digits.length) '0' ++ digits)

/-- The microseconds behind a point, without zeros at the end; nothing if there are none. -/
def fractionText (nanoseconds : Nat) : String :=
  let digits := (padded 6 (nanoseconds / 1000)).toList
  match (digits.reverse.dropWhile (· == '0')).reverse with
  | [] => ""
  | kept => "." ++ .ofList kept

/-- Date and time of day in universal time, for the years that have four digits or less. -/
def text? (t : PushTime) : Option String :=
  let (year, month, day) := civil (t.seconds / 86400)
  let second := (t.seconds % 86400).toNat
  if 1 ≤ year ∧ year ≤ 9999 then
    some (padded 4 year.toNat ++ "-" ++ padded 2 month ++ "-" ++ padded 2 day ++ "T" ++
      padded 2 (second / 3600) ++ ":" ++ padded 2 (second / 60 % 60) ++ ":" ++
      padded 2 (second % 60) ++ fractionText t.nanoseconds ++ "Z")
  else none

end PushTime

end MountMatrix
