import Wordcode.Decimal.Reader

namespace Wordcode.Yaml

/-! # Timestamps

Dates, and dates with a time of day, as plain scalars may hold them.
-/

/-- A point in time as it was written. -/
structure Timestamp where
  year : Nat
  month : Nat
  day : Nat
  hour : Nat := 0
  minute : Nat := 0
  second : Nat := 0
  /-- The digits after the second. -/
  nanoseconds : Nat := 0
  /-- Minutes east of the reference meridian. -/
  offset : Int := 0
  deriving DecidableEq, Repr, Inhabited

namespace Timestamp

/-- The number of days of a month. -/
def daysIn (year month : Nat) : Nat :=
  if month = 2 then
    if year % 4 = 0 && (year % 100 ≠ 0 || year % 400 = 0) then 29 else 28
  else if [4, 6, 9, 11].contains month then 30
  else 31

/-- A number of one or two digits. -/
def shortNumber? : List Char → Option (Nat × List Char)
  | a :: b :: cs =>
    if !a.isDigit then none
    else if b.isDigit then some (Decimal.ofDigits 10 [a, b], cs)
    else some (Decimal.ofDigits 10 [a], b :: cs)
  | [a] => if a.isDigit then some (Decimal.ofDigits 10 [a], []) else none
  | [] => none

/-- A given character. -/
def literal? (c : Char) : List Char → Option (List Char)
  | x :: cs => if x = c then some cs else none
  | [] => none

/-- A date: four digits for the year, then month and day. -/
def date? (cs : List Char) : Option (Timestamp × List Char) := do
  let digits := cs.takeWhile Char.isDigit
  if digits.length ≠ 4 then none
  let year := Decimal.ofDigits 10 digits
  let (month, cs) ← shortNumber? (← literal? '-' (cs.drop 4))
  let (day, cs) ← shortNumber? (← literal? '-' cs)
  if month < 1 || 12 < month || day < 1 || daysIn year month < day then none
  return ({ year, month, day }, cs)

/-- The fraction of a second in nanoseconds; it may be missing. -/
def fraction (cs : List Char) : Nat × List Char :=
  match cs with
  | p :: rest =>
    let digits := rest.takeWhile Char.isDigit
    if (p = '.' || p = ',') && !digits.isEmpty then
      let nine := (digits ++ List.replicate 9 '0').take 9
      (Decimal.ofDigits 10 nine, rest.drop digits.length)
    else (0, cs)
  | [] => (0, [])

/-- A time of day. -/
def clock? (t : Timestamp) (cs : List Char) : Option (Timestamp × List Char) := do
  let (hour, cs) ← shortNumber? cs
  let (minute, cs) ← shortNumber? (← literal? ':' cs)
  let (second, cs) ← shortNumber? (← literal? ':' cs)
  if 23 < hour || 59 < minute || 59 < second then none
  let (nanoseconds, cs) := fraction cs
  return ({ t with hour, minute, second, nanoseconds }, cs)

/-- A time zone: the letter for none, or a difference in hours and minutes. -/
def zone? (t : Timestamp) (cs : List Char) : Option Timestamp :=
  match cs with
  | ['Z'] => some t
  | [sign, a, b, ':', c, d] =>
    if [a, b, c, d].all Char.isDigit && (sign = '+' || sign = '-') then
      let hours := Decimal.ofDigits 10 [a, b]
      let minutes := Decimal.ofDigits 10 [c, d]
      if 24 < hours || 60 < minutes then none
      else
        let total : Int := hours * 60 + minutes
        some { t with offset := if sign = '-' then -total else total }
    else none
  | _ => none

/-- Reads a timestamp. -/
def parse? (cs : List Char) : Option Timestamp := do
  let (t, rest) ← date? cs
  match rest with
  | [] => return t
  | 'T' :: rest | 't' :: rest =>
    let (t, rest) ← clock? t rest
    zone? t rest
  | ' ' :: rest =>
    let (t, rest) ← clock? t (rest.dropWhile (· = ' '))
    if rest.isEmpty then return t else none
  | _ => none

/-- A number in at least the given number of digits. -/
def padded (width n : Nat) : String :=
  let digits := (toString n).toList
  String.ofList (List.replicate (width - digits.length) '0' ++ digits)

/-- A timestamp as messages show it. -/
def render (t : Timestamp) : String :=
  let nine := (padded 9 t.nanoseconds).toList
  let fraction := (nine.reverse.dropWhile (· = '0')).reverse
  let shift := (if t.offset < 0 then "-" else "+") ++ padded 2 (t.offset.natAbs / 60) ++
    padded 2 (t.offset.natAbs % 60)
  padded 4 t.year ++ "-" ++ padded 2 t.month ++ "-" ++ padded 2 t.day ++ " " ++
    padded 2 t.hour ++ ":" ++ padded 2 t.minute ++ ":" ++ padded 2 t.second ++
    (if fraction.isEmpty then "" else "." ++ String.ofList fraction) ++ " " ++ shift ++ " " ++
    (if t.offset = 0 then "UTC" else shift)

end Timestamp

end Wordcode.Yaml
