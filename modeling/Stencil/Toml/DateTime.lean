import Stencil.Text.Scan

/-!
# Dates and times

A date, a time of day, or both with an optional distance from universal time, as TOML writes them,
and the one text by which each is shown: the letter `T` between date and time, a fraction of a
second without zeros at its end, and `Z` for universal time.

* `Date.read?`, `Time.read?` and `DateTime.ofText?` take only dates and times that exist. A second
  numbered sixty exists, for a leap second may follow any minute.
-/

namespace Stencil.Toml

/-- The number that decimal digits spell. -/
def decimalNumber (digits : List Char) : Nat :=
  digits.foldl (fun n c => 10 * n + (c.toNat - '0'.toNat)) 0

/-- The number that the first `width` characters of a text spell, and the text behind them. -/
def fixedNumber? (width : Nat) (text : List Char) : Option (Nat × List Char) :=
  let digits := text.take width
  if digits.length = width ∧ digits.all Char.isDigit then
    some (decimalNumber digits, text.drop width)
  else none

/-- A number in decimal digits with zeros before it, at least so many in all. -/
def padded (width n : Nat) : List Char :=
  let digits := n.repr.toList
  List.replicate (width - digits.length) '0' ++ digits

/-! ## Dates -/

/-- A day of a year. Months and days count from one. -/
structure Date where
  year : Nat
  month : Nat
  day : Nat

namespace Date

/-- Whether a year has a leap day. -/
def isLeapYear (year : Nat) : Bool :=
  year % 4 = 0 && (year % 100 ≠ 0 || year % 400 = 0)

/-- The number of days in a month. -/
def daysInMonth (year month : Nat) : Nat :=
  if month = 2 then if isLeapYear year then 29 else 28
  else if month = 4 ∨ month = 6 ∨ month = 9 ∨ month = 11 then 30
  else 31

/-- Whether the calendar has the date. -/
def Exists (d : Date) : Prop :=
  (1 ≤ d.month ∧ d.month ≤ 12) ∧ 1 ≤ d.day ∧ d.day ≤ daysInMonth d.year d.month

instance (d : Date) : Decidable d.Exists :=
  inferInstanceAs (Decidable (_ ∧ _))

/-- The date at the start of a text, and the text behind it. -/
def read? (text : List Char) : Option (Date × List Char) := do
  let (year, rest) ← fixedNumber? 4 text
  let rest ← Text.dropPrefix? ['-'] rest
  let (month, rest) ← fixedNumber? 2 rest
  let rest ← Text.dropPrefix? ['-'] rest
  let (day, rest) ← fixedNumber? 2 rest
  if Exists ⟨year, month, day⟩ then some (⟨year, month, day⟩, rest) else none

/-- The text of a date. -/
def text (d : Date) : List Char :=
  padded 4 d.year ++ '-' :: padded 2 d.month ++ '-' :: padded 2 d.day

end Date

/-! ## Times -/

/-- A time of day. Hours, minutes and seconds count from zero. -/
structure Time where
  hour : Nat
  minute : Nat
  second : Nat
  nanosecond : Nat

namespace Time

/-- The number of digits of a fraction of a second that count. -/
def fractionWidth : Nat :=
  9

/-- Whether a day has the time. -/
def Exists (t : Time) : Prop :=
  t.hour ≤ 23 ∧ t.minute ≤ 59 ∧ t.second ≤ 60

instance (t : Time) : Decidable t.Exists :=
  inferInstanceAs (Decidable (_ ∧ _))

/-- The fraction of a second at the start of a text, if there is one, and the text behind it. -/
def readFraction? : List Char → Option (Nat × List Char)
  | '.' :: rest =>
    let digits := (rest.takeWhile Char.isDigit).take fractionWidth
    if digits = [] then none
    else some (decimalNumber digits * Nat.pow 10 (fractionWidth - digits.length),
      rest.dropWhile Char.isDigit)
  | text => some (0, text)

/-- The time at the start of a text, and the text behind it. -/
def read? (text : List Char) : Option (Time × List Char) := do
  let (hour, rest) ← fixedNumber? 2 text
  let rest ← Text.dropPrefix? [':'] rest
  let (minute, rest) ← fixedNumber? 2 rest
  let rest ← Text.dropPrefix? [':'] rest
  let (second, rest) ← fixedNumber? 2 rest
  let (nanosecond, rest) ← readFraction? rest
  if Exists ⟨hour, minute, second, nanosecond⟩ then
    some (⟨hour, minute, second, nanosecond⟩, rest)
  else none

/-- The text of a fraction of a second. -/
def fractionText (nanosecond : Nat) : List Char :=
  if nanosecond = 0 then []
  else '.' :: ((padded fractionWidth nanosecond).reverse.dropWhile (· = '0')).reverse

/-- The text of a time. -/
def text (t : Time) : List Char :=
  padded 2 t.hour ++ ':' :: padded 2 t.minute ++ ':' :: padded 2 t.second ++
    fractionText t.nanosecond

end Time

/-! ## Offsets -/

/-- The distance of a local time from universal time. -/
inductive Offset where
  | universal
  /-- The time is so many minutes later or, if negative, earlier. -/
  | minutes (count : Int)

namespace Offset

/-- The offset that a text spells. -/
def ofText? (text : List Char) : Option Offset :=
  match text with
  | ['Z'] | ['z'] => some .universal
  | sign :: rest => do
    let (hour, rest) ← fixedNumber? 2 rest
    let rest ← Text.dropPrefix? [':'] rest
    let (minute, rest) ← fixedNumber? 2 rest
    let count : Int := (60 * hour + minute : Nat)
    if rest ≠ [] ∨ 23 < hour ∨ 59 < minute then none
    else if sign = '+' then some (.minutes count)
    else if sign = '-' then some (.minutes (-count))
    else none
  | [] => none

/-- The text of an offset. -/
def text : Offset → List Char
  | universal => ['Z']
  | minutes count =>
    let sign := if count < 0 then '-' else '+'
    sign :: padded 2 (count.natAbs / 60) ++ ':' :: padded 2 (count.natAbs % 60)

end Offset

/-! ## Both together -/

/-- A date, a time of day, or both. -/
inductive DateTime where
  | date (date : Date)
  | time (time : Time)
  /-- A time on a date, local or with its distance from universal time. -/
  | both (date : Date) (time : Time) (offset : Option Offset)

namespace DateTime

/-- Whether a character may stand between a date and a time. -/
def isDelimiter (c : Char) : Bool :=
  c = 'T' || c = 't' || c = ' '

/-- The date with the time that a text spells, which may end in an offset. -/
def withTime? (d : Date) (text : List Char) : Option DateTime :=
  (Time.read? text).bind fun (t, rest) =>
    if rest = [] then some (.both d t none)
    else (Offset.ofText? rest).map fun offset => .both d t (some offset)

/-- The date or time that a text spells. -/
def ofText? (text : List Char) : Option DateTime :=
  match Date.read? text with
  | some (d, []) => some (.date d)
  | some (d, c :: rest) => if isDelimiter c then withTime? d rest else none
  | none =>
    match Time.read? text with
    | some (t, []) => some (.time t)
    | _ => none

/-- The text of a date or time. -/
def text : DateTime → List Char
  | date d => d.text
  | time t => t.text
  | both d t offset => d.text ++ 'T' :: t.text ++ offset.elim [] Offset.text

end DateTime

end Stencil.Toml
