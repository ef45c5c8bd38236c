import Stencil.Double.Decimal
import Stencil.Toml.DateTime
import Stencil.Written

/-!
# The words of a TOML text as values

A word in the place of a value is a truth value, an integer, a number with a fraction or an
exponent, one of the names `inf` and `nan`, or a date or time. Digits may be parted by single
underscores.
-/

namespace Stencil.Toml

/-- The key under which the text of a date or time is kept. -/
def dateTimeKey : String :=
  "$__toml_private_datetime"

/-- The digits of a number without the underscores between them. -/
def joinDigits? (isDigit : Char → Bool) : List Char → Option (List Char)
  | [] => none
  | [c] => if isDigit c then some [c] else none
  | c :: '_' :: rest => if isDigit c then (joinDigits? isDigit rest).map (c :: ·) else none
  | c :: rest => if isDigit c then (joinDigits? isDigit rest).map (c :: ·) else none

/-- The digits of a whole number in decimal. A leading zero stands alone. -/
def wholeDigits? (text : List Char) : Option (List Char) :=
  if text.head? = some '0' ∧ text.length ≠ 1 then none else joinDigits? Char.isDigit text

/-- Whether a number carries a minus sign, and the number without its sign. -/
def splitSign : List Char → Bool × List Char
  | '-' :: rest => (true, rest)
  | '+' :: rest => (false, rest)
  | text => (false, text)

/-! ## Integers -/

/-- The value of a digit in a notation with up to sixteen digits. -/
def digitBelow? (base : Nat) (c : Char) : Option Nat :=
  (Text.hexDigit? c).filter (· < base)

/-- The number that digits spell in a base. -/
def numberInBase? (base : Nat) (text : List Char) : Option Nat :=
  (joinDigits? (fun c => (digitBelow? base c).isSome) text).map fun digits =>
    digits.foldl (fun n c => base * n + (digitBelow? base c).getD 0) 0

/-- The integer that a text spells: in decimal with an optional sign, or without sign in base
sixteen, eight or two behind a mark. -/
def wholeNumber? (text : List Char) : Option Int :=
  match text with
  | '0' :: 'x' :: rest => (numberInBase? 16 rest).map Int.ofNat
  | '0' :: 'o' :: rest => (numberInBase? 8 rest).map Int.ofNat
  | '0' :: 'b' :: rest => (numberInBase? 2 rest).map Int.ofNat
  | _ =>
    let (negative, digits) := splitSign text
    (wholeDigits? digits).map fun digits =>
      if negative then -(decimalNumber digits : Int) else decimalNumber digits

/-- The integer that a text spells, if it fits 64 bits with sign. -/
def integer? (text : List Char) : Option Written :=
  (wholeNumber? text).bind fun n =>
    if -0x8000000000000000 ≤ n ∧ n < 0x8000000000000000 then some (.number (some (.integer n))) else none

/-! ## Numbers with a fraction or an exponent -/

/-- The digits of a fraction, if the text holds a point and a fraction or nothing. -/
def fractionDigits? : List Char → Option (List Char)
  | [] => some []
  | _ :: digits => joinDigits? Char.isDigit digits

/-- The exponent, if the text holds its mark and a number or nothing. -/
def exponent? : List Char → Option Int
  | [] => some 0
  | _ :: text =>
    let (negative, digits) := splitSign text
    (joinDigits? Char.isDigit digits).map fun digits =>
      if negative then -(decimalNumber digits : Int) else decimalNumber digits

/-- The nearest binary64 number. A positive one out of range is refused, a negative one is
infinite. -/
def nearest? (negative : Bool) (d : Decimal) : Option Written :=
  match Double.ofDecimal? negative d with
  | some x => some (.number (some (.real x)))
  | none => if negative then some .nonFinite else none

/-- The number with a fraction, an exponent or both that a text spells. -/
def real? (text : List Char) : Option Written := do
  let (negative, rest) := splitSign text
  let (mantissa, exponent) := rest.span fun c => c ≠ 'e' ∧ c ≠ 'E'
  let (whole, fraction) := mantissa.span (· ≠ '.')
  if fraction = [] ∧ exponent = [] then none
  let whole ← wholeDigits? whole
  let fraction ← fractionDigits? fraction
  let exponent ← exponent? exponent
  nearest? negative ⟨decimalNumber (whole ++ fraction), exponent - fraction.length⟩

/-! ## All words -/

/-- One of the names for numbers that are not finite. -/
def nonFinite? (text : List Char) : Option Written :=
  let name := (splitSign text).2
  if name = ['i', 'n', 'f'] ∨ name = ['n', 'a', 'n'] then some .nonFinite else none

/-- One of the names for truth values. -/
def bool? (text : List Char) : Option Written :=
  if text = ['t', 'r', 'u', 'e'] then some (.bool true)
  else if text = ['f', 'a', 'l', 's', 'e'] then some (.bool false)
  else none

/-- The date or time that a text spells, as a record with its text. -/
def dateTime? (text : List Char) : Option Written :=
  (DateTime.ofText? text).map fun d =>
    .record [(some dateTimeKey, .string (some (String.ofList d.text)))]

/-- The value that a word spells. -/
def scalar? (text : List Char) : Option Written :=
  bool? text <|> integer? text <|> real? text <|> nonFinite? text <|> dateTime? text

end Stencil.Toml
