import Stencil.Double.Decimal
import Stencil.Value.Basic

/-!
# Numbers in JSON

How a number is written in JSON and what a written number denotes.

A number without fraction or exponent is an integer if it fits 64 bits, unsigned, or signed when it
carries a minus sign. Every other number is binary64: its leading digits are gathered into a
significand of at most 64 bits, the digits beyond it count only for the scale, and the significand
is scaled by a power of ten in as few rounded steps as the range of the powers allows.

A binary64 number is written with its shortest digits, always with a fraction or an exponent, so it
is never mistaken for an integer.
-/

namespace Stencil.Json

/-- A number as it is written. The lists hold the digits, most significant first. -/
structure NumberLiteral where
  negative : Bool
  whole : List Nat
  fraction : Option (List Nat)
  exponent : Option Int

/-- Appends digits to a significand as long as it fits 64 bits, and returns it with the digits left
over. -/
def gather (significand : Nat) : List Nat → Nat × List Nat
  | [] => (significand, [])
  | digit :: rest =>
    if significand * 10 + digit < 0x10000000000000000 then gather (significand * 10 + digit) rest
    else (significand, digit :: rest)

/-- A power of ten, rounded. -/
def powerOfTen? (k : Nat) : Option Double :=
  Double.ofRatio? false (Nat.pow 10 k) 1

/-- The largest power of ten that is in reach of binary64. -/
def maxPower : Nat :=
  308

/-- Divides by a power of ten, `maxPower` at a time while more is left. -/
def scaleDown? (x : Double) (k : Nat) : Option Double :=
  if k ≤ maxPower then (powerOfTen? k).bind x.div?
  else if x.bits = 0 then some x
  else ((powerOfTen? maxPower).bind x.div?).bind fun y => scaleDown? y (k - maxPower)
termination_by k
decreasing_by
  simp only [maxPower] at *
  omega

/-- The number `significand * 10 ^ exponent`, or `none` if it is out of range. -/
def scale? (significand : Nat) (exponent : Int) : Option Double :=
  (Double.ofRatio? false significand 1).bind fun x =>
    if exponent < 0 then scaleDown? x (-exponent).toNat
    else if exponent.toNat ≤ maxPower then (powerOfTen? exponent.toNat).bind x.mul?
    else if x.bits = 0 then some x
    else none

/-- A binary64 number with the sign of the literal. -/
def NumberLiteral.signed (literal : NumberLiteral) (x : Double) : Number :=
  .real (if literal.negative then x.neg else x)

/-- What a number without fraction and exponent denotes, given its significand and the number of
digits left over. -/
def NumberLiteral.integer? (literal : NumberLiteral) (significand left : Nat) : Option Number :=
  if left = 0 ∧ literal.negative = false then some (.integer significand)
  else if left = 0 ∧ significand ≠ 0 ∧ significand ≤ 0x8000000000000000 then some (.integer (-significand))
  else (scale? significand left).map literal.signed

/-- What a number denotes, or `none` if it is out of range. -/
def NumberLiteral.value? (literal : NumberLiteral) : Option Number :=
  let (significand, left) := gather 0 literal.whole
  match literal.fraction, literal.exponent with
  | none, none => literal.integer? significand left.length
  | none, some exponent => (scale? significand (left.length + exponent)).map literal.signed
  | some digits, exponent =>
    let (significand, left') := gather significand digits
    let read : Int := digits.length - left'.length
    (scale? significand (left.length - read + exponent.getD 0)).map literal.signed

/-! ## Writing -/

/-- The digits of a decimal without the zeros at their end. -/
def significantDigits (digits : List Char) : List Char :=
  (digits.reverse.dropWhile (· = '0')).reverse

/-- Lays out digits whose first stands for `10 ^ exponent`. From the fifth place behind the point to
the sixteenth before it they are written plainly with a fraction, else with a signed exponent. -/
def layOut (digits : List Char) (exponent : Int) : List Char :=
  if 0 ≤ exponent ∧ exponent ≤ 15 then
    let whole := exponent.toNat + 1
    if digits.length ≤ whole then
      digits ++ List.replicate (whole - digits.length) '0' ++ ['.', '0']
    else digits.take whole ++ '.' :: digits.drop whole
  else if -5 ≤ exponent ∧ exponent < 0 then
    '0' :: '.' :: List.replicate (-exponent - 1).toNat '0' ++ digits
  else
    let fraction := match digits.drop 1 with
      | [] => []
      | rest => '.' :: rest
    let sign := if exponent < 0 then '-' else '+'
    digits.take 1 ++ fraction ++ 'e' :: sign :: exponent.natAbs.repr.toList

/-- The text of the absolute value of a binary64 number. -/
def magnitudeText (x : Double) : List Char :=
  if x.bits = 0 then ['0', '.', '0']
  else
    let d := x.shortest
    let digits := d.digits.repr.toList
    layOut (significantDigits digits) (d.exponent + digits.length - 1)

/-- The text of a number. -/
def numberText : Number → List Char
  | .integer value => value.repr.toList
  | .real x => if x.negative then '-' :: magnitudeText x else magnitudeText x

end Stencil.Json
