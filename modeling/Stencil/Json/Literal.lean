import Stencil.Json.Number

/-!
# Reading numbers in JSON

The grammar of a number: a whole part without idle zeros, a fraction and an exponent, of which the
last two may be missing.

* `length_scanNumber_lt`: a number takes a digit at least.
-/

namespace Stencil.Json

/-- The digits at the start of a text, and the text behind them. -/
def scanDigits (text : List Char) : List Nat × List Char :=
  ((text.takeWhile Char.isDigit).map fun c => c.toNat - '0'.toNat, text.dropWhile Char.isDigit)

/-- A minus sign at the start of a text, and the text behind it. -/
def scanSign : List Char → Bool × List Char
  | '-' :: rest => (true, rest)
  | text => (false, text)

/-- The digits of a fraction, if the text starts with a point. A point needs a digit behind it. -/
def scanFraction : List Char → Option (Option (List Nat) × List Char)
  | '.' :: rest =>
    let (digits, behind) := scanDigits rest
    if digits = [] then none else some (some digits, behind)
  | text => some (none, text)

/-- The sign of an exponent, and the text behind it. -/
def scanExponentSign : List Char → Bool × List Char
  | '+' :: rest => (false, rest)
  | '-' :: rest => (true, rest)
  | text => (false, text)

/-- The exponent, if the text starts with its mark. The mark needs a digit behind it. -/
def scanExponent : List Char → Option (Option Int × List Char)
  | [] => some (none, [])
  | c :: rest =>
    if c = 'e' ∨ c = 'E' then
      let (negative, rest) := scanExponentSign rest
      let (digits, behind) := scanDigits rest
      let size : Int := (digits.foldl (10 * · + ·) 0 : Nat)
      if digits = [] then none else some (some (if negative then -size else size), behind)
    else some (none, c :: rest)

/-- The number at the start of a text, and the text behind it. A leading zero stands alone. -/
def scanNumber (text : List Char) : Option (NumberLiteral × List Char) :=
  let (negative, rest) := scanSign text
  let (whole, rest) := scanDigits rest
  if whole = [] ∨ whole.head? = some 0 ∧ whole.length ≠ 1 then none
  else
    (scanFraction rest).bind fun (fraction, rest) =>
      (scanExponent rest).map fun (exponent, behind) =>
        (⟨negative, whole, fraction, exponent⟩, behind)

theorem length_scanDigits_le (text : List Char) : (scanDigits text).2.length ≤ text.length :=
  (List.dropWhile_sublist _).length_le

theorem length_scanDigits_lt {text : List Char} (h : (scanDigits text).1 ≠ []) :
    (scanDigits text).2.length < text.length := by
  cases text with
  | nil => simp [scanDigits] at h
  | cons c rest =>
    by_cases hc : c.isDigit
    · have := (List.dropWhile_sublist (l := rest) Char.isDigit).length_le
      simp only [scanDigits, List.dropWhile_cons, hc, if_true, List.length_cons]
      omega
    · simp [scanDigits, hc] at h

theorem length_scanSign_le (text : List Char) : (scanSign text).2.length ≤ text.length := by
  unfold scanSign
  split <;> simp

theorem length_scanFraction_le {text behind : List Char} {fraction : Option (List Nat)}
    (h : scanFraction text = some (fraction, behind)) : behind.length ≤ text.length := by
  unfold scanFraction at h
  split at h
  · rename_i rest
    have := length_scanDigits_le rest
    simp only [Option.ite_none_left_eq_some, Option.some.injEq, Prod.mk.injEq] at h
    obtain ⟨_, _, rfl⟩ := h
    simp only [List.length_cons]
    omega
  · cases h
    exact Nat.le_refl _

theorem length_scanExponentSign_le (text : List Char) :
    (scanExponentSign text).2.length ≤ text.length := by
  unfold scanExponentSign
  split <;> simp

theorem length_scanExponent_le {text behind : List Char} {exponent : Option Int}
    (h : scanExponent text = some (exponent, behind)) : behind.length ≤ text.length := by
  unfold scanExponent at h
  split at h
  · cases h
    exact Nat.le_refl _
  · rename_i c rest
    have h₁ := length_scanExponentSign_le rest
    have h₂ := length_scanDigits_le (scanExponentSign rest).2
    split at h
    · simp only [Option.ite_none_left_eq_some, Option.some.injEq, Prod.mk.injEq] at h
      obtain ⟨_, _, rfl⟩ := h
      simp only [List.length_cons]
      omega
    · cases h
      exact Nat.le_refl _

theorem length_scanNumber_lt {text behind : List Char} {literal : NumberLiteral}
    (h : scanNumber text = some (literal, behind)) : behind.length < text.length := by
  simp only [scanNumber] at h
  split at h
  · cases h
  · rename_i hw
    simp only [not_or] at hw
    obtain ⟨⟨_, rest₁⟩, hf, h⟩ := Option.bind_eq_some_iff.1 h
    obtain ⟨⟨_, rest₂⟩, he, h⟩ := Option.map_eq_some_iff.1 h
    cases h
    have := length_scanSign_le text
    have := length_scanDigits_lt hw.1
    have := length_scanFraction_le hf
    have := length_scanExponent_le he
    dsimp only at *
    omega

end Stencil.Json
