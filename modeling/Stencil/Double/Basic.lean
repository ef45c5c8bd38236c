/-!
# Finite binary64 numbers

A `Double` is a finite number of the binary interchange format with 64 bits: a sign and the
pattern of its other 63 bits, read as a natural number. Every such number is a whole multiple of
the least positive one, `2 ^ (-1074)`, so all arithmetic here is exact arithmetic on naturals
followed by one rounding.

* `Double.ofRatio?` rounds a quotient of naturals to the nearest number, a tie to the even pattern;
  the sum, product or quotient of two numbers is the exact one, so rounded.
* `Double.nearestBits_units`: a number that can be represented is rounded to itself.
-/

namespace Stencil

/-- The number of fractions that go with each exponent, `2 ^ 52`. -/
def fractionSpan : Nat :=
  0x10000000000000

/-- A finite binary64 number. -/
structure Double where
  /-- Whether the sign bit is set. -/
  negative : Bool
  /-- The exponent and fraction bits, as one number. -/
  bits : Nat
  /-- The exponent bits are not all set, so the number is finite. -/
  bits_lt : bits < 2047 * fractionSpan := by decide
deriving DecidableEq

namespace Double

/-- The least positive number, the unit, is one divided by this power of two. -/
def unitExponent : Nat :=
  1074

/-- The number of times that the unit goes into one. -/
def unitsPerOne : Nat :=
  Nat.pow 2 unitExponent

theorem unitsPerOne_pos : 0 < unitsPerOne := by
  unfold unitsPerOne
  generalize unitExponent = k
  exact Nat.two_pow_pos k

/-- The number of units in the value of a pattern: the pattern itself below the exponents, else the
fraction with its leading bit, shifted by the exponent. -/
def unitsOfBits (bits : Nat) : Nat :=
  if bits < fractionSpan then bits
  else (fractionSpan + bits % fractionSpan) * Nat.pow 2 (bits / fractionSpan - 1)

/-- The number of units in the absolute value. -/
def units (x : Double) : Nat :=
  unitsOfBits x.bits

/-- Zero with the given sign. -/
def zero (negative : Bool) : Double :=
  ⟨negative, 0, by decide⟩

/-- Whether two numbers have the same value: a zero equals a zero of the other sign. -/
def same (x y : Double) : Bool :=
  x.bits == y.bits && (x.negative == y.negative || x.bits == 0)

/-- The quotient of two naturals rounded to the nearest natural, a tie to the even one. -/
def roundDiv (num den : Nat) : Nat :=
  let r := num % den
  if 2 * r < den ∨ 2 * r = den ∧ num / den % 2 = 0 then num / den else num / den + 1

/-- The bits of the number nearest to `num / den`, a tie going to the even pattern. A result of
`2047 * fractionSpan` or more is beyond the finite numbers. -/
def nearestBits (num den : Nat) : Nat :=
  let scaled := num * unitsPerOne
  let shift := Nat.log2 (scaled / den) - 52
  shift * fractionSpan + roundDiv scaled (den * Nat.pow 2 shift)

/-- The number nearest to `num / den` with the given sign, or `none` if that is not finite. -/
def ofRatio? (negative : Bool) (num den : Nat) : Option Double :=
  let bits := nearestBits num den
  if h : bits < 2047 * fractionSpan then some ⟨negative, bits, h⟩ else none

/-- The product, rounded. -/
def mul? (x y : Double) : Option Double :=
  ofRatio? (x.negative != y.negative) (x.units * y.units)
    (unitsPerOne * unitsPerOne)

/-- The quotient by a number other than zero, rounded. -/
def div? (x y : Double) : Option Double :=
  ofRatio? (x.negative != y.negative) x.units y.units

/-- The number with the other sign. -/
def neg (x : Double) : Double :=
  { x with negative := !x.negative }

/-! ## Rounding leaves a representable number as it is -/

theorem roundDiv_mul_right {k : Nat} (hk : 0 < k) (n : Nat) : roundDiv (n * k) k = n := by
  simp [roundDiv, Nat.mul_div_cancel _ hk, hk]

theorem log2_mul_two_pow_sub {m : Nat} (h : fractionSpan ≤ m) (h' : m < 2 * fractionSpan)
    (s : Nat) : Nat.log2 (m * Nat.pow 2 s) - 52 = s := by
  simp only [fractionSpan, Nat.pow_eq] at *
  have hm : m * 2 ^ s ≠ 0 :=
    Nat.mul_ne_zero (by omega) (Nat.pos_iff_ne_zero.1 (Nat.two_pow_pos s))
  have h₁ : 52 + s ≤ Nat.log2 (m * 2 ^ s) := by
    rw [Nat.le_log2 hm, Nat.pow_add]
    exact Nat.mul_le_mul_right _ h
  have h₂ : Nat.log2 (m * 2 ^ s) < 53 + s := by
    rw [Nat.log2_lt hm, Nat.pow_add]
    exact Nat.mul_lt_mul_of_pos_right h' (Nat.two_pow_pos s)
  omega

/-- A pattern is the one nearest to its own value. -/
theorem nearestBits_units (bits : Nat) : nearestBits (unitsOfBits bits) unitsPerOne = bits := by
  have hdiv : ∀ u, u * unitsPerOne / unitsPerOne = u :=
    fun u => Nat.mul_div_cancel u unitsPerOne_pos
  simp only [nearestBits, hdiv, unitsOfBits]
  split
  · rename_i h
    have hlog : Nat.log2 bits - 52 = 0 := by
      rcases Nat.eq_zero_or_pos bits with rfl | hpos
      · rfl
      · have hlt : Nat.log2 bits < 52 := (Nat.log2_lt (by omega)).2 h
        omega
    rw [hlog, Nat.pow_eq, Nat.pow_zero, Nat.mul_one, roundDiv_mul_right unitsPerOne_pos]
    omega
  · rename_i h
    have hmod := Nat.mod_lt bits (show 0 < fractionSpan by decide)
    have hshift : 0 < Nat.pow 2 (bits / fractionSpan - 1) := Nat.two_pow_pos _
    rw [log2_mul_two_pow_sub (by omega) (by omega), Nat.mul_right_comm, Nat.mul_assoc,
      roundDiv_mul_right (Nat.mul_pos unitsPerOne_pos hshift)]
    simp only [fractionSpan] at *
    omega

end Double

end Stencil
