import Stencil.Double.Basic

/-!
# Decimals and binary64 numbers

A decimal `digits * 10 ^ exponent` is read as the nearest `Double`. In the other direction every
`Double` has a shortest decimal: one with the fewest digits among those that read back as it, and
of those with as few digits the nearest to it, a tie going to the even last digit.

* `Double.ofDecimal?` reads a decimal, correctly rounded.
* `Double.shortest` finds the shortest decimal by trying one digit, two digits and so on, in exact
  arithmetic; `Double.readsBack_shortest` says that what it finds reads back.
-/

namespace Stencil

/-- The number `digits * 10 ^ exponent`. -/
structure Decimal where
  digits : Nat
  exponent : Int
deriving DecidableEq

namespace Decimal

/-- The numerator of the decimal as a quotient of naturals. -/
def num (d : Decimal) : Nat :=
  d.digits * Nat.pow 10 d.exponent.toNat

/-- The denominator of the decimal as a quotient of naturals. -/
def den (d : Decimal) : Nat :=
  Nat.pow 10 (-d.exponent).toNat

end Decimal

namespace Double

/-- The number nearest to a decimal, or `none` if that is not finite. A power of ten that is out of
reach of every binary64 number is not computed. -/
def ofDecimal? (negative : Bool) (d : Decimal) : Option Double :=
  if d.digits = 0 then some (zero negative)
  else if 308 < d.exponent then none
  else if (Nat.log2 d.digits : Int) + 3 * d.exponent < -1080 then some (zero negative)
  else ofRatio? negative d.num d.den

/-- Whether a decimal reads back as the absolute value of the number. -/
def ReadsBack (x : Double) (d : Decimal) : Prop :=
  nearestBits d.num d.den = x.bits

instance (x : Double) (d : Decimal) : Decidable (x.ReadsBack d) :=
  inferInstanceAs (Decidable (_ = _))

/-- Whether the value of so many units lies below a power of ten. -/
def belowPower (units : Nat) (k : Int) : Bool :=
  units * Nat.pow 10 (-k).toNat < Nat.pow 10 k.toNat * unitsPerOne

/-- The least power of ten above the value of a positive number of units. The binary logarithm
gives it up to two steps. -/
def powerAbove (units : Nat) : Int :=
  let low := ((Nat.log2 units : Int) - unitExponent) * 30103 / 100000
  if belowPower units low then low
  else if belowPower units (low + 1) then low + 1
  else low + 2

/-- The decimal on the grid `10 ^ exponent` that reads back as the number, if one of the two
neighbours of the number on this grid does. Of two that do, the nearer is taken, and of two equally
near the one with the even last digit. -/
def onGrid? (x : Double) (exponent : Int) : Option Decimal :=
  let num := x.units * Nat.pow 10 (-exponent).toNat
  let den := unitsPerOne * Nat.pow 10 exponent.toNat
  let low : Decimal := ⟨num / den, exponent⟩
  let high : Decimal := ⟨num / den + 1, exponent⟩
  if x.ReadsBack low then
    if x.ReadsBack high ∧ roundDiv num den = high.digits then some high else some low
  else if x.ReadsBack high then some high
  else none

/-- The value itself, written out. -/
def exactDecimal (x : Double) : Decimal :=
  ⟨x.units * Nat.pow 5 unitExponent, -unitExponent⟩

/-- The shortest decimal that reads back as the absolute value of a number other than zero. -/
def shortest (x : Double) : Decimal :=
  let k := powerAbove x.units
  ((List.range 17).findSome? fun n => x.onGrid? (k - (n + 1 : Nat))).getD x.exactDecimal

theorem readsBack_of_onGrid? {x : Double} {exponent : Int} {d : Decimal}
    (h : x.onGrid? exponent = some d) : x.ReadsBack d := by
  simp only [onGrid?] at h
  split at h
  · split at h <;> cases h
    · rename_i hh
      exact hh.1
    · assumption
  · split at h <;> cases h
    assumption

theorem nearestBits_mul_right {c : Nat} (hc : 0 < c) (num den : Nat) :
    nearestBits (num * c) (den * c) = nearestBits num den := by
  have hr : ∀ s, roundDiv (num * c * unitsPerOne) (den * c * s) =
      roundDiv (num * unitsPerOne) (den * s) := by
    intro s
    rw [Nat.mul_right_comm num c, Nat.mul_right_comm den c]
    simp only [roundDiv, Nat.mul_div_mul_right _ _ hc, Nat.mul_mod_mul_right, ← Nat.mul_assoc]
    simp only [Nat.mul_lt_mul_right hc, Nat.mul_left_inj (Nat.pos_iff_ne_zero.1 hc)]
  simp only [nearestBits, hr]
  rw [Nat.mul_right_comm num c, Nat.mul_div_mul_right _ _ hc]

theorem readsBack_exactDecimal (x : Double) : x.ReadsBack x.exactDecimal := by
  have hpow : ∀ k, Nat.pow 10 k = Nat.pow 2 k * Nat.pow 5 k := fun k => Nat.mul_pow 2 5 k
  have hpos : ∀ k, 0 < Nat.pow 5 k := fun k => Nat.pow_pos (by decide)
  have hn : x.exactDecimal.num = x.units * Nat.pow 5 unitExponent := by
    simp [exactDecimal, Decimal.num]
  have hd : x.exactDecimal.den = unitsPerOne * Nat.pow 5 unitExponent := by
    have hten : x.exactDecimal.den = Nat.pow 10 unitExponent := by
      simp [exactDecimal, Decimal.den]
    unfold unitsPerOne
    exact hten.trans (hpow unitExponent)
  rw [ReadsBack, hn, hd, nearestBits_mul_right (hpos _)]
  exact nearestBits_units x.bits

/-- The shortest decimal of a number reads back as that number. -/
theorem readsBack_shortest (x : Double) : x.ReadsBack x.shortest := by
  simp only [shortest]
  cases h : (List.range 17).findSome? fun n => x.onGrid? (powerAbove x.units - (n + 1 : Nat)) with
  | some d =>
    obtain ⟨_, _, hd⟩ := List.exists_of_findSome?_eq_some h
    exact readsBack_of_onGrid? hd
  | none => exact readsBack_exactDecimal x

end Double

end Stencil
