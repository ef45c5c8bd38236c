import Stencil.Json.Literal

/-!
# Numbers as they are written

The text of a number spells a literal of the grammar, and reading the text gives this literal back,
whatever follows that cannot belong to a number. The literal of an integer has neither a fraction
nor an exponent; that of a binary64 number has one of them at least, and its value reads back as
this number and no other. So a number is told by its text.

* `NumberLiteral.text`, `scanNumber_text`: a literal is written and read back.
* `exists_literal_layOut`: laying out digits spells a literal of the same value.
* `exists_literal_spells`: every number is written as a literal that stands for it.
* `numberText_append_inj`: a number is told by its text, also at the front of a longer one.
-/

namespace Stencil

/-! ## Decimals with the same value -/

namespace Decimal

theorem den_pos (d : Decimal) : 0 < d.den :=
  Nat.pow_pos (show 0 < 10 by decide)

/-- Two decimals that stand for the same quotient. -/
def Same (d d' : Decimal) : Prop :=
  d.num * d'.den = d'.num * d.den

theorem Same.symm {d d' : Decimal} (h : d.Same d') : d'.Same d :=
  Eq.symm h

theorem same_shift (m k : Nat) (e : Int) : Same ⟨m * Nat.pow 10 k, e⟩ ⟨m, e + k⟩ := by
  have hadd : ∀ i j, Nat.pow 10 i * Nat.pow 10 j = Nat.pow 10 (i + j) :=
    fun i j => (Nat.pow_add 10 i j).symm
  have hexponents : k + e.toNat + (-(e + k)).toNat = (e + k).toNat + (-e).toNat := by omega
  simp only [Same, num, den, Nat.mul_assoc, hadd]
  rw [hexponents]

end Decimal

theorem Double.nearestBits_of_same {d d' : Decimal} (h : d.Same d') :
    nearestBits d.num d.den = nearestBits d'.num d'.den := by
  rw [← nearestBits_mul_right d'.den_pos d.num d.den, h, Nat.mul_comm d.den d'.den,
    nearestBits_mul_right d.den_pos]

theorem Double.ReadsBack.of_same {x : Double} {d d' : Decimal} (h : x.ReadsBack d')
    (hsame : d.Same d') : x.ReadsBack d := by
  rw [ReadsBack, nearestBits_of_same hsame]
  exact h

theorem Double.nearestBits_zero {den : Nat} (h : 0 < den) : nearestBits 0 den = 0 := by
  simp [nearestBits, roundDiv, h]

namespace Json

/-! ## Digits -/

/-- The digits that characters spell. -/
def digitsOf (text : List Char) : List Nat :=
  text.map fun c => c.toNat - '0'.toNat

/-- The code points of the digits. -/
theorem isDigit_bounds {c : Char} (h : c.isDigit = true) : 48 ≤ c.toNat ∧ c.toNat ≤ 57 :=
  Char.isDigit_iff_toNat.1 h

theorem digitChar_toNat_sub {c : Char} (h : c.isDigit = true) :
    Nat.digitChar (c.toNat - '0'.toNat) = c := by
  obtain ⟨hlow, hhigh⟩ := isDigit_bounds h
  have hzero : '0'.toNat = 48 := rfl
  refine Char.toNat_inj.1 ?_
  rw [Nat.toNat_digitChar_of_lt_ten (by omega)]
  omega

theorem digitsOf_lt {text : List Char} (h : ∀ c ∈ text, c.isDigit = true) :
    ∀ d ∈ digitsOf text, d < 10 := by
  intro d hd
  obtain ⟨c, hc, rfl⟩ := List.mem_map.1 hd
  obtain ⟨hlow, hhigh⟩ := isDigit_bounds (h c hc)
  have hzero : '0'.toNat = 48 := rfl
  omega

theorem map_digitChar_digitsOf {text : List Char} (h : ∀ c ∈ text, c.isDigit = true) :
    (digitsOf text).map Nat.digitChar = text := by
  rw [digitsOf, List.map_map]
  exact (List.map_congr_left fun c hc => digitChar_toNat_sub (h c hc)).trans (List.map_id text)

theorem digitsOf_map_digitChar {digits : List Nat} (h : ∀ d ∈ digits, d < 10) :
    digitsOf (digits.map Nat.digitChar) = digits := by
  rw [digitsOf, List.map_map]
  exact (List.map_congr_left fun d hd => Nat.toNat_digitChar_sub_48_of_lt_ten (h d hd)).trans
    (List.map_id digits)

theorem isDigit_map_digitChar {digits : List Nat} (h : ∀ d ∈ digits, d < 10) :
    ∀ c ∈ digits.map Nat.digitChar, c.isDigit = true := by
  intro c hc
  obtain ⟨d, hd, rfl⟩ := List.mem_map.1 hc
  rw [Nat.isDigit_digitChar, decide_eq_true (h d hd)]

/-- The number that digits spell. -/
def valueOf (digits : List Nat) : Nat :=
  digits.foldl (10 * · + ·) 0

theorem valueOf_digitsOf (text : List Char) :
    valueOf (digitsOf text) = Nat.ofDigitChars 10 text 0 := by
  rw [valueOf, digitsOf, List.foldl_map, Nat.ofDigitChars_eq_foldl]

theorem scanDigits_append {text rest : List Char} (h : ∀ c ∈ text, c.isDigit = true)
    (hrest : ∀ c ∈ rest.head?, c.isDigit = false) :
    scanDigits (text ++ rest) = (digitsOf text, rest) := by
  have htake : rest.takeWhile Char.isDigit = [] ∧ rest.dropWhile Char.isDigit = rest := by
    cases rest with
    | nil => exact ⟨rfl, rfl⟩
    | cons c rest => simp [hrest c rfl]
  rw [scanDigits, List.takeWhile_append_of_pos h, List.dropWhile_append_of_pos h, htake.1, htake.2,
    List.append_nil, digitsOf]

/-! ## Literals -/

namespace NumberLiteral

/-- The decimal that a literal spells, its sign aside. -/
def decimal (literal : NumberLiteral) : Decimal where
  digits := valueOf (literal.whole ++ literal.fraction.getD [])
  exponent := literal.exponent.getD 0 - (literal.fraction.getD []).length

/-- The text of a fraction. -/
def fractionText : Option (List Nat) → List Char
  | none => []
  | some digits => '.' :: digits.map Nat.digitChar

/-- The text of an exponent, which always has a sign. -/
def exponentText : Option Int → List Char
  | none => []
  | some exponent =>
    'e' :: (if exponent < 0 then '-' else '+') :: exponent.natAbs.repr.toList

/-- The text of a literal. -/
def text (literal : NumberLiteral) : List Char :=
  (if literal.negative then ['-'] else []) ++ literal.whole.map Nat.digitChar ++
    fractionText literal.fraction ++ exponentText literal.exponent

/-- A literal that the grammar allows: a leading zero stands alone, and a fraction has digits. -/
structure WellFormed (literal : NumberLiteral) : Prop where
  whole_ne : literal.whole ≠ []
  whole_lt : ∀ d ∈ literal.whole, d < 10
  zero_alone : literal.whole.head? = some 0 → literal.whole.length = 1
  fraction_ne : literal.fraction ≠ some []
  fraction_lt : ∀ digits ∈ literal.fraction, ∀ d ∈ digits, d < 10

/-- A literal with the given text that has no sign and spells no integer, since it has a fraction or
an exponent. -/
structure Unsigned (literal : NumberLiteral) (text : List Char) : Prop where
  wellFormed : literal.WellFormed
  text_eq : literal.text = text
  negative_eq : literal.negative = false
  not_plain : ¬(literal.fraction = none ∧ literal.exponent = none)

end NumberLiteral

/-- A text that cannot go on with a number that ends before it. -/
def EndsNumber (rest : List Char) : Prop :=
  ∀ c ∈ rest.head?, c.isDigit = false ∧ c ≠ '.' ∧ c ≠ 'e' ∧ c ≠ 'E'

theorem isDigit_repr (n : Nat) : ∀ c ∈ n.repr.toList, c.isDigit = true := by
  rw [Nat.repr_eq_ofList_toDigits, String.toList_ofList]
  exact fun c => Nat.isDigit_of_mem_toDigits (by decide) (by decide)

theorem ofDigitChars_repr (n : Nat) : Nat.ofDigitChars 10 n.repr.toList 0 = n := by
  rw [Nat.repr_eq_ofList_toDigits, String.toList_ofList, Nat.ofDigitChars_ten_toDigits]

theorem repr_ne_nil (n : Nat) : n.repr.toList ≠ [] := by
  rw [Nat.repr_eq_ofList_toDigits, String.toList_ofList]
  exact Nat.toDigits_ne_nil

section scan

variable {rest : List Char} (hrest : EndsNumber rest)

include hrest

theorem scanExponent_text (exponent : Option Int) :
    scanExponent (NumberLiteral.exponentText exponent ++ rest) = some (exponent, rest) := by
  cases exponent with
  | none =>
    cases rest with
    | nil => rfl
    | cons c rest =>
      obtain ⟨-, -, he, hE⟩ := hrest c rfl
      simp [NumberLiteral.exponentText, scanExponent, he, hE]
  | some exponent =>
    have hdigits : scanDigits (exponent.natAbs.repr.toList ++ rest) =
        (digitsOf exponent.natAbs.repr.toList, rest) :=
      scanDigits_append (isDigit_repr _) fun c hc => (hrest c hc).1
    have hvalue : (digitsOf exponent.natAbs.repr.toList).foldl (10 * · + ·) 0 = exponent.natAbs :=
      (valueOf_digitsOf _).trans (ofDigitChars_repr _)
    have hne : digitsOf exponent.natAbs.repr.toList ≠ [] := by
      simp [digitsOf]
    by_cases hsign : exponent < 0
    · have habs : -(exponent.natAbs : Int) = exponent := by
        omega
      simp only [NumberLiteral.exponentText, if_pos hsign, List.cons_append, scanExponent,
        scanExponentSign, hdigits, hvalue, hne, habs, true_or, if_true, if_false]
    · have habs : (exponent.natAbs : Int) = exponent := by
        omega
      simp only [NumberLiteral.exponentText, if_neg hsign, List.cons_append, scanExponent,
        scanExponentSign, hdigits, hvalue, hne, habs, true_or, if_true, if_false,
        Bool.false_eq_true]

theorem not_isDigit_exponentText (exponent : Option Int) :
    ∀ c ∈ (NumberLiteral.exponentText exponent ++ rest).head?, c.isDigit = false ∧ c ≠ '.' := by
  intro c hc
  cases exponent with
  | none => exact ⟨(hrest c hc).1, (hrest c hc).2.1⟩
  | some exponent =>
    obtain rfl : 'e' = c := Option.some.inj hc
    decide

theorem not_isDigit_fractionText (fraction : Option (List Nat)) (exponent : Option Int) :
    ∀ c ∈ (NumberLiteral.fractionText fraction ++
      (NumberLiteral.exponentText exponent ++ rest)).head?, c.isDigit = false := by
  intro c hc
  cases fraction with
  | none => exact (not_isDigit_exponentText hrest exponent c hc).1
  | some digits =>
    obtain rfl : '.' = c := Option.some.inj hc
    decide

theorem scanFraction_text {literal : NumberLiteral} (h : literal.WellFormed) :
    scanFraction (NumberLiteral.fractionText literal.fraction ++
        (NumberLiteral.exponentText literal.exponent ++ rest)) =
      some (literal.fraction, NumberLiteral.exponentText literal.exponent ++ rest) := by
  have hbehind := not_isDigit_exponentText hrest literal.exponent
  generalize NumberLiteral.exponentText literal.exponent ++ rest = behind at hbehind ⊢
  cases hfraction : literal.fraction with
  | none =>
    rw [NumberLiteral.fractionText, List.nil_append]
    unfold scanFraction
    split
    · exact absurd rfl (hbehind '.' rfl).2
    · rfl
  | some digits =>
    have hlt := h.fraction_lt digits hfraction
    have hne : digits ≠ [] := fun hnil => h.fraction_ne (hnil ▸ hfraction)
    have hdigits := scanDigits_append (isDigit_map_digitChar hlt) fun c hc => (hbehind c hc).1
    rw [digitsOf_map_digitChar hlt] at hdigits
    simp only [NumberLiteral.fractionText, List.cons_append, scanFraction, hdigits, if_neg hne]

/-- **A literal is read back from its text**, with more text behind it or without. -/
theorem scanNumber_text {literal : NumberLiteral} (h : literal.WellFormed) :
    scanNumber (literal.text ++ rest) = some (literal, rest) := by
  obtain ⟨first, others, hwhole⟩ := List.exists_cons_of_ne_nil h.whole_ne
  have hdigits := scanDigits_append (isDigit_map_digitChar h.whole_lt)
    (not_isDigit_fractionText hrest literal.fraction literal.exponent)
  rw [digitsOf_map_digitChar h.whole_lt] at hdigits
  have hzero : ¬(literal.whole = [] ∨ literal.whole.head? = some 0 ∧ literal.whole.length ≠ 1) := by
    rintro (hnil | ⟨hhead, hlength⟩)
    · exact h.whole_ne hnil
    · exact hlength (h.zero_alone hhead)
  have hsign : scanSign (literal.text ++ rest) = (literal.negative,
      literal.whole.map Nat.digitChar ++ (NumberLiteral.fractionText literal.fraction ++
        (NumberLiteral.exponentText literal.exponent ++ rest))) := by
    have hfirst : Nat.digitChar first ≠ '-' := Nat.digitChar_ne '-' rfl
    cases hnegative : literal.negative <;>
      simp [NumberLiteral.text, hnegative, hwhole, scanSign, hfirst]
  simp only [scanNumber, hsign, hdigits, if_neg hzero, scanFraction_text hrest h,
    scanExponent_text hrest, Option.bind_some, Option.map_some]

end scan

/-! ## Literals of given characters -/

namespace NumberLiteral

/-- The literal with the digits that characters spell. -/
def ofTexts (whole : List Char) (fraction : Option (List Char)) (exponent : Option Int) :
    NumberLiteral :=
  ⟨false, digitsOf whole, fraction.map digitsOf, exponent⟩

section ofTexts

variable {whole : List Char} {fraction : Option (List Char)} {exponent : Option Int}
  (hwhole : ∀ c ∈ whole, c.isDigit = true)
  (hfraction : ∀ text ∈ fraction, ∀ c ∈ text, c.isDigit = true)

include hwhole hfraction

theorem wellFormed_ofTexts (hne : whole ≠ []) (hzero : whole.head? = some '0' → whole.length = 1)
    (hfraction_ne : fraction ≠ some []) : (ofTexts whole fraction exponent).WellFormed where
  whole_ne := by simpa [ofTexts, digitsOf] using hne
  whole_lt := digitsOf_lt hwhole
  zero_alone := by
    intro hhead
    obtain ⟨c, others, rfl⟩ := List.exists_cons_of_ne_nil hne
    have hdigit : c.toNat - '0'.toNat = 0 := Option.some.inj hhead
    have hc : Nat.digitChar (c.toNat - '0'.toNat) = '0' := by
      rw [hdigit]
      rfl
    rw [digitChar_toNat_sub (hwhole c List.mem_cons_self)] at hc
    simpa [ofTexts, digitsOf] using hzero (congrArg some hc)
  fraction_ne := by
    cases fraction with
    | none => simp [ofTexts]
    | some text => simpa [ofTexts, digitsOf] using hfraction_ne
  fraction_lt := by
    intro digits hdigits
    obtain ⟨text, htext, rfl⟩ := Option.map_eq_some_iff.1 hdigits
    exact digitsOf_lt (hfraction text htext)

theorem text_ofTexts : (ofTexts whole fraction exponent).text =
    whole ++ fraction.elim [] ('.' :: ·) ++ exponentText exponent := by
  cases fraction with
  | none => simp [text, ofTexts, fractionText, map_digitChar_digitsOf hwhole]
  | some digits =>
    simp [text, ofTexts, fractionText, map_digitChar_digitsOf hwhole,
      map_digitChar_digitsOf (hfraction digits rfl)]

omit hwhole hfraction in
theorem decimal_ofTexts : (ofTexts whole fraction exponent).decimal =
    ⟨Nat.ofDigitChars 10 (whole ++ fraction.getD []) 0,
      exponent.getD 0 - (fraction.getD []).length⟩ := by
  have happend : digitsOf whole ++ (fraction.map digitsOf).getD [] =
      digitsOf (whole ++ fraction.getD []) := by
    cases fraction <;> simp [digitsOf]
  have hlength : ((fraction.map digitsOf).getD []).length = (fraction.getD []).length := by
    cases fraction <;> simp [digitsOf]
  simp only [decimal, ofTexts, happend, hlength, valueOf_digitsOf]

variable (whole fraction exponent)

theorem unsigned_ofTexts (hne : whole ≠ []) (hzero : whole.head? = some '0' → whole.length = 1)
    (hfraction_ne : fraction ≠ some []) (hmark : ¬(fraction = none ∧ exponent = none)) :
    (ofTexts whole fraction exponent).Unsigned
      (whole ++ fraction.elim [] ('.' :: ·) ++ exponentText exponent) where
  wellFormed := wellFormed_ofTexts hwhole hfraction hne hzero hfraction_ne
  text_eq := text_ofTexts hwhole hfraction
  negative_eq := rfl
  not_plain := by simpa [ofTexts] using hmark

end ofTexts

end NumberLiteral

/-! ## Digits laid out -/

theorem head?_repr_ne {n : Nat} (h : n ≠ 0) : n.repr.toList.head? ≠ some '0' := by
  rw [Nat.repr_eq_ofList_toDigits, String.toList_ofList]
  induction n using Nat.strongRecOn with
  | ind n ih =>
    rw [Nat.toDigits_eq_if (by decide)]
    split
    · simpa using h
    · obtain ⟨c, others, hc⟩ :=
        List.exists_cons_of_ne_nil (Nat.toDigits_ne_nil (n := n / 10) (b := 10))
      have hrest := ih (n / 10) (by omega) (by omega)
      rw [hc] at hrest ⊢
      exact hrest

theorem ofDigitChars_append_zeros (digits : List Char) (k : Nat) :
    Nat.ofDigitChars 10 (digits ++ List.replicate k '0') 0 =
      Nat.ofDigitChars 10 digits 0 * Nat.pow 10 k := by
  rw [Nat.ofDigitChars_append, Nat.ofDigitChars_replicate_zero, Nat.mul_comm]
  rfl

theorem ofDigitChars_zeros_append (digits : List Char) (k : Nat) :
    Nat.ofDigitChars 10 (List.replicate k '0' ++ digits) 0 = Nat.ofDigitChars 10 digits 0 := by
  rw [Nat.ofDigitChars_append, Nat.ofDigitChars_replicate_zero, Nat.mul_zero]

/-- The digits of a decimal are its significant digits with zeros behind them. -/
theorem exists_significantDigits (digits : List Char) :
    ∃ zeros, digits = significantDigits digits ++ List.replicate zeros '0' := by
  have hzeros : digits.reverse.takeWhile (· = '0') =
      List.replicate (digits.reverse.takeWhile (· = '0')).length '0' := by
    refine List.eq_replicate_iff.2 ⟨rfl, fun c hc => ?_⟩
    simpa using List.all_eq_true.1 (List.all_takeWhile (l := digits.reverse)) c hc
  refine ⟨(digits.reverse.takeWhile (· = '0')).length, ?_⟩
  rw [significantDigits, ← List.reverse_replicate, ← hzeros, ← List.reverse_append,
    List.takeWhile_append_dropWhile, List.reverse_reverse]

theorem isDigit_replicate_zero (k : Nat) : ∀ c ∈ List.replicate k '0', c.isDigit = true :=
  fun _ hc => List.eq_of_mem_replicate hc ▸ rfl

theorem isDigit_zero : ∀ c ∈ ['0'], c.isDigit = true :=
  isDigit_replicate_zero 1

theorem isDigit_some {text : List Char} (h : ∀ c ∈ text, c.isDigit = true) :
    ∀ fraction ∈ some text, ∀ c ∈ fraction, c.isDigit = true := by
  rintro _ ⟨⟩
  exact h

section layOut

variable {first : Char} {others : List Char} (hdigits : ∀ c ∈ first :: others, c.isDigit = true)

include hdigits

/-- The layout of an integral value: zeros stand for the digits that are missing. -/
theorem exists_literal_padded (hfirst : first ≠ '0') (zeros : Nat) : ∃ literal : NumberLiteral,
    literal.Unsigned (first :: others ++ List.replicate zeros '0' ++ ['.', '0']) ∧
      literal.decimal.Same ⟨Nat.ofDigitChars 10 (first :: others) 0, zeros⟩ := by
  have hwhole : ∀ c ∈ first :: others ++ List.replicate zeros '0', c.isDigit = true :=
    List.forall_mem_append.2 ⟨hdigits, isDigit_replicate_zero zeros⟩
  have hunsigned := NumberLiteral.unsigned_ofTexts _ _ none hwhole (isDigit_some isDigit_zero)
    (by simp) (by simp [hfirst]) (by simp) (by simp)
  refine ⟨.ofTexts (first :: others ++ List.replicate zeros '0') (some ['0']) none, by
    simpa [NumberLiteral.exponentText] using hunsigned, ?_⟩
  have hvalue : Nat.ofDigitChars 10 (first :: others ++ List.replicate zeros '0' ++ ['0']) 0 =
      Nat.ofDigitChars 10 (first :: others) 0 * Nat.pow 10 (zeros + 1) := by
    rw [List.append_assoc, ← ofDigitChars_append_zeros, List.replicate_succ']
  -- The zero of the fraction is one more digit, which the exponent takes back.
  have hexponent : (zeros : Int) = -1 + (zeros + 1 : Nat) := by
    omega
  rw [NumberLiteral.decimal_ofTexts, Option.getD_some, hvalue, hexponent]
  exact Decimal.same_shift _ (zeros + 1) (-1)

/-- The layout with the point between the digits. -/
theorem exists_literal_pointed (hfirst : first ≠ '0') {places : Nat}
    (hplaces : places < others.length) : ∃ literal : NumberLiteral,
      literal.Unsigned ((first :: others).take (places + 1) ++
        '.' :: (first :: others).drop (places + 1)) ∧
      literal.decimal.Same ⟨Nat.ofDigitChars 10 (first :: others) 0,
        (places : Int) - others.length⟩ := by
  have hwhole : ∀ c ∈ (first :: others).take (places + 1), c.isDigit = true :=
    fun c hc => hdigits c (List.mem_of_mem_take hc)
  have hfraction : ∀ c ∈ (first :: others).drop (places + 1), c.isDigit = true :=
    fun c hc => hdigits c (List.mem_of_mem_drop hc)
  have hunsigned := NumberLiteral.unsigned_ofTexts _ _ none hwhole (isDigit_some hfraction)
    (by simp) (by simp [hfirst]) (by simpa using hplaces) (by simp)
  refine ⟨.ofTexts ((first :: others).take (places + 1))
    (some ((first :: others).drop (places + 1))) none, by
    simpa [NumberLiteral.exponentText] using hunsigned, ?_⟩
  have hexponent : (0 : Int) - ((first :: others).drop (places + 1)).length =
      places - others.length := by
    rw [List.length_drop, List.length_cons]
    omega
  rw [NumberLiteral.decimal_ofTexts, Option.getD_some, List.take_append_drop, Option.getD_none,
    hexponent]
  rfl

/-- The layout with zeros between the point and the digits. -/
theorem exists_literal_leading (zeros : Nat) : ∃ literal : NumberLiteral,
    literal.Unsigned ('0' :: '.' :: List.replicate zeros '0' ++ first :: others) ∧
      literal.decimal.Same ⟨Nat.ofDigitChars 10 (first :: others) 0,
        -(zeros + others.length + 1 : Int)⟩ := by
  have hfraction : ∀ c ∈ List.replicate zeros '0' ++ first :: others, c.isDigit = true :=
    List.forall_mem_append.2 ⟨isDigit_replicate_zero zeros, hdigits⟩
  have hunsigned := NumberLiteral.unsigned_ofTexts _ _ none isDigit_zero (isDigit_some hfraction)
    (by simp) (by simp) (by simp) (by simp)
  refine ⟨_, by simpa [NumberLiteral.exponentText] using hunsigned, ?_⟩
  have hvalue : Nat.ofDigitChars 10 (['0'] ++ (List.replicate zeros '0' ++ first :: others)) 0 =
      Nat.ofDigitChars 10 (first :: others) 0 := by
    rw [← List.append_assoc, ← ofDigitChars_zeros_append (first :: others) (zeros + 1),
      List.replicate_succ]
    rfl
  have hexponent : (0 : Int) - (List.replicate zeros '0' ++ first :: others).length =
      -(zeros + others.length + 1) := by
    rw [List.length_append, List.length_replicate, List.length_cons]
    omega
  rw [NumberLiteral.decimal_ofTexts, Option.getD_some, Option.getD_none, hvalue, hexponent]
  rfl

/-- The layout with an exponent. -/
theorem exists_literal_scaled (e : Int) : ∃ literal : NumberLiteral,
    literal.Unsigned ([first] ++ (if others = [] then [] else '.' :: others) ++
        NumberLiteral.exponentText (some e)) ∧
      literal.decimal.Same ⟨Nat.ofDigitChars 10 (first :: others) 0, e - others.length⟩ := by
  have hwhole : ∀ c ∈ [first], c.isDigit = true := fun c hc =>
    hdigits c (List.mem_singleton.1 hc ▸ List.mem_cons_self)
  by_cases hothers : others = []
  · subst hothers
    have hunsigned := NumberLiteral.unsigned_ofTexts _ none (some e) hwhole (by simp) (by simp)
      (by simp) (by simp) (by simp)
    exact ⟨_, hunsigned, by rw [NumberLiteral.decimal_ofTexts]; rfl⟩
  · have hunsigned := NumberLiteral.unsigned_ofTexts _ _ (some e) hwhole
      (isDigit_some (List.forall_mem_cons.1 hdigits).2) (by simp) (by simp) (by simpa using hothers)
      (by simp)
    rw [if_neg hothers]
    exact ⟨_, hunsigned, by rw [NumberLiteral.decimal_ofTexts]; rfl⟩

/-- **Digits that are laid out spell a literal** of the same value. The first of them stands for
the power of ten. -/
theorem exists_literal_layOut (hfirst : first ≠ '0') (e : Int) : ∃ literal : NumberLiteral,
    literal.Unsigned (layOut (first :: others) e) ∧
      literal.decimal.Same ⟨Nat.ofDigitChars 10 (first :: others) 0, e - others.length⟩ := by
  unfold layOut
  split
  case isTrue hplain =>
    dsimp only
    split
    case isTrue hshort =>
      rw [List.length_cons] at hshort ⊢
      obtain ⟨literal, hliteral, hsame⟩ :=
        exists_literal_padded hdigits hfirst (e.toNat + 1 - (others.length + 1))
      have hexponent : (e.toNat + 1 - (others.length + 1) : Nat) = e - others.length := by
        omega
      exact ⟨literal, hliteral, hexponent ▸ hsame⟩
    case isFalse hlong =>
      rw [List.length_cons] at hlong
      have hplaces : e.toNat < others.length := by
        omega
      have hexponent : (e.toNat : Int) = e := by
        omega
      obtain ⟨literal, hliteral, hsame⟩ := exists_literal_pointed hdigits hfirst hplaces
      exact ⟨literal, hliteral, hexponent ▸ hsame⟩
  case isFalse =>
    split
    case isTrue hsmall =>
      obtain ⟨literal, hliteral, hsame⟩ := exists_literal_leading hdigits (-e - 1).toNat
      have hexponent : -(((-e - 1).toNat : Int) + others.length + 1) = e - others.length := by
        omega
      exact ⟨literal, hliteral, hexponent ▸ hsame⟩
    case isFalse =>
      obtain ⟨literal, hliteral, hsame⟩ := exists_literal_scaled hdigits e
      refine ⟨literal, ?_, hsame⟩
      cases others <;> simpa [NumberLiteral.exponentText] using hliteral

end layOut

/-! ## The literal of a number -/

/-- What a literal stands for: without fraction and exponent an integer, else the binary64 number
as which it reads back. -/
def NumberLiteral.Spells (literal : NumberLiteral) : Number → Prop
  | .integer value =>
    (literal.fraction = none ∧ literal.exponent = none) ∧
      value = if literal.negative then -(valueOf literal.whole : Int) else valueOf literal.whole
  | .real x =>
    ¬(literal.fraction = none ∧ literal.exponent = none) ∧
      literal.negative = x.negative ∧ x.ReadsBack literal.decimal

theorem NumberLiteral.Spells.inj {literal : NumberLiteral} {m n : Number} (hm : literal.Spells m)
    (hn : literal.Spells n) : m = n := by
  cases m with
  | integer v =>
    cases n with
    | integer w => rw [hm.2, hn.2]
    | real y => exact absurd hm.1 hn.1
  | real x =>
    cases n with
    | integer w => exact absurd hn.1 hm.1
    | real y =>
      have hnegative : x.negative = y.negative := hm.2.1.symm.trans hn.2.1
      have hbits : x.bits = y.bits := hm.2.2.symm.trans hn.2.2
      cases x
      cases y
      subst hnegative
      subst hbits
      rfl

theorem readsBack_of_digits_eq_zero {x : Double} {d : Decimal} (hd : d.digits = 0) :
    x.ReadsBack d ↔ x.bits = 0 := by
  have hnum : d.num = 0 := by
    rw [Decimal.num, hd, Nat.zero_mul]
  rw [Double.ReadsBack, hnum, Double.nearestBits_zero d.den_pos, eq_comm]

/-- The significant digits of the shortest decimal, laid out, spell a literal that reads back as
the number. -/
theorem exists_literal_shortest {x : Double} (hx : x.bits ≠ 0) : ∃ literal : NumberLiteral,
    literal.Unsigned (layOut (significantDigits x.shortest.digits.repr.toList)
        (x.shortest.exponent + x.shortest.digits.repr.toList.length - 1)) ∧
      x.ReadsBack literal.decimal := by
  have hreads := x.readsBack_shortest
  have hne : x.shortest.digits ≠ 0 := fun hzero => hx ((readsBack_of_digits_eq_zero hzero).1 hreads)
  -- From here on the decimal may be any that reads back as the number.
  generalize x.shortest = d at hreads hne ⊢
  obtain ⟨m, e⟩ := d
  dsimp only at hne ⊢
  -- The zeros that the layout leaves out are made up for by the exponent.
  obtain ⟨zeros, hzeros⟩ := exists_significantDigits m.repr.toList
  obtain ⟨first, others, hfirst⟩ : ∃ first others,
      significantDigits m.repr.toList = first :: others := by
    refine List.exists_cons_of_ne_nil fun hnil => hne ?_
    rw [← ofDigitChars_repr m, hzeros, hnil, List.nil_append,
      Nat.ofDigitChars_replicate_zero, Nat.mul_zero]
  rw [hfirst] at hzeros ⊢
  have hdigits : ∀ c ∈ first :: others, c.isDigit = true := fun c hc =>
    isDigit_repr m c (hzeros ▸ List.mem_append_left _ hc)
  have hhead : first ≠ '0' := fun h => head?_repr_ne hne (by rw [hzeros, h]; rfl)
  have hvalue : m = Nat.ofDigitChars 10 (first :: others) 0 * Nat.pow 10 zeros := by
    rw [← ofDigitChars_append_zeros, ← hzeros, ofDigitChars_repr]
  have hexponent : e + (m.repr.toList.length : Int) - 1 - others.length = e + zeros := by
    rw [hzeros, List.length_append, List.length_replicate, List.length_cons]
    omega
  obtain ⟨literal, hliteral, hsame⟩ := exists_literal_layOut hdigits hhead
    (e + m.repr.toList.length - 1)
  have hshift := Decimal.same_shift (Nat.ofDigitChars 10 (first :: others) 0) zeros e
  rw [hexponent] at hsame
  rw [← hvalue] at hshift
  exact ⟨literal, hliteral, (hreads.of_same hshift.symm).of_same hsame⟩

theorem exists_literal_magnitude (x : Double) : ∃ literal : NumberLiteral,
    literal.Unsigned (magnitudeText x) ∧ x.ReadsBack literal.decimal := by
  unfold magnitudeText
  split
  case isTrue hzero =>
    have hunsigned := NumberLiteral.unsigned_ofTexts _ _ none isDigit_zero
      (isDigit_some isDigit_zero) (by simp) (by simp) (by simp) (by simp)
    exact ⟨_, hunsigned, (readsBack_of_digits_eq_zero rfl).2 hzero⟩
  case isFalse hnonzero =>
    exact exists_literal_shortest hnonzero

theorem toList_repr_int (value : Int) :
    value.repr.toList = (if value < 0 then ['-'] else []) ++ value.natAbs.repr.toList := by
  rw [Int.repr_eq_if]
  by_cases hsign : value < 0
  · have habs : (-value).toNat = value.natAbs := by
      omega
    rw [if_neg (by omega), if_pos hsign, habs, String.toList_append]
    rfl
  · have habs : value.toNat = value.natAbs := by
      omega
    rw [if_pos (by omega), if_neg hsign, habs, List.nil_append]

theorem exists_literal_integer (value : Int) : ∃ literal : NumberLiteral,
    literal.WellFormed ∧ literal.text = value.repr.toList ∧ literal.Spells (.integer value) := by
  have hdigits := isDigit_repr value.natAbs
  have hwell : (NumberLiteral.ofTexts value.natAbs.repr.toList none none).WellFormed := by
    refine NumberLiteral.wellFormed_ofTexts hdigits (by simp) (repr_ne_nil _) (fun hhead => ?_)
      (by simp)
    by_cases hzero : value.natAbs = 0
    · rw [hzero]
      rfl
    · exact absurd hhead (head?_repr_ne hzero)
  refine ⟨⟨decide (value < 0), digitsOf value.natAbs.repr.toList, none, none⟩,
    { hwell with }, ?_, ⟨rfl, rfl⟩, ?_⟩
  · rw [toList_repr_int]
    simp only [NumberLiteral.text, NumberLiteral.fractionText, NumberLiteral.exponentText,
      map_digitChar_digitsOf hdigits, decide_eq_true_eq, List.append_nil]
  · rw [valueOf_digitsOf, ofDigitChars_repr]
    by_cases hsign : value < 0
    · rw [if_pos (decide_eq_true hsign)]
      omega
    · rw [if_neg (by simpa using hsign)]
      omega

/-- **Every number is written as a literal** that stands for it. -/
theorem exists_literal_spells (n : Number) : ∃ literal : NumberLiteral,
    literal.WellFormed ∧ literal.text = numberText n ∧ literal.Spells n := by
  cases n with
  | integer value => exact exists_literal_integer value
  | real x =>
    obtain ⟨literal, hliteral, hreads⟩ := exists_literal_magnitude x
    obtain ⟨negative, whole, fraction, exponent⟩ := literal
    obtain ⟨hwell, htext, rfl, hplain⟩ := hliteral
    refine ⟨⟨x.negative, whole, fraction, exponent⟩, { hwell with }, ?_, hplain, rfl, hreads⟩
    rw [numberText, ← htext]
    cases x.negative <;> simp [NumberLiteral.text]

/-- **A number is told by its text**, also at the front of a longer text. -/
theorem numberText_append_inj {m n : Number} {s t : List Char} (hs : EndsNumber s)
    (ht : EndsNumber t) (h : numberText m ++ s = numberText n ++ t) : m = n ∧ s = t := by
  obtain ⟨literal, hliteral, htext, hspells⟩ := exists_literal_spells m
  obtain ⟨literal', hliteral', htext', hspells'⟩ := exists_literal_spells n
  have hscan := scanNumber_text hs hliteral
  rw [htext, h, ← htext', scanNumber_text ht hliteral'] at hscan
  obtain ⟨rfl, rfl⟩ := Prod.mk.inj (Option.some.inj hscan)
  exact ⟨hspells.inj hspells', rfl⟩

end Json

end Stencil
