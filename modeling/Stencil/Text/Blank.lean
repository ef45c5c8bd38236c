/-!
# White space

The characters that count as blank are those with the Unicode property `White_Space`, twenty-five
code points in ten ranges. `trim` removes them from both ends of a text.

* `trim_sublist`: trimming takes characters away and puts none in.
-/

namespace Stencil.Text

/-- The closed ranges of blank code points, ascending and apart. -/
def blankRanges : List (Nat × Nat) :=
  [(0x09, 0x0D), (0x20, 0x20), (0x85, 0x85), (0xA0, 0xA0), (0x1680, 0x1680), (0x2000, 0x200A),
    (0x2028, 0x2029), (0x202F, 0x202F), (0x205F, 0x205F), (0x3000, 0x3000)]

/-- Whether a character is white space. -/
def isBlank (c : Char) : Bool :=
  blankRanges.any fun (lo, hi) => lo ≤ c.toNat && c.toNat ≤ hi

example : (blankRanges.map fun (lo, hi) => hi + 1 - lo).sum = 25 := by decide

/-- The text without the blank characters at its two ends. -/
def trim (text : List Char) : List Char :=
  ((text.dropWhile isBlank).reverse.dropWhile isBlank).reverse

theorem trim_sublist (text : List Char) : (trim text).Sublist text := by
  have hfront : (text.dropWhile isBlank).Sublist text := List.dropWhile_sublist isBlank
  have hback := (List.dropWhile_sublist (l := (text.dropWhile isBlank).reverse) isBlank).reverse
  rw [List.reverse_reverse] at hback
  exact hback.trans hfront

end Stencil.Text
