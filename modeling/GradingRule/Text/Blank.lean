/-
The two character classes that tokens and rules are judged by.  Blanks are the
25 code points with the Unicode property White_Space; controls are the general
category Cc.  The classes overlap in U+0009 to U+000D and U+0085.
-/
import GradingRule.Text.Basic

namespace GradingRule

/-- The first and last code point of each run of blanks. -/
def blankRanges : List (Nat × Nat) :=
  [(0x09, 0x0D), (0x20, 0x20), (0x85, 0x85), (0xA0, 0xA0), (0x1680, 0x1680),
    (0x2000, 0x200A), (0x2028, 0x2029), (0x202F, 0x202F), (0x205F, 0x205F),
    (0x3000, 0x3000)]

/-- The first and last code point of each run of controls. -/
def controlRanges : List (Nat × Nat) :=
  [(0x00, 0x1F), (0x7F, 0x9F)]

def inRanges (ranges : List (Nat × Nat)) (c : Char) : Bool :=
  ranges.any fun (first, last) => first ≤ c.toNat && c.toNat ≤ last

def isBlank (c : Char) : Bool :=
  inRanges blankRanges c

def isControl (c : Char) : Bool :=
  inRanges controlRanges c

example : (blankRanges.map fun (first, last) => last + 1 - first).sum = 25 := by
  decide

namespace Text

def trim (text : Text) : Text :=
  ((text.dropWhile isBlank).reverse.dropWhile isBlank).reverse

end Text

end GradingRule
