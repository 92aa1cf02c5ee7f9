/-
What a reader that keeps whole values can take: numbers in the range of a double,
strings that are texts, and containers that do not nest too deeply.
-/
import GradingRule.Json.Basic

namespace GradingRule.Json

/-- The nearest number with at most 53 significant bits; a tie goes to the even
one. -/
def nearest53 (value : Nat) : Nat :=
  if value < Nat.pow 2 53 then value
  else
    let unit := Nat.pow 2 (value.log2 - 52)
    let quotient := value / unit
    let remainder := value % unit
    if unit < 2 * remainder ∨ (unit = 2 * remainder ∧ quotient % 2 = 1) then
      (quotient + 1) * unit
    else quotient * unit

/-- The number that digits add to `value` for as long as it fits in 64 bits, and
the digits left over. -/
def leadingValue (value : Nat) : Text → Nat × Text
  | [] => (value, [])
  | digit :: rest =>
      let next := value * 10 + (digit.toNat - '0'.toNat)
      if next < UInt64.size then leadingValue next rest else (value, digit :: rest)

/-- The number as a significand of 64 bits and a power of ten.  A digit of the
whole part that does not fit still counts as a place; one of the fraction does
not. -/
def Numeral.scientific (numeral : Numeral) : Nat × Int :=
  let fraction := numeral.fraction.getD []
  let (whole, wholeLeft) := leadingValue 0 numeral.whole
  let (significand, fractionLeft) := leadingValue whole fraction
  (significand,
    wholeLeft.length - (fraction.length - fractionLeft.length) + numeral.exponent.getD 0)

/-- The doubles end at `2 ^ 1024`: a product of two doubles from the middle
between that and the last double on is infinite.  No power of ten after the
308th is a double. -/
def Numeral.fitsDouble (numeral : Numeral) : Bool :=
  let (significand, exponent) := numeral.scientific
  significand = 0 || exponent < 0 ||
    (exponent ≤ 308 &&
      nearest53 significand * nearest53 (Nat.pow 10 exponent.toNat) <
        Nat.pow 2 1024 - Nat.pow 2 970)

/-- Whether a value can be kept by a reader that goes at most `depth` containers
deep. -/
def isKeepable : Nat → Json → Bool
  | _, .null => true
  | _, .bool _ => true
  | _, .number numeral => numeral.fitsDouble
  | _, .string spelling => spelling.text?.isSome
  | 0, .array _ => false
  | 0, .object _ => false
  | depth + 1, .array items => items.all (isKeepable depth)
  | depth + 1, .object members =>
      members.all fun (key, value) => key.text?.isSome && isKeepable depth value

end GradingRule.Json
