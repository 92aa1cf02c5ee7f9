/-
JSON documents as trees.  A tree keeps how strings and numbers are written, since
not every written string is a text and not every reader takes every number.
-/
import GradingRule.Text.Basic

namespace GradingRule

/-- A part of a written string: a character, or a UTF-16 code unit that is given
by its number. -/
inductive Json.StringPart where
  | char (c : Char)
  | codeUnit (value : Nat)
deriving DecidableEq, Repr

/-- A string as it is written. -/
abbrev Json.Spelling := List Json.StringPart

/-- A number as it is written; `whole` and `fraction` hold decimal digits. -/
structure Json.Numeral where
  negative : Bool
  whole : Text
  fraction : Option Text
  exponent : Option Int
deriving DecidableEq, Repr

/-- An object keeps its members in order, repeated keys included. -/
inductive Json where
  | null
  | bool (value : Bool)
  | number (numeral : Json.Numeral)
  | string (spelling : Json.Spelling)
  | array (items : List Json)
  | object (members : List (Json.Spelling × Json))
deriving Repr

namespace Json

namespace Numeral

def ofNat (value : Nat) : Numeral :=
  ⟨false, Nat.toDigits 10 value, none, none⟩

/-- The value of a numeral that is only a run of digits.  The numerals `-0` and
`1.0` name no natural number. -/
def toNat? (numeral : Numeral) : Option Nat :=
  if numeral.negative = false ∧ numeral.fraction = none ∧ numeral.exponent = none then
    some (Nat.ofDigitChars 10 numeral.whole 0)
  else none

theorem toNat?_ofNat (value : Nat) : (ofNat value).toNat? = some value := by
  simp [toNat?, ofNat, Nat.ofDigitChars_toDigits]

end Numeral

namespace Spelling

def ofText (text : Text) : Spelling :=
  text.map .char

def isSurrogate (unit : Nat) : Bool :=
  0xD800 ≤ unit && unit < 0xE000

/-- Two code units that together stand for one character. -/
def isPair (high low : Nat) : Bool :=
  0xD800 ≤ high && high < 0xDC00 && 0xDC00 ≤ low && low < 0xE000

def pairChar (high low : Nat) : Char :=
  Char.ofNat (0x10000 + (high - 0xD800) * 0x400 + (low - 0xDC00))

/-- The text that a string stands for; `none` if a surrogate has no partner. -/
def text? : Spelling → Option Text
  | [] => some []
  | .char c :: rest => (text? rest).map (c :: ·)
  | .codeUnit high :: .codeUnit low :: rest =>
      if isPair high low then (text? rest).map (pairChar high low :: ·)
      else if isSurrogate high then none
      else (text? (.codeUnit low :: rest)).map (Char.ofNat high :: ·)
  | .codeUnit unit :: rest =>
      if isSurrogate unit then none else (text? rest).map (Char.ofNat unit :: ·)

theorem text?_ofText (text : Text) : text? (ofText text) = some text := by
  induction text with
  | nil => rfl
  | cons c rest ih =>
      change (text? (ofText rest)).map (c :: ·) = _
      rw [ih]
      rfl

end Spelling

end Json

end GradingRule
