/-
Numbers in decimal notation.
-/
import GradingRule.Json.Basic

namespace GradingRule.Json

/-- One digit at least. -/
def readDigits? (text : Text) : Option (Text × Text) :=
  match text.takeWhile Char.isDigit with
  | [] => none
  | digits => some (digits, text.dropWhile Char.isDigit)

/-- A zero stands alone before the point. -/
def readWhole? : Text → Option (Text × Text)
  | '0' :: rest => some (['0'], rest)
  | text => readDigits? text

def readFraction? : Text → Option (Option Text × Text)
  | '.' :: rest => (readDigits? rest).map fun (digits, after) => (some digits, after)
  | text => some (none, text)

def readSigned? : Text → Option (Int × Text)
  | '+' :: rest =>
      (readDigits? rest).map fun (digits, after) => (Nat.ofDigitChars 10 digits 0, after)
  | '-' :: rest =>
      (readDigits? rest).map fun (digits, after) => (-Nat.ofDigitChars 10 digits 0, after)
  | text =>
      (readDigits? text).map fun (digits, after) => (Nat.ofDigitChars 10 digits 0, after)

def readExponent? : Text → Option (Option Int × Text)
  | [] => some (none, [])
  | c :: rest =>
      if c = 'e' ∨ c = 'E' then
        (readSigned? rest).map fun (exponent, after) => (some exponent, after)
      else some (none, c :: rest)

def readUnsigned? (negative : Bool) (text : Text) : Option (Numeral × Text) := do
  let (whole, text) ← readWhole? text
  let (fraction, text) ← readFraction? text
  let (exponent, text) ← readExponent? text
  return (⟨negative, whole, fraction, exponent⟩, text)

/-- The number that a text starts with, and the rest of the text. -/
def readNumeral? : Text → Option (Numeral × Text)
  | '-' :: rest => readUnsigned? true rest
  | text => readUnsigned? false text

def spellExponent (exponent : Int) : Text :=
  if exponent < 0 then 'e' :: '-' :: Nat.toDigits 10 exponent.natAbs
  else 'e' :: Nat.toDigits 10 exponent.natAbs

def Numeral.spell (numeral : Numeral) : Text :=
  (if numeral.negative then ['-'] else []) ++ numeral.whole ++
    (match numeral.fraction with
      | none => []
      | some digits => '.' :: digits) ++
    (match numeral.exponent with
      | none => []
      | some exponent => spellExponent exponent)

theorem length_readDigits? {text digits after : Text}
    (h : readDigits? text = some (digits, after)) : after.length < text.length := by
  unfold readDigits? at h
  split at h
  · simp at h
  · next hne =>
      simp only [Option.some.injEq, Prod.mk.injEq] at h
      obtain ⟨-, rfl⟩ := h
      cases text with
      | nil => simp at hne
      | cons c rest =>
          by_cases hc : c.isDigit
          · rw [List.dropWhile_cons_of_pos hc]
            have := (List.dropWhile_sublist Char.isDigit (l := rest)).length_le
            simp
            omega
          · simp [hc] at hne

theorem length_readWhole? {text digits after : Text}
    (h : readWhole? text = some (digits, after)) : after.length < text.length := by
  unfold readWhole? at h
  split at h
  · simp only [Option.some.injEq, Prod.mk.injEq] at h
    obtain ⟨-, rfl⟩ := h
    simp
  · exact length_readDigits? h

theorem length_readFraction? {text after : Text} {fraction : Option Text}
    (h : readFraction? text = some (fraction, after)) : after.length ≤ text.length := by
  unfold readFraction? at h
  split at h
  · simp only [Option.map_eq_some_iff, Prod.mk.injEq, Prod.exists] at h
    obtain ⟨digits, left, hdigits, -, rfl⟩ := h
    have := length_readDigits? hdigits
    simp
    omega
  · simp only [Option.some.injEq, Prod.mk.injEq] at h
    obtain ⟨-, rfl⟩ := h
    exact Nat.le_refl _

theorem length_readSigned? {text after : Text} {exponent : Int}
    (h : readSigned? text = some (exponent, after)) : after.length < text.length := by
  unfold readSigned? at h
  split at h
  all_goals
    simp only [Option.map_eq_some_iff, Prod.mk.injEq, Prod.exists] at h
    obtain ⟨digits, left, hdigits, -, rfl⟩ := h
    have := length_readDigits? hdigits
    simp
    try omega

theorem length_readExponent? {text after : Text} {exponent : Option Int}
    (h : readExponent? text = some (exponent, after)) : after.length ≤ text.length := by
  unfold readExponent? at h
  split at h
  · simp only [Option.some.injEq, Prod.mk.injEq] at h
    obtain ⟨-, rfl⟩ := h
    exact Nat.le_refl _
  · split at h
    · simp only [Option.map_eq_some_iff, Prod.mk.injEq, Prod.exists] at h
      obtain ⟨value, left, hvalue, -, rfl⟩ := h
      have := length_readSigned? hvalue
      simp
      omega
    · simp only [Option.some.injEq, Prod.mk.injEq] at h
      obtain ⟨-, rfl⟩ := h
      exact Nat.le_refl _

theorem length_readUnsigned? {negative : Bool} {text after : Text} {numeral : Numeral}
    (h : readUnsigned? negative text = some (numeral, after)) :
    after.length < text.length := by
  unfold readUnsigned? at h
  simp only [Option.bind_eq_bind, Option.bind_eq_some_iff, Option.pure_def,
    Option.some.injEq, Prod.mk.injEq, Prod.exists] at h
  obtain ⟨whole, afterWhole, hwhole, fraction, afterFraction, hfraction, exponent,
    afterExponent, hexponent, -, rfl⟩ := h
  have := length_readWhole? hwhole
  have := length_readFraction? hfraction
  have := length_readExponent? hexponent
  omega

theorem length_readNumeral? {text after : Text} {numeral : Numeral}
    (h : readNumeral? text = some (numeral, after)) : after.length < text.length := by
  unfold readNumeral? at h
  split at h
  · have := length_readUnsigned? h
    simp
    omega
  · exact length_readUnsigned? h

end GradingRule.Json
