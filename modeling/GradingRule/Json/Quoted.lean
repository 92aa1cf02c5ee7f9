/-
Strings between double quotes, with escapes after a backslash.
-/
import GradingRule.Json.Basic

namespace GradingRule.Json

def hexDigit? (c : Char) : Option Nat :=
  if '0' ≤ c ∧ c ≤ '9' then some (c.toNat - '0'.toNat)
  else if 'a' ≤ c ∧ c ≤ 'f' then some (c.toNat - 'a'.toNat + 10)
  else if 'A' ≤ c ∧ c ≤ 'F' then some (c.toNat - 'A'.toNat + 10)
  else none

/-- The code unit that four hexadecimal digits name. -/
def codeUnit? (a b c d : Char) : Option Nat := do
  let a ← hexDigit? a
  let b ← hexDigit? b
  let c ← hexDigit? c
  let d ← hexDigit? d
  return ((a * 16 + b) * 16 + c) * 16 + d

/-- The character that a letter stands for after a backslash. -/
def unescape? : Char → Option Char
  | '"' => some '"'
  | '\\' => some '\\'
  | '/' => some '/'
  | 'b' => some '\x08'
  | 't' => some '\t'
  | 'n' => some '\n'
  | 'f' => some '\x0c'
  | 'r' => some '\r'
  | _ => none

/-- Characters below the space cannot stand in a string unescaped. -/
def isRaw (c : Char) : Bool :=
  0x20 ≤ c.toNat

/-- The string after an opening quote, and what follows its closing quote. -/
def readString? : Text → Option (Spelling × Text)
  | [] => none
  | '"' :: rest => some ([], rest)
  | '\\' :: 'u' :: a :: b :: c :: d :: rest =>
      match codeUnit? a b c d with
      | none => none
      | some unit =>
          (readString? rest).map fun (spelling, after) => (.codeUnit unit :: spelling, after)
  | '\\' :: letter :: rest =>
      match unescape? letter with
      | none => none
      | some c => (readString? rest).map fun (spelling, after) => (.char c :: spelling, after)
  | c :: rest =>
      if isRaw c then
        (readString? rest).map fun (spelling, after) => (.char c :: spelling, after)
      else none

/-- The digits of a code unit, in lower case. -/
def hexDigits (unit : Nat) : Text :=
  [unit / 0x1000 % 16, unit / 0x100 % 16, unit / 0x10 % 16, unit % 16].map Nat.digitChar

/-- A string part as it is written: only the quote, the backslash and the
characters that cannot stand raw are escaped, by a letter where there is one. -/
def StringPart.spell : StringPart → Text
  | .codeUnit unit => '\\' :: 'u' :: hexDigits unit
  | .char '"' => ['\\', '"']
  | .char '\\' => ['\\', '\\']
  | .char '\x08' => ['\\', 'b']
  | .char '\t' => ['\\', 't']
  | .char '\n' => ['\\', 'n']
  | .char '\x0c' => ['\\', 'f']
  | .char '\r' => ['\\', 'r']
  | .char c => if isRaw c then [c] else '\\' :: 'u' :: hexDigits c.toNat

def quote (spelling : Spelling) : Text :=
  '"' :: (spelling.flatMap StringPart.spell ++ ['"'])

theorem length_readString? {text after : Text} {spelling : Spelling}
    (h : readString? text = some (spelling, after)) : after.length < text.length := by
  fun_induction readString? text generalizing spelling after with
  | case1 => simp at h
  | case2 rest =>
      simp only [Option.some.injEq, Prod.mk.injEq] at h
      obtain ⟨-, rfl⟩ := h
      simp
  | case3 => simp at h
  | case4 a b c d rest unit _ ih =>
      simp only [Option.map_eq_some_iff, Prod.mk.injEq, Prod.exists] at h
      obtain ⟨inner, left, hinner, -, rfl⟩ := h
      have := ih hinner
      simp
      omega
  | case5 => simp at h
  | case6 letter rest _ c _ ih =>
      simp only [Option.map_eq_some_iff, Prod.mk.injEq, Prod.exists] at h
      obtain ⟨inner, left, hinner, -, rfl⟩ := h
      have := ih hinner
      simp
      omega
  | case7 c rest _ _ _ _ ih =>
      simp only [Option.map_eq_some_iff, Prod.mk.injEq, Prod.exists] at h
      obtain ⟨inner, left, hinner, -, rfl⟩ := h
      have := ih hinner
      simp
      omega
  | case8 => simp at h

end GradingRule.Json
