/-
The lexemes of JSON.
-/
import GradingRule.Json.Number
import GradingRule.Json.Quoted

namespace GradingRule.Json

inductive Lexeme where
  | openArray
  | closeArray
  | openObject
  | closeObject
  | comma
  | colon
  | null
  | bool (value : Bool)
  | number (numeral : Numeral)
  | string (spelling : Spelling)
deriving DecidableEq, Repr

namespace Lexeme

/-- Only these four characters may stand between lexemes. -/
def isSpace (c : Char) : Bool :=
  c = ' ' || c = '\t' || c = '\n' || c = '\r'

/-- The lexeme that starts with `c`, and the text after it. -/
def scan? (c : Char) (rest : Text) : Option (Lexeme × Text) :=
  match c, rest with
  | '[', rest => some (.openArray, rest)
  | ']', rest => some (.closeArray, rest)
  | '{', rest => some (.openObject, rest)
  | '}', rest => some (.closeObject, rest)
  | ',', rest => some (.comma, rest)
  | ':', rest => some (.colon, rest)
  | 'n', 'u' :: 'l' :: 'l' :: rest => some (.null, rest)
  | 't', 'r' :: 'u' :: 'e' :: rest => some (.bool true, rest)
  | 'f', 'a' :: 'l' :: 's' :: 'e' :: rest => some (.bool false, rest)
  | '"', rest => (readString? rest).map fun (spelling, after) => (.string spelling, after)
  | c, rest =>
      (readNumeral? (c :: rest)).map fun (numeral, after) => (.number numeral, after)

theorem length_scan? {c : Char} {rest after : Text} {lexeme : Lexeme}
    (h : scan? c rest = some (lexeme, after)) : after.length ≤ rest.length := by
  unfold scan? at h
  split at h
  case h_10 =>
    simp only [Option.map_eq_some_iff, Prod.mk.injEq, Prod.exists] at h
    obtain ⟨spelling, left, hread, -, rfl⟩ := h
    exact Nat.le_of_lt (length_readString? hread)
  case h_11 =>
    simp only [Option.map_eq_some_iff, Prod.mk.injEq, Prod.exists] at h
    obtain ⟨numeral, left, hread, -, rfl⟩ := h
    exact Nat.le_of_lt_succ (length_readNumeral? hread)
  all_goals
    simp only [Option.some.injEq, Prod.mk.injEq] at h
    obtain ⟨-, rfl⟩ := h
    simp
    try omega

/-- All lexemes of a text, spaces skipped. -/
def ofText? : Text → Option (List Lexeme)
  | [] => some []
  | c :: rest =>
      if isSpace c then ofText? rest
      else
        match h : scan? c rest with
        | none => none
        | some (lexeme, after) =>
            have := length_scan? h
            (ofText? after).map (lexeme :: ·)
termination_by text => text.length
decreasing_by all_goals simp; try omega

end Lexeme

end GradingRule.Json
