/-
Escaping of underscores.  A bare underscore joins two words in an expression,
so an underscore that belongs to a word stands right after a backslash.
-/
import GradingRule.Text.Basic

namespace GradingRule.Text

/-- Puts a backslash before every underscore that does not stand right after
one; the flag says whether a backslash comes just before the text. -/
def escapeAfter (backslash : Bool) : Text → Text
  | [] => []
  | c :: rest =>
      if c = '_' ∧ backslash = false then '\\' :: c :: escapeAfter false rest
      else c :: escapeAfter (c = '\\') rest

def escape (text : Text) : Text :=
  escapeAfter false text

/-- Every underscore stands right after a backslash, counting one that comes
just before the text if the flag says so. -/
def EscapedAfter (backslash : Bool) : Text → Prop
  | [] => True
  | c :: rest => (c = '_' → backslash = true) ∧ EscapedAfter (c = '\\') rest

/-- Every underscore stands right after a backslash. -/
def Escaped (text : Text) : Prop :=
  EscapedAfter false text

instance decidableEscapedAfter (backslash : Bool) (text : Text) :
    Decidable (EscapedAfter backslash text) :=
  match text with
  | [] => inferInstanceAs (Decidable True)
  | c :: rest =>
      have := decidableEscapedAfter (c = '\\') rest
      inferInstanceAs (Decidable (_ ∧ _))

instance (text : Text) : Decidable (Escaped text) :=
  decidableEscapedAfter false text

theorem escapedAfter_escapeAfter (backslash : Bool) (text : Text) :
    EscapedAfter backslash (escapeAfter backslash text) := by
  induction text generalizing backslash with
  | nil => trivial
  | cons c rest ih =>
      unfold escapeAfter
      split
      · next h =>
          obtain ⟨rfl, rfl⟩ := h
          exact ⟨by decide, by simp, by simpa using ih false⟩
      · next h => exact ⟨by simpa using h, ih _⟩

theorem escaped_escape (text : Text) : Escaped (escape text) :=
  escapedAfter_escapeAfter false text

theorem escapeAfter_eq_self {backslash : Bool} {text : Text}
    (h : EscapedAfter backslash text) : escapeAfter backslash text = text := by
  induction text generalizing backslash with
  | nil => rfl
  | cons c rest ih =>
      have hc : ¬(c = '_' ∧ backslash = false) := by
        rintro ⟨hc, hb⟩
        simp [h.1 hc] at hb
      rw [escapeAfter, if_neg hc, ih h.2]

/-- Escaping leaves an escaped text as it is. -/
theorem escape_eq_self {text : Text} (h : Escaped text) : escape text = text :=
  escapeAfter_eq_self h

theorem escapedAfter_append {backslash : Bool} {left right : Text}
    (hleft : EscapedAfter backslash left) (hright : ∀ b, EscapedAfter b right) :
    EscapedAfter backslash (left ++ right) := by
  induction left generalizing backslash with
  | nil => exact hright backslash
  | cons c rest ih => exact ⟨hleft.1, ih hleft.2⟩

theorem mem_of_mem_escapeAfter {backslash : Bool} {text : Text} {c : Char}
    (h : c ∈ escapeAfter backslash text) : c = '\\' ∨ c ∈ text := by
  induction text generalizing backslash with
  | nil => simp [escapeAfter] at h
  | cons d rest ih =>
      unfold escapeAfter at h
      split at h
      · simp only [List.mem_cons] at h
        rcases h with h | h | h
        · exact .inl h
        · exact .inr (by simp [h])
        · exact (ih h).imp id (List.mem_cons_of_mem d)
      · simp only [List.mem_cons] at h
        rcases h with h | h
        · exact .inr (by simp [h])
        · exact (ih h).imp id (List.mem_cons_of_mem d)

theorem escape_ne_nil {text : Text} (h : text ≠ []) : escape text ≠ [] := by
  cases text with
  | nil => exact absurd rfl h
  | cons c rest => unfold escape escapeAfter; split <;> simp

end GradingRule.Text
