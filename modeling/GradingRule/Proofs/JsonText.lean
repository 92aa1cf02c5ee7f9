/-
Strings and numbers of JSON read back as they were written, whatever stands after
them.  A string may come back with a code unit in place of a character that has
no escape letter; it stands for the same text.
-/
import GradingRule.Json.Field
import GradingRule.Json.Number
import GradingRule.Json.Quoted

namespace GradingRule.Json

/-- The letter that a character is escaped by, if there is one. -/
def escapeLetter? : Char → Option Char
  | '"' => some '"'
  | '\\' => some '\\'
  | '\x08' => some 'b'
  | '\t' => some 't'
  | '\n' => some 'n'
  | '\x0c' => some 'f'
  | '\r' => some 'r'
  | _ => none

/-- What a written part is read as. -/
def StringPart.reread : StringPart → StringPart
  | .codeUnit unit => .codeUnit (unit % 0x10000)
  | .char c =>
      if (escapeLetter? c).isSome || isRaw c then .char c else .codeUnit c.toNat

def Spelling.reread (spelling : Spelling) : Spelling :=
  spelling.map StringPart.reread

theorem unescape?_of_escapeLetter? {c letter : Char} (h : escapeLetter? c = some letter) :
    unescape? letter = some c := by
  rw [escapeLetter?.eq_def] at h
  split at h
  case h_8 => exact absurd h (by simp)
  all_goals
    obtain rfl := Option.some.inj h
    rfl

theorem StringPart.spell_char (c : Char) :
    (char c).spell =
      match escapeLetter? c with
      | some letter => ['\\', letter]
      | none => if isRaw c then [c] else '\\' :: 'u' :: hexDigits c.toNat := by
  rw [spell.eq_def]
  split
  · next heq => exact StringPart.noConfusion heq
  all_goals
    next heq =>
      obtain rfl := StringPart.char.inj heq
      simp_all [escapeLetter?]

theorem hexDigit?_digitChar {digit : Nat} (h : digit < 16) :
    hexDigit? digit.digitChar = some digit := by
  have hall : ∀ digit < 16, hexDigit? digit.digitChar = some digit := by decide
  exact hall digit h

theorem readString?_codeUnit (unit : Nat) (after : Text) :
    readString? ('\\' :: 'u' :: (hexDigits unit ++ after)) =
      (readString? after).map fun (spelling, left) =>
        (.codeUnit (unit % 0x10000) :: spelling, left) := by
  have hdigit : ∀ part : Nat, hexDigit? (part % 16).digitChar = some (part % 16) :=
    fun part => hexDigit?_digitChar (Nat.mod_lt part (by decide))
  have hunit : ((unit / 0x1000 % 16 * 16 + unit / 0x100 % 16) * 16 +
      unit / 0x10 % 16) * 16 + unit % 16 = unit % 0x10000 := by
    omega
  simp only [hexDigits, List.map_cons, List.map_nil, List.cons_append, List.nil_append,
    readString?, codeUnit?, hdigit, Option.bind_eq_bind, Option.bind_some, Option.pure_def,
    hunit]

theorem readString?_letter {letter c : Char} (h : unescape? letter = some c) (after : Text) :
    readString? ('\\' :: letter :: after) =
      (readString? after).map fun (spelling, left) => (.char c :: spelling, left) := by
  have hletter : letter ≠ 'u' := by
    rintro rfl
    simp [unescape?] at h
  rw [readString?.eq_def]
  simp [hletter, h]

theorem readString?_raw {c : Char} (hraw : isRaw c = true) (hquote : c ≠ '"')
    (hbackslash : c ≠ '\\') (after : Text) :
    readString? (c :: after) =
      (readString? after).map fun (spelling, left) => (.char c :: spelling, left) := by
  rw [readString?.eq_def]
  simp [hbackslash, hraw]

theorem readString?_spell_append (part : StringPart) (after : Text) :
    readString? (part.spell ++ after) =
      (readString? after).map fun (spelling, left) => (part.reread :: spelling, left) := by
  cases part with
  | codeUnit unit => exact readString?_codeUnit unit after
  | char c =>
      rw [StringPart.spell_char]
      cases hletter : escapeLetter? c with
      | some letter =>
          have hread : (StringPart.char c).reread = .char c := by
            simp [StringPart.reread, hletter]
          rw [hread]
          exact readString?_letter (unescape?_of_escapeLetter? hletter) after
      | none =>
          by_cases hraw : isRaw c = true
          · have hread : (StringPart.char c).reread = .char c := by
              simp [StringPart.reread, hraw]
            rw [hread]
            simp only [hraw, ↓reduceIte, List.singleton_append]
            refine readString?_raw hraw ?_ ?_ after
            · rintro rfl
              simp [escapeLetter?] at hletter
            · rintro rfl
              simp [escapeLetter?] at hletter
          · have hlt : c.toNat < 0x20 := by simpa [isRaw] using hraw
            have hread : (StringPart.char c).reread = .codeUnit (c.toNat % 0x10000) := by
              rw [Nat.mod_eq_of_lt (by omega)]
              simp [StringPart.reread, hletter, hraw]
            rw [hread]
            simp only [hraw]
            exact readString?_codeUnit c.toNat after

/-- A quoted string is read up to its closing quote. -/
theorem readString?_flatMap_spell (spelling : Spelling) (after : Text) :
    readString? (spelling.flatMap StringPart.spell ++ '"' :: after) =
      some (spelling.reread, after) := by
  induction spelling with
  | nil => rfl
  | cons part rest ih =>
      rw [List.flatMap_cons, List.append_assoc, readString?_spell_append, ih]
      rfl

theorem Spelling.text?_codeUnit {unit : Nat} (h : isSurrogate unit = false)
    (rest : Spelling) :
    text? (.codeUnit unit :: rest) = (text? rest).map (Char.ofNat unit :: ·) := by
  cases rest with
  | nil => simp [text?, h]
  | cons part rest =>
      cases part with
      | char c => simp [text?, h]
      | codeUnit low =>
          have hpair : isPair unit low = false := by
            simp only [isSurrogate, isPair] at h ⊢
            grind
          simp [text?, h, hpair]

/-- A text that is written and read stays the text. -/
theorem Spelling.text?_reread_ofText (text : Text) :
    (ofText text).reread.text? = some text := by
  induction text with
  | nil => rfl
  | cons c rest ih =>
      change text? ((StringPart.char c).reread :: (ofText rest).reread) = some (c :: rest)
      by_cases hchar : ((escapeLetter? c).isSome || isRaw c) = true
      · rw [StringPart.reread, if_pos hchar, text?, ih]
        rfl
      · have hlt : c.toNat < 0x20 := by
          simp only [Bool.or_eq_true, not_or] at hchar
          simpa [isRaw] using hchar.2
        have hsurrogate : isSurrogate c.toNat = false := by
          simp [isSurrogate]
          omega
        rw [StringPart.reread, if_neg hchar, text?_codeUnit hsurrogate, ih, Char.ofNat_toNat]
        rfl

/-- Nothing at the start of the text continues a number before it. -/
def stopsNumber : Text → Bool
  | [] => true
  | c :: _ => !(c.isDigit || c = '.' || c = 'e' || c = 'E')

theorem readFraction?_of_stopsNumber {after : Text} (h : stopsNumber after = true) :
    readFraction? after = some (none, after) := by
  rw [readFraction?.eq_def]
  split
  · simp [stopsNumber] at h
  · rfl

theorem readExponent?_of_stopsNumber {after : Text} (h : stopsNumber after = true) :
    readExponent? after = some (none, after) := by
  cases after with
  | nil => rfl
  | cons c rest =>
      simp only [stopsNumber, Bool.not_eq_true', Bool.or_eq_false_iff,
        decide_eq_false_iff_not] at h
      rw [readExponent?, if_neg (by simp [h])]

theorem readDigits?_append {digits after : Text} (hne : digits ≠ [])
    (hdigits : ∀ c ∈ digits, c.isDigit = true) (hafter : stopsNumber after = true) :
    readDigits? (digits ++ after) = some (digits, after) := by
  have hstop : after.takeWhile Char.isDigit = [] ∧ after.dropWhile Char.isDigit = after := by
    cases after with
    | nil => exact ⟨rfl, rfl⟩
    | cons c rest =>
        simp only [stopsNumber, Bool.not_eq_true', Bool.or_eq_false_iff] at hafter
        have hc : ¬c.isDigit = true := by simp [hafter]
        exact ⟨List.takeWhile_cons_of_neg hc, List.dropWhile_cons_of_neg hc⟩
  have htake : (digits ++ after).takeWhile Char.isDigit = digits := by
    rw [List.takeWhile_append_of_pos hdigits, hstop.1, List.append_nil]
  have hdrop : (digits ++ after).dropWhile Char.isDigit = after := by
    rw [List.dropWhile_append_of_pos hdigits, hstop.2]
  obtain ⟨c, rest, rfl⟩ := List.exists_cons_of_ne_nil hne
  rw [readDigits?, htake, hdrop]

/-- Only the digits of zero start with a zero. -/
theorem exists_toDigits_eq_cons {value : Nat} (h : value ≠ 0) :
    ∃ c rest, Nat.toDigits 10 value = c :: rest ∧ c ≠ '0' := by
  induction value using Nat.base_induction 10 (by decide) with
  | single value hlt =>
      refine ⟨value.digitChar, [], Nat.toDigits_of_lt_base hlt, ?_⟩
      have hall : ∀ value < 10, value ≠ 0 → value.digitChar ≠ '0' := by decide
      exact hall value hlt h
  | digit value last hlast hpos ih =>
      obtain ⟨c, rest, hdigits, hc⟩ := ih (by omega)
      refine ⟨c, rest ++ Nat.toDigits 10 last, ?_, hc⟩
      rw [← Nat.toDigits_append_toDigits (by decide) hpos hlast, hdigits, List.cons_append]

theorem readWhole?_toDigits (value : Nat) {after : Text} (hafter : stopsNumber after = true) :
    readWhole? (Nat.toDigits 10 value ++ after) = some (Nat.toDigits 10 value, after) := by
  have hdigits := readDigits?_append (Nat.toDigits_ne_nil (n := value) (b := 10))
    (fun c hc => Nat.isDigit_of_mem_toDigits (by decide) (by decide) hc) hafter
  by_cases hzero : value = 0
  · subst hzero
    rfl
  · obtain ⟨c, rest, heq, hc⟩ := exists_toDigits_eq_cons hzero
    rw [heq] at hdigits ⊢
    rw [List.cons_append] at hdigits ⊢
    rw [readWhole?.eq_def]
    split
    · next hcons => exact absurd (List.cons.inj hcons).1 hc
    · exact hdigits

theorem spell_ofNat (value : Nat) : (Numeral.ofNat value).spell = Nat.toDigits 10 value := by
  simp [Numeral.spell, Numeral.ofNat]

/-- A natural number is read up to what cannot continue it. -/
theorem readNumeral?_spell_ofNat (value : Nat) {after : Text}
    (hafter : stopsNumber after = true) :
    readNumeral? ((Numeral.ofNat value).spell ++ after) = some (.ofNat value, after) := by
  rw [spell_ofNat, readNumeral?.eq_def]
  split
  · next rest heq =>
      have hminus : '-' ∈ Nat.toDigits 10 value := by
        obtain ⟨c, digits, hdigits⟩ :=
          List.exists_cons_of_ne_nil (Nat.toDigits_ne_nil (n := value) (b := 10))
        rw [hdigits, List.cons_append] at heq
        rw [hdigits, (List.cons.inj heq).1]
        exact List.mem_cons_self
      exact absurd (Nat.isDigit_of_mem_toDigits (by decide) (by decide) hminus) (by decide)
  · simp only [readUnsigned?, readWhole?_toDigits value hafter,
      readFraction?_of_stopsNumber hafter, readExponent?_of_stopsNumber hafter,
      Option.bind_eq_bind, Option.bind_some, Option.pure_def]
    rfl

end GradingRule.Json
