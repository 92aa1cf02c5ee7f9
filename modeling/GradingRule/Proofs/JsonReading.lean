/-
Documents that were laid out read back as the value they were made from.  The
reader is followed through the text one lexeme at a time, and each value takes it
from where a value may start to just past that value.
-/
import GradingRule.Json.Layout
import GradingRule.Json.Tree
import GradingRule.Proofs.JsonText

namespace GradingRule.Json

/-- A value whose numbers are all natural numbers. -/
inductive Plain : Json → Prop
  | null : Plain .null
  | bool (value : Bool) : Plain (.bool value)
  | number (value : Nat) : Plain (.number (.ofNat value))
  | string (spelling : Spelling) : Plain (.string spelling)
  | array {items : List Json} : (∀ item ∈ items, Plain item) → Plain (.array items)
  | object {members : List (Spelling × Json)} :
      (∀ member ∈ members, Plain member.2) → Plain (.object members)

mutual

/-- What a written value is read as. -/
def reread : Json → Json
  | .null => .null
  | .bool value => .bool value
  | .number numeral => .number numeral
  | .string spelling => .string spelling.reread
  | .array items => .array (rereadItems items)
  | .object members => .object (rereadMembers members)

def rereadItems : List Json → List Json
  | [] => []
  | item :: items => reread item :: rereadItems items

def rereadMembers : List (Spelling × Json) → List (Spelling × Json)
  | [] => []
  | (key, value) :: members => (key.reread, reread value) :: rereadMembers members

end

namespace Reading

/-- Where the lexemes of a text lead to. -/
def run? (reading : Reading) (text : Text) : Option Reading :=
  (Lexeme.ofText? text).bind fun lexemes => lexemes.foldlM step? reading

theorem run?_nil (reading : Reading) : reading.run? [] = some reading := by
  simp [run?, Lexeme.ofText?]

theorem run?_space {c : Char} (h : Lexeme.isSpace c = true) (reading : Reading)
    (after : Text) : reading.run? (c :: after) = reading.run? after := by
  rw [run?, run?, Lexeme.ofText?, if_pos h]

/-- The lexeme in front is one step. -/
theorem run?_of_scan? {c : Char} {rest after : Text} {lexeme : Lexeme}
    (hspace : Lexeme.isSpace c = false) (hscan : Lexeme.scan? c rest = some (lexeme, after))
    (reading : Reading) :
    reading.run? (c :: rest) = (reading.step? lexeme).bind fun next => next.run? after := by
  have htext : Lexeme.ofText? (c :: rest) = (Lexeme.ofText? after).map (lexeme :: ·) := by
    rw [Lexeme.ofText?, if_neg (by simp [hspace])]
    split
    · next hnone => exact absurd (hnone.symm.trans hscan) (by simp)
    · next found left hfound =>
        obtain ⟨rfl, rfl⟩ : found = lexeme ∧ left = after := by
          simpa using hfound.symm.trans hscan
        rfl
  rw [run?, htext]
  cases hafter : Lexeme.ofText? after with
  | none => cases reading.step? lexeme <;> simp [run?, hafter]
  | some lexemes =>
      simp only [run?, hafter, Option.map_some, Option.bind_some, List.foldlM_cons]
      rfl

theorem run?_newline (depth : Nat) (reading : Reading) (after : Text) :
    reading.run? (newline depth ++ after) = reading.run? after := by
  have hblanks : ∀ count,
      reading.run? (List.replicate count ' ' ++ after) = reading.run? after := by
    intro count
    induction count with
    | zero => rfl
    | succ count ih =>
        rw [List.replicate_succ, List.cons_append, run?_space (by decide), ih]
  rw [newline, List.cons_append, run?_space (by decide), hblanks]

theorem run?_quote (spelling : Spelling) (reading : Reading) (after : Text) :
    reading.run? (quote spelling ++ after) =
      (reading.step? (.string spelling.reread)).bind fun next => next.run? after := by
  have hread := readString?_flatMap_spell spelling after
  rw [quote, List.cons_append, List.append_assoc]
  refine run?_of_scan? (by decide) ?_ reading
  rw [Lexeme.scan?]
  exact congrArg (Option.map _) hread

theorem scan?_of_isDigit {c : Char} (h : c.isDigit = true) (rest : Text) :
    Lexeme.isSpace c = false ∧
      Lexeme.scan? c rest =
        (readNumeral? (c :: rest)).map fun (numeral, after) => (.number numeral, after) := by
  constructor
  · cases hspace : Lexeme.isSpace c with
    | false => rfl
    | true =>
        simp only [Lexeme.isSpace, Bool.or_eq_true, decide_eq_true_eq] at hspace
        rcases hspace with ((rfl | rfl) | rfl) | rfl <;> exact absurd h (by decide)
  · rw [Lexeme.scan?.eq_def]
    split
    case h_11 => rfl
    all_goals exact absurd h (by decide)

theorem run?_ofNat (value : Nat) (reading : Reading) {after : Text}
    (hafter : stopsNumber after = true) :
    reading.run? ((Numeral.ofNat value).spell ++ after) =
      (reading.step? (.number (.ofNat value))).bind fun next => next.run? after := by
  have hread := readNumeral?_spell_ofNat value hafter
  have hdigits : ∀ c ∈ (Numeral.ofNat value).spell, c.isDigit = true := by
    intro c hc
    rw [spell_ofNat] at hc
    exact Nat.isDigit_of_mem_toDigits (by decide) (by decide) hc
  obtain ⟨c, rest, hspell⟩ := List.exists_cons_of_ne_nil
    (show (Numeral.ofNat value).spell ≠ [] by rw [spell_ofNat]; exact Nat.toDigits_ne_nil)
  rw [hspell] at hread hdigits ⊢
  obtain ⟨hspace, hscan⟩ := scan?_of_isDigit (hdigits c List.mem_cons_self) (rest ++ after)
  rw [List.cons_append] at hread ⊢
  rw [hread] at hscan
  exact run?_of_scan? hspace hscan reading

/-- A value may come next, and after it the reader is just past it in `frames`. -/
def Awaits (reading : Reading) (frames : List Frame) : Prop :=
  ∀ lexeme, lexeme ≠ .closeArray → reading.step? lexeme = begin? frames lexeme

theorem awaits_atValue (frames : List Frame) : (atValue frames).Awaits frames :=
  fun _ _ => rfl

/-- Unless the array ends at once, its first item is read like the others. -/
theorem awaits_atFirstItem (frames : List Frame) :
    (atFirstItem frames).Awaits (.array [] :: frames) := by
  intro lexeme hlexeme
  cases lexeme with
  | closeArray => exact absurd rfl hlexeme
  | _ => rfl

/-- A layout of the value takes every reader that awaits a value past it. -/
def TakesPast (json : Json) : Prop :=
  ∀ (depth : Nat) {reading : Reading} {frames : List Frame} {after : Text},
    reading.Awaits frames → stopsNumber after = true →
      reading.run? (json.layout depth ++ after) = (past json.reread frames).run? after

theorem stopsNumber_layoutItems (depth : Nat) (items : List Json) (after : Text) :
    stopsNumber (layoutItems (depth + 1) items ++ (newline depth ++ after)) = true := by
  cases items with
  | nil => rfl
  | cons item items => rfl

theorem stopsNumber_layoutMembers (depth : Nat) (members : List (Spelling × Json))
    (after : Text) :
    stopsNumber (layoutMembers (depth + 1) members ++ (newline depth ++ after)) = true := by
  cases members with
  | nil => rfl
  | cons member members => rfl

theorem run?_layoutItems {items : List Json} (h : ∀ item ∈ items, TakesPast item)
    (depth : Nat) (value : Json) (before : List Json) (frames : List Frame) (after : Text) :
    (past value (.array before :: frames)).run?
        (layoutItems (depth + 1) items ++ (newline depth ++ ']' :: after)) =
      (past (.array (before.reverse ++ value :: rereadItems items)) frames).run? after := by
  induction items generalizing value before with
  | nil =>
      rw [layoutItems, List.nil_append, run?_newline, run?_of_scan? (by decide) rfl]
      simp [step?, rereadItems]
  | cons item items ih =>
      obtain ⟨hitem, hitems⟩ := List.forall_mem_cons.1 h
      have hstop := stopsNumber_layoutItems depth items (']' :: after)
      rw [layoutItems, List.cons_append, run?_of_scan? (by decide) rfl, step?,
        Option.bind_some, List.append_assoc, List.append_assoc, run?_newline,
        hitem (depth + 1) (awaits_atValue _) hstop, ih hitems]
      simp [rereadItems]

/-- A key, the colon after it and its value, read where a key may come next. -/
theorem run?_member {reading : Reading} {before : List (Spelling × Json)}
    {frames : List Frame} {key : Spelling} {value : Json}
    (hreading : ∀ key, reading.step? (.string key) = some (.atColon before key frames))
    (hvalue : TakesPast value) (depth : Nat) {after : Text}
    (hafter : stopsNumber after = true) :
    reading.run? (quote key ++ ':' :: ' ' :: (layout depth value ++ after)) =
      (past value.reread (.object before key.reread :: frames)).run? after := by
  rw [run?_quote, hreading, Option.bind_some, run?_of_scan? (by decide) rfl, step?,
    Option.bind_some, run?_space (by decide), hvalue depth (awaits_atValue _) hafter]

theorem run?_layoutMembers {members : List (Spelling × Json)}
    (h : ∀ member ∈ members, TakesPast member.2) (depth : Nat) (key : Spelling) (value : Json)
    (before : List (Spelling × Json)) (frames : List Frame) (after : Text) :
    (past value (.object before key :: frames)).run?
        (layoutMembers (depth + 1) members ++ (newline depth ++ '\x7d' :: after)) =
      (past (.object (before.reverse ++ (key, value) :: rereadMembers members)) frames).run?
        after := by
  induction members generalizing key value before with
  | nil =>
      rw [layoutMembers, List.nil_append, run?_newline, run?_of_scan? (by decide) rfl]
      simp [step?, rereadMembers]
  | cons member members ih =>
      obtain ⟨next, nextValue⟩ := member
      obtain ⟨hmember, hmembers⟩ := List.forall_mem_cons.1 h
      have hstop := stopsNumber_layoutMembers depth members ('\x7d' :: after)
      rw [layoutMembers, List.cons_append, run?_of_scan? (by decide) rfl, step?,
        Option.bind_some, List.append_assoc, List.append_assoc, List.append_assoc,
        run?_newline, List.cons_append, List.cons_append,
        run?_member (fun _ => rfl) hmember (depth + 1) hstop, ih hmembers]
      simp [rereadMembers]

theorem takesPast_array {items : List Json} (h : ∀ item ∈ items, TakesPast item) :
    TakesPast (.array items) := by
  intro depth reading frames after hreading hafter
  have hopen : reading.step? .openArray = some (.atFirstItem frames) :=
    hreading .openArray (by decide)
  cases items with
  | nil =>
      rw [layout, List.cons_append, run?_of_scan? (by decide) rfl, hopen, Option.bind_some,
        List.singleton_append, run?_of_scan? (by decide) rfl]
      rfl
  | cons item items =>
      obtain ⟨hitem, hitems⟩ := List.forall_mem_cons.1 h
      have hstop := stopsNumber_layoutItems depth items (']' :: after)
      rw [layout, List.cons_append, run?_of_scan? (by decide) rfl, hopen, Option.bind_some]
      simp only [List.append_assoc, List.singleton_append]
      -- No layout starts with a closing bracket, so the array does not end here.
      rw [run?_newline, hitem (depth + 1) (awaits_atFirstItem _) hstop,
        run?_layoutItems hitems]
      rfl

theorem takesPast_object {members : List (Spelling × Json)}
    (h : ∀ member ∈ members, TakesPast member.2) : TakesPast (.object members) := by
  intro depth reading frames after hreading hafter
  have hopen : reading.step? .openObject = some (.atFirstKey frames) :=
    hreading .openObject (by decide)
  cases members with
  | nil =>
      rw [layout, List.cons_append, run?_of_scan? (by decide) rfl, hopen, Option.bind_some,
        List.singleton_append, run?_of_scan? (by decide) rfl]
      rfl
  | cons member members =>
      obtain ⟨key, value⟩ := member
      obtain ⟨hmember, hmembers⟩ := List.forall_mem_cons.1 h
      have hstop := stopsNumber_layoutMembers depth members ('\x7d' :: after)
      rw [layout, List.cons_append, run?_of_scan? (by decide) rfl, hopen, Option.bind_some]
      simp only [List.append_assoc, List.cons_append, List.nil_append]
      rw [run?_newline, run?_member (fun _ => rfl) hmember (depth + 1) hstop,
        run?_layoutMembers hmembers]
      rfl

/-- A value that is written as one lexeme. -/
theorem takesPast_of_lexeme {json : Json} (lexeme : Lexeme) (hne : lexeme ≠ .closeArray)
    (hbegin : ∀ frames, begin? frames lexeme = some (.past json.reread frames))
    (hrun : ∀ (depth : Nat) (reading : Reading) {after : Text}, stopsNumber after = true →
      reading.run? (json.layout depth ++ after) =
        (reading.step? lexeme).bind fun next => next.run? after) :
    TakesPast json := by
  intro depth reading frames after hreading hafter
  rw [hrun depth reading hafter, hreading lexeme hne, hbegin, Option.bind_some]

/-- Layouts are read value by value. -/
theorem takesPast {json : Json} (h : json.Plain) : TakesPast json := by
  induction h with
  | null =>
      apply takesPast_of_lexeme .null (by decide) (fun _ => rfl)
      intro depth reading after _
      exact run?_of_scan? (by decide) rfl reading
  | bool value =>
      apply takesPast_of_lexeme (.bool value) (by simp) (fun _ => rfl)
      intro depth reading after _
      cases value with
      | true => exact run?_of_scan? (by decide) rfl reading
      | false => exact run?_of_scan? (by decide) rfl reading
  | number value =>
      apply takesPast_of_lexeme (.number (.ofNat value)) (by simp) (fun _ => rfl)
      intro depth reading after hafter
      exact run?_ofNat value reading hafter
  | string spelling =>
      apply takesPast_of_lexeme (.string spelling.reread) (by simp) (fun _ => rfl)
      intro depth reading after _
      exact run?_quote spelling reading after
  | array _ ih => exact takesPast_array ih
  | object _ ih => exact takesPast_object ih

end Reading

/-- The document of a plain value reads back. -/
theorem ofDocument?_layout {json : Json} (h : json.Plain) :
    ofDocument? (json.layout 0) = some json.reread := by
  have hrun : (Reading.atValue []).run? (json.layout 0) = some (.past json.reread []) := by
    have hend : stopsNumber [] = true := rfl
    have hpast := Reading.takesPast h 0 (Reading.awaits_atValue []) hend
    rwa [List.append_nil, Reading.run?_nil] at hpast
  obtain ⟨lexemes, hlexemes, hfold⟩ := Option.bind_eq_some_iff.1 hrun
  rw [ofDocument?, hlexemes, Option.bind_some, ofLexemes?, hfold]

end GradingRule.Json
