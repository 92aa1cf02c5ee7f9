/-
Documents of sequences.  A sequence reads back from its own document, whatever its
terms hold; whether it is valid is only asked afterwards.
-/
import GradingRule.Proofs.JsonReading
import GradingRule.Sequence.Json

namespace GradingRule

open Json (required? optional?)

namespace Json

theorem le_ofDigitChars (digits : Text) (value : Nat) :
    value ≤ Nat.ofDigitChars 10 digits value := by
  induction digits generalizing value with
  | nil => simp
  | cons digit rest ih =>
      rw [Nat.ofDigitChars_cons]
      refine Nat.le_trans ?_ (ih _)
      omega

/-- Digits of a number of 64 bits all fit. -/
theorem leadingValue_eq_of_lt {digits : Text} {value : Nat}
    (h : Nat.ofDigitChars 10 digits value < UInt64.size) :
    leadingValue value digits = (Nat.ofDigitChars 10 digits value, []) := by
  induction digits generalizing value with
  | nil => simp [leadingValue]
  | cons digit rest ih =>
      rw [Nat.ofDigitChars_cons] at h ⊢
      have hnext : value * 10 + (digit.toNat - '0'.toNat) =
          10 * value + (digit.toNat - '0'.toNat) := by
        rw [Nat.mul_comm]
      have hlt := Nat.lt_of_le_of_lt (le_ofDigitChars rest _) h
      rw [leadingValue, hnext, if_pos hlt, ih h]

theorem fitsDouble_ofNat {value : Nat} (h : value < UInt32.size) :
    (Numeral.ofNat value).fitsDouble = true := by
  have hdigits : leadingValue 0 (Nat.toDigits 10 value) = (value, []) := by
    have hlt : value < UInt64.size := Nat.lt_of_lt_of_le h (by decide)
    rw [leadingValue_eq_of_lt, Nat.ofDigitChars_ten_toDigits]
    rwa [Nat.ofDigitChars_ten_toDigits]
  have hscientific : (Numeral.ofNat value).scientific = (value, 0) := by
    simp [Numeral.scientific, Numeral.ofNat, hdigits, leadingValue]
  have hproduct : nearest53 value * nearest53 (Nat.pow 10 (0 : Int).toNat) <
      Nat.pow 2 1024 - Nat.pow 2 970 := by
    have hnearest : nearest53 value = value := if_pos (Nat.lt_of_lt_of_le h (by decide))
    have hone : nearest53 (Nat.pow 10 (0 : Int).toNat) = 1 := by decide
    rw [hnearest, hone, Nat.mul_one]
    refine Nat.lt_of_lt_of_le h ?_
    decide +kernel
  rw [Numeral.fitsDouble, hscientific]
  refine Bool.or_eq_true_iff.2 (.inr (Bool.and_eq_true_iff.2 ⟨by decide, ?_⟩))
  exact decide_eq_true hproduct

theorem text?_reread_ofText (text : Text) : (ofText text).reread.text? = some text :=
  Spelling.text?_reread_ofText text

/-- An object with named fields. -/
def ofFields (fields : List (String × Json)) : Json :=
  .object (fields.map fun field => member field.1 field.2)

/-- The members that the object is read back with. -/
def rereadFields (fields : List (String × Json)) : List (Text × Json) :=
  fields.map fun field => (field.1.toList, field.2.reread)

theorem members?_reread_ofFields (fields : List (String × Json)) :
    (ofFields fields).reread.members? = some (rereadFields fields) := by
  rw [ofFields, reread, members?]
  induction fields with
  | nil => rfl
  | cons field fields ih =>
      have hkey : (member field.1 field.2).1.reread.text? = some field.1.toList :=
        Spelling.text?_reread_ofText field.1.toList
      rw [List.map_cons, rereadMembers.eq_def]
      dsimp only
      rw [List.mapM_cons, ih, hkey]
      rfl

theorem valuesOf_rereadFields_cons (key : String) (field : String × Json)
    (fields : List (String × Json)) :
    valuesOf key (rereadFields (field :: fields)) =
      if field.1 = key then field.2.reread :: valuesOf key (rereadFields fields)
      else valuesOf key (rereadFields fields) := by
  by_cases hkey : field.1 = key
  · simp [valuesOf, rereadFields, hkey]
  · simp [valuesOf, rereadFields, hkey, String.toList_inj]

theorem valuesOf_rereadFields_of_not_mem {key : String} {fields : List (String × Json)}
    (h : key ∉ fields.map Prod.fst) : valuesOf key (rereadFields fields) = [] := by
  induction fields with
  | nil => rfl
  | cons field fields ih =>
      rw [List.map_cons, List.mem_cons, not_or] at h
      rw [valuesOf_rereadFields_cons, if_neg (Ne.symm h.1), ih h.2]

/-- A field whose name no other field has is found by its name. -/
theorem valuesOf_rereadFields {fields : List (String × Json)}
    (hnodup : (fields.map Prod.fst).Nodup) {field : String × Json} (h : field ∈ fields) :
    valuesOf field.1 (rereadFields fields) = [field.2.reread] := by
  induction fields with
  | nil => simp at h
  | cons first fields ih =>
      rw [List.map_cons, List.nodup_cons] at hnodup
      rw [valuesOf_rereadFields_cons]
      rcases List.mem_cons.1 h with rfl | hmem
      · rw [if_pos rfl, valuesOf_rereadFields_of_not_mem hnodup.1]
      · have hne : first.1 ≠ field.1 := by
          intro heq
          exact hnodup.1 (heq ▸ List.mem_map_of_mem hmem)
        rw [if_neg hne, ih hnodup.2 hmem]

theorem plain_ofFields {fields : List (String × Json)}
    (h : ∀ field ∈ fields, field.2.Plain) : (ofFields fields).Plain := by
  refine .object fun member hmember => ?_
  obtain ⟨field, hfield, rfl⟩ := List.mem_map.1 hmember
  exact h field hfield

theorem isKeepable_reread_ofText (depth : Nat) (text : Text) :
    (ofText text).reread.isKeepable depth = true := by
  cases depth with
  | zero => exact congrArg Option.isSome (Spelling.text?_reread_ofText text)
  | succ depth => exact congrArg Option.isSome (Spelling.text?_reread_ofText text)

theorem isKeepable_ofNat (depth : Nat) {value : Nat} (h : value < UInt32.size) :
    (ofNat value).isKeepable depth = true := by
  cases depth with
  | zero => exact fitsDouble_ofNat h
  | succ depth => exact fitsDouble_ofNat h

end Json

theorem TermId.ofJson?_toJson (id : TermId) : TermId.ofJson? id.toJson.reread = some id := by
  have hread : id.toJson.reread.natBelow? UInt32.size = some ⟨id.number, id.number_lt⟩ :=
    Json.natBelow?_ofNat id.number_lt
  rw [TermId.ofJson?, hread]
  rfl

theorem Token.ofJson?_ofText (token : Token) :
    Token.ofJson? (Json.ofText token.text).reread = some token := by
  rw [Token.ofJson?, Json.text?_reread_ofText]
  change (Token.word token.text).toOption = some token
  rw [token.word_text]
  rfl

theorem Operator.ofJson?_name (operator : Operator) :
    Operator.ofJson? (Json.ofText operator.name.toList).reread = some operator := by
  change (Json.Spelling.text? _).bind Operator.named? = _
  rw [Json.Spelling.text?_reread_ofText]
  cases operator <;> rfl

theorem TermKind.ofJson?_tag (kind : TermKind) :
    TermKind.ofJson? (Json.ofText kind.tag.toList).reread = some kind := by
  change ((Json.Spelling.text? _).bind fun tag =>
    TermKind.all.find? fun kind => kind.tag.toList = tag) = _
  rw [Json.Spelling.text?_reread_ofText]
  cases kind with
  | primary form => cases form <;> rfl
  | pair relation => cases relation <;> rfl

/-- The fields that only terms with this body have. -/
def Body.fields : Body → List (String × Json)
  | .primary _ token => [("token", .ofText token.text)]
  | .pair _ first second => [("first", first.toJson), ("second", second.toJson)]

theorem Body.ofMembers?_of_required? {members : List (Text × Json)} {body : Body}
    (h : ∀ field ∈ body.fields, Json.required? field.1 members = some field.2.reread) :
    ofMembers? members body.kind = some body := by
  cases body with
  | primary form token =>
      have htoken := h _ List.mem_cons_self
      simp only [kind, ofMembers?, htoken, token.ofJson?_ofText, Option.bind_eq_bind,
        Option.bind_some]
      rfl
  | pair relation first second =>
      have hfirst := h _ List.mem_cons_self
      have hsecond := h _ (List.mem_cons_of_mem _ List.mem_cons_self)
      simp only [kind, ofMembers?, hfirst, hsecond, TermId.ofJson?_toJson,
        Option.bind_eq_bind, Option.bind_some]
      rfl

namespace Term

def fields (term : Term) : List (String × Json) :=
  ("id", term.id.toJson) ::
    ("operator", .ofText term.operator.name.toList) ::
    ("kind", .ofText term.body.kind.tag.toList) ::
    term.body.fields

theorem toJson_eq_ofFields (term : Term) : term.toJson = .ofFields term.fields := by
  rw [toJson, Json.ofFields, fields]
  cases term.body with
  | primary form token => rfl
  | pair relation first second => rfl

theorem plain_and_keepable_of_mem_fields {term : Term} {field : String × Json}
    (h : field ∈ term.fields) :
    field.2.Plain ∧ ∀ depth, field.2.reread.isKeepable depth = true := by
  have hid : ∀ id : TermId,
      id.toJson.Plain ∧ ∀ depth, id.toJson.reread.isKeepable depth = true :=
    fun id => ⟨.number _, fun depth => Json.isKeepable_ofNat depth id.number_lt⟩
  have htext : ∀ text : Text,
      (Json.ofText text).Plain ∧ ∀ depth, (Json.ofText text).reread.isKeepable depth = true :=
    fun text => ⟨.string _, fun depth => Json.isKeepable_reread_ofText depth text⟩
  obtain ⟨id, operator, body⟩ := term
  cases body with
  | primary form token =>
      simp only [fields, Body.fields, List.mem_cons, List.not_mem_nil, or_false] at h
      rcases h with rfl | rfl | rfl | rfl
      · exact hid id
      · exact htext _
      · exact htext _
      · exact htext _
  | pair relation first second =>
      simp only [fields, Body.fields, List.mem_cons, List.not_mem_nil, or_false] at h
      rcases h with rfl | rfl | rfl | rfl | rfl
      · exact hid id
      · exact htext _
      · exact htext _
      · exact hid first
      · exact hid second

theorem plain_toJson (term : Term) : term.toJson.Plain := by
  rw [toJson_eq_ofFields]
  exact Json.plain_ofFields fun field hfield => (plain_and_keepable_of_mem_fields hfield).1

theorem nodup_fields (term : Term) : (term.fields.map Prod.fst).Nodup := by
  obtain ⟨id, operator, body⟩ := term
  cases body with
  | primary form token =>
      exact (by decide : ["id", "operator", "kind", "token"].Nodup)
  | pair relation first second =>
      exact (by decide : ["id", "operator", "kind", "first", "second"].Nodup)

/-- A term reads back from its object, whatever it refers to. -/
theorem ofJson?_reread_toJson (term : Term) : ofJson? term.toJson.reread = some term := by
  have hvalues : ∀ field ∈ term.fields,
      Json.valuesOf field.1 (Json.rereadFields term.fields) = [field.2.reread] :=
    fun field hfield => Json.valuesOf_rereadFields term.nodup_fields hfield
  have hrequired : ∀ field ∈ term.fields,
      required? field.1 (Json.rereadFields term.fields) = some field.2.reread := by
    intro field hfield
    rw [required?, hvalues field hfield]
  have hid := hrequired ("id", _) List.mem_cons_self
  have hoperator : optional? "operator" (Json.rereadFields term.fields) =
      some (some (Json.ofText term.operator.name.toList).reread) := by
    rw [optional?, hvalues ("operator", .ofText term.operator.name.toList) (by simp [fields])]
  have hkind := hrequired ("kind", .ofText term.body.kind.tag.toList) (by simp [fields])
  have hbody : Body.ofMembers? (Json.rereadFields term.fields) term.body.kind =
      some term.body := by
    refine Body.ofMembers?_of_required? fun field hfield => hrequired field ?_
    simp [fields, hfield]
  have hkeepable : (Json.rereadFields term.fields).all isKeepableMember = true := by
    rw [List.all_eq_true]
    intro member hmember
    obtain ⟨field, hfield, rfl⟩ := List.mem_map.1 hmember
    rw [isKeepableMember, (plain_and_keepable_of_mem_fields hfield).2, Bool.or_true]
  rw [ofJson?, toJson_eq_ofFields, Json.members?_reread_ofFields]
  simp only [Option.bind_eq_bind, Option.bind_some, hid, hoperator, hkind, hbody, hkeepable,
    TermId.ofJson?_toJson, Json.orDefault, Operator.ofJson?_name, TermKind.ofJson?_tag,
    ↓reduceIte]
  rfl

end Term

namespace Sequence

theorem plain_toJson (sequence : Sequence) : sequence.toJson.Plain := by
  refine .array fun item hitem => ?_
  obtain ⟨term, -, rfl⟩ := List.mem_map.1 hitem
  exact term.plain_toJson

theorem ofJson?_reread_toJson (sequence : Sequence) :
    ofJson? sequence.toJson.reread = some sequence := by
  have hterms : ∀ terms : List Term,
      (Json.rereadItems (terms.map Term.toJson)).mapM Term.ofJson? = some terms := by
    intro terms
    induction terms with
    | nil => rfl
    | cons term terms ih =>
        rw [List.map_cons, Json.rereadItems, List.mapM_cons, term.ofJson?_reread_toJson, ih]
        rfl
  rw [toJson, Json.reread, ofJson?, hterms]
  rfl

/-- A sequence reads back from its document, whatever it holds.  The reader that
asks for a valid sequence gives the fault of one that is not. -/
theorem ofDocument_document (sequence : Sequence) :
    ofDocument? sequence.document = some sequence ∧
      ofDocument sequence.document =
        match sequence.validate with
        | .ok () => .ok sequence
        | .error fault => .error (.sequence fault) := by
  have hread : ofDocument? sequence.document = some sequence := by
    rw [ofDocument?, document, Json.ofDocument?_layout sequence.plain_toJson, Option.bind_some,
      ofJson?_reread_toJson]
  refine ⟨hread, ?_⟩
  rw [ofDocument, hread, validate]
  dsimp only
  cases sequence.fault? with
  | none => rfl
  | some fault => rfl

end Sequence

end GradingRule
