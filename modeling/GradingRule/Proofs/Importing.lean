/-
The sequences that documents hold.  A document can bring in exactly the sequences
that keep the rules of validation; that a template ends in a star is none of them.
Drafts and rules star their templates as they make them, documents are believed.
-/
import GradingRule.Proofs.Decoding
import GradingRule.Proofs.Documents
import GradingRule.Proofs.Drafting

namespace GradingRule

theorem Text.getLast?_escapeAfter (backslash : Bool) (text : Text) :
    (escapeAfter backslash text).getLast? = text.getLast? := by
  induction text generalizing backslash with
  | nil => rfl
  | cons c rest ih =>
      rw [escapeAfter]
      split <;> simp [List.getLast?_cons, ih]

/-- Escaping keeps a star at the end, and adds none. -/
theorem Token.getLast?_of_word {raw : Text} {token : Token} (h : word raw = .ok token) :
    token.text.getLast? = raw.getLast? := by
  have htoken : Form.word.token raw = .ok token := h
  have htext : token.text = raw.escape := Form.text_of_token_eq_ok htoken
  rw [htext]
  exact Text.getLast?_escapeAfter false raw

theorem Token.exists_word_of_ofJson? {json : Json} {token : Token} (h : ofJson? json = some token) :
    ∃ raw, json.text? = some raw ∧ word raw = .ok token := by
  obtain ⟨raw, hraw, hword⟩ := Option.bind_eq_some_iff.1 h
  refine ⟨raw, hraw, ?_⟩
  cases hresult : word raw with
  | error fault => simp [hresult, Except.toOption] at hword
  | ok made => simpa [hresult, Except.toOption] using hword

/-- The text of the token in an item that stands for a template. -/
def Json.template? (item : Json) : Option Text := do
  let members ← item.members?
  let kind ← required? "kind" members >>= TermKind.ofJson?
  if kind = .primary .template then required? "token" members >>= text? else none

/-- Every template of the document is written with a star at its end. -/
def StarredDocument (document : Text) : Prop :=
  ∀ items, Json.ofDocument? document = some (.array items) →
    ∀ item ∈ items, ∀ raw, item.template? = some raw → raw.getLast? = some '*'

theorem Body.kind_of_ofMembers? {members : List (Text × Json)} {kind : TermKind} {body : Body}
    (h : ofMembers? members kind = some body) : body.kind = kind := by
  cases kind with
  | primary form =>
      obtain ⟨token, -, heq⟩ := Option.bind_eq_some_iff.1 h
      rw [← Option.some.inj heq, Body.kind]
  | pair relation =>
      obtain ⟨first, -, hrest⟩ := Option.bind_eq_some_iff.1 h
      obtain ⟨second, -, heq⟩ := Option.bind_eq_some_iff.1 hrest
      rw [← Option.some.inj heq, Body.kind]

/-- An item that is read as a term gives the kind of the term and all of its body. -/
theorem Term.exists_members_of_ofJson? {item : Json} {term : Term} (h : ofJson? item = some term) :
    ∃ members, item.members? = some members ∧
      Json.required? "kind" members >>= TermKind.ofJson? = some term.body.kind ∧
      Body.ofMembers? members term.body.kind = some term.body := by
  simp only [ofJson?, Option.bind_eq_bind, Option.bind_eq_some_iff] at h
  obtain ⟨members, hmembers, id, -, operator, -, kind, hkind, body, hbody, hterm⟩ := h
  split at hterm
  · obtain rfl := Option.some.inj hterm
    obtain rfl := Body.kind_of_ofMembers? hbody
    exact ⟨members, hmembers, Option.bind_eq_some_iff.2 hkind, hbody⟩
  · exact absurd hterm (by simp)

/-- A template ends in a star exactly if the text in its item does. -/
theorem Term.starred_iff_of_ofJson? {item : Json} {term : Term} (h : ofJson? item = some term) :
    (∀ token, term.body = .primary .template token → token.text.getLast? = some '*') ↔
      ∀ raw, item.template? = some raw → raw.getLast? = some '*' := by
  obtain ⟨members, hmembers, hkind, hbody⟩ := exists_members_of_ofJson? h
  rw [Option.bind_eq_bind] at hkind
  simp only [Json.template?, hmembers, hkind, Option.bind_eq_bind, Option.bind_some]
  by_cases htemplate : term.body.kind = .primary .template
  · rw [htemplate] at hbody
    obtain ⟨token, htoken, heq⟩ := Option.bind_eq_some_iff.1 hbody
    obtain ⟨value, hvalue, hread⟩ := Option.bind_eq_some_iff.1 htoken
    obtain ⟨raw, hraw, hword⟩ := Token.exists_word_of_ofJson? hread
    rw [if_pos htemplate, ← Option.some.inj heq, hvalue, Option.bind_some, hraw]
    simp [Token.getLast?_of_word hword]
  · rw [if_neg htemplate]
    have hne : ∀ token, term.body ≠ .primary .template token := by
      intro token hterm
      exact htemplate (by rw [hterm, Body.kind])
    simp [hne]

namespace Sequence

/-- The rules that a sequence from outside is held to: ids and references are in
order, at most two terms are alternatives, and tokens are in normal form. -/
structure Lawful (sequence : Sequence) : Prop where
  coherent : sequence.Coherent
  tagCount_or_le : sequence.tagCount .or ≤ 2
  proper : ∀ term ∈ sequence.terms, ∀ form token, term.body = .primary form token →
    token.Proper

/-- The token of every template ends in a star. -/
def Starred (sequence : Sequence) : Prop :=
  ∀ term ∈ sequence.terms, ∀ token, term.body = .primary .template token →
    token.text.getLast? = some '*'

theorem starred_empty : empty.Starred := by
  intro term hterm
  simp [empty] at hterm

theorem ofDocument_eq_ok_iff {document : Text} {sequence : Sequence} :
    ofDocument document = .ok sequence ↔
      ofDocument? document = some sequence ∧ sequence.fault? = none := by
  constructor
  · intro h
    rw [ofDocument] at h
    split at h
    · exact absurd h (by simp)
    · next hread =>
        split at h
        · exact absurd h (by simp)
        · next hfault =>
            obtain rfl := Except.ok.inj h
            exact ⟨hread, hfault⟩
  · rintro ⟨hread, hfault⟩
    rw [ofDocument, hread]
    dsimp only
    rw [hfault]

theorem lawful_of_ofDocument {document : Text} {sequence : Sequence}
    (h : ofDocument document = .ok sequence) : sequence.Lawful := by
  obtain ⟨hcoherent, hcount⟩ := fault?_eq_none_iff.1 (ofDocument_eq_ok_iff.1 h).2
  exact ⟨hcoherent, hcount, fun _ _ _ token _ => token.proper⟩

/-- The document that a lawful sequence is written to is accepted. -/
theorem Lawful.ofDocument_eq_ok {sequence : Sequence} (h : sequence.Lawful) :
    ofDocument sequence.document = .ok sequence := by
  refine ofDocument_eq_ok_iff.2 ⟨?_, fault?_eq_none_iff.2 ⟨h.coherent, h.tagCount_or_le⟩⟩
  rw [ofDocument?, document, Json.ofDocument?_layout sequence.plain_toJson, Option.bind_some,
    ofJson?_reread_toJson]

theorem starred_iff_of_mapM {items : List Json} {terms : List Term}
    (h : items.mapM Term.ofJson? = some terms) :
    (⟨terms⟩ : Sequence).Starred ↔
      ∀ item ∈ items, ∀ raw, item.template? = some raw → raw.getLast? = some '*' := by
  induction items generalizing terms with
  | nil =>
      obtain rfl := Option.some.inj h
      exact iff_of_true starred_empty (by simp)
  | cons item items ih =>
      rw [List.mapM_cons, Option.bind_eq_bind, Option.bind_eq_some_iff] at h
      obtain ⟨term, hterm, hrest⟩ := h
      obtain ⟨others, hothers, heq⟩ := Option.bind_eq_some_iff.1 hrest
      obtain rfl := Option.some.inj heq
      rw [List.forall_mem_cons, ← ih hothers, ← Term.starred_iff_of_ofJson? hterm]
      exact List.forall_mem_cons

/-- The sequence of a document has the stars that the document has. -/
theorem starred_iff_of_ofDocument {document : Text} {sequence : Sequence}
    (h : ofDocument document = .ok sequence) : sequence.Starred ↔ StarredDocument document := by
  obtain ⟨json, hjson, hterms⟩ := Option.bind_eq_some_iff.1 (ofDocument_eq_ok_iff.1 h).1
  cases json with
  | array items =>
      obtain ⟨terms, hmap, rfl⟩ := Option.map_eq_some_iff.1 hterms
      rw [starred_iff_of_mapM hmap, StarredDocument, hjson]
      simp
  | _ => exact absurd hterms (by simp [ofJson?])

end Sequence

/-- A template that a draft takes is starred. -/
theorem Draft.Takes.getLast?_template {draft : Draft} {edit : Edit} {operator : Operator}
    {token : Token} (h : draft.Takes edit operator (.primary .template token)) :
    token.text.getLast? = some '*' := by
  cases h with
  | template htoken hcount => exact Token.isTemplate_iff.1 (Token.isTemplate_of_template htoken)

theorem Draft.starred_run (session : SessionId) (limits : Limits) (edits : List Edit) :
    ((start session limits).run edits).sequence.Starred := by
  induction edits using List.reverseRecOn with
  | nil => exact Sequence.starred_empty
  | append_singleton front last ih =>
      rw [run_append_singleton]
      refine (step_apply _ last).forall_mem ih ?_
      intro operator body htakes token hbody
      obtain rfl : body = .primary .template token := hbody
      exact htakes.getLast?_template

/-- A template that a clause adds is starred. -/
theorem Clause.Means.getLast?_template {dialect : Dialect} {sequence : Sequence}
    {clause : Clause} {operator : Operator} {token : Token}
    (h : clause.Means dialect sequence operator (.primary .template token)) :
    token.text.getLast? = some '*' := by
  cases h with
  | primary hkind harguments hoperator htoken =>
      exact Token.isTemplate_iff.1 (Token.isTemplate_of_template htoken)

theorem Rule.starred_of_decodeFrom {dialect : Dialect} {clauses : List Clause}
    {sequence : Sequence} (h : decodeFrom dialect .empty clauses = .ok sequence) :
    sequence.Starred := by
  induction clauses using List.reverseRecOn generalizing sequence with
  | nil =>
      obtain rfl := Except.ok.inj h
      exact Sequence.starred_empty
  | append_singleton front last ih =>
      obtain ⟨decoded, operator, body, hfront, hlast, rfl⟩ :=
        decodeFrom_append_singleton_eq_ok_iff.1 h
      refine Sequence.forall_mem_push (ih hfront) ?_
      intro token hbody
      obtain rfl : body = .primary .template token := hbody
      exact hlast.getLast?_template

theorem Dialect.starred_of_decode {dialect : Dialect} {text : Text} {sequence : Sequence}
    (h : dialect.decode text = .ok sequence) : sequence.Starred := by
  cases hrule : dialect.isEmptyRule text with
  | true =>
      rw [decode, if_pos hrule] at h
      obtain rfl := Except.ok.inj h
      exact Sequence.starred_empty
  | false =>
      obtain ⟨rule, -, hdecode⟩ := (decode_of_not_isEmptyRule hrule).1 h
      exact Rule.starred_of_decodeFrom hdecode

/-- Documents bring in the lawful sequences and no others.  The templates of such a
sequence are starred exactly if they are in its document; drafts and rules have starred
templates only. -/
theorem Sequence.exists_ofDocument_iff_lawful (sequence : Sequence) :
    ((∃ document, ofDocument document = .ok sequence) ↔ sequence.Lawful) ∧
      (∀ document, ofDocument document = .ok sequence →
        (sequence.Starred ↔ StarredDocument document)) ∧
      (∀ (session : SessionId) (limits : Limits) (edits : List Edit),
        ((Draft.start session limits).run edits).sequence = sequence → sequence.Starred) ∧
      ∀ (dialect : Dialect) (text : Text),
        dialect.decode text = .ok sequence → sequence.Starred := by
  refine ⟨⟨?_, ?_⟩, fun _ => starred_iff_of_ofDocument, ?_, fun _ _ => Dialect.starred_of_decode⟩
  · rintro ⟨document, h⟩
    exact lawful_of_ofDocument h
  · intro h
    exact ⟨sequence.document, h.ofDocument_eq_ok⟩
  · rintro session limits edits rfl
    exact Draft.starred_run session limits edits

namespace ImportingWitness

def ruleText : Text :=
  "correct_response(A) :- template(A,photo).".toList

/-- The only template of the rule, with the star that the rule left out. -/
def starred : Sequence :=
  Sequence.empty.push .and (.primary .template (.ofText "photo*".toList (by decide)))

/-- The same template as a document has it. -/
def starredText : Text :=
  "[\x7b\"id\": 1, \"kind\": \"template\", \"token\": \"photo*\"\x7d]".toList

theorem exists_ofDocument_iff_lawful_photo :
    ({} : Dialect).decode ruleText = .ok starred ∧ starred.Starred ∧
      Sequence.ofDocument starredText = .ok starred ∧ StarredDocument starredText := by
  have hdecode : ({} : Dialect).decode ruleText = .ok starred := by decide +kernel
  have hdocument : Sequence.ofDocument starredText = .ok starred := by decide +kernel
  obtain ⟨-, himport, -, hrule⟩ := Sequence.exists_ofDocument_iff_lawful starred
  have hstarred := hrule _ _ hdecode
  exact ⟨hdecode, hstarred, hdocument, (himport _ hdocument).1 hstarred⟩

def documentText : Text :=
  "[\x7b\"id\": 1, \"kind\": \"template\", \"token\": \"photo\"\x7d]".toList

/-- The same template without its star. -/
def bare : Sequence :=
  Sequence.empty.push .and (.primary .template (.ofText "photo".toList (by decide)))

/-- A document is accepted with a template that ends in no star. -/
theorem not_starred_ofDocument :
    Sequence.ofDocument documentText = .ok bare ∧ ¬bare.Starred := by
  refine ⟨by decide +kernel, fun h => ?_⟩
  exact absurd (h _ List.mem_cons_self _ rfl) (by decide)

end ImportingWitness

end GradingRule
