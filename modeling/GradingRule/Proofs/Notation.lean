/-
Which notations can be used.  What the lexer never reads as a neck, or as the head or
the variable of the dialect, no rule can have; if it reads all three somewhere, there
are rules, and one of them stands for a single word.
-/
import GradingRule.Proofs.Decoding
import GradingRule.Proofs.Grammar
import GradingRule.Settings.Basic

namespace GradingRule

namespace Text

theorem sublist_doubleQuotes (word : Text) : word.Sublist (doubleQuotes word) := by
  induction word with
  | nil => exact List.Sublist.refl _
  | cons c rest ih =>
      rw [doubleQuotes]
      split
      · next hc => exact hc ▸ (ih.cons_cons '\'').cons '\''
      · exact ih.cons_cons c

theorem escapedAfter_of_not_mem {backslash : Bool} {text : Text} (h : '_' ∉ text) :
    EscapedAfter backslash text := by
  induction text generalizing backslash with
  | nil => trivial
  | cons c rest ih =>
      obtain ⟨hc, hrest⟩ := List.ne_and_not_mem_of_not_mem_cons h
      exact ⟨fun heq => absurd heq.symm hc, ih hrest⟩

end Text

namespace Lexeme

/-- The word of `c` and `tail` can be read without quotes. -/
structure Bare (neck : Text) (c : Char) (tail : Text) : Prop where
  start : CanStart c
  not_quote : c ≠ '\''
  plain : ∀ d ∈ tail, isDelimiter d = false ∧ isControl d = false
  no_neck : neck ≠ [] → ¬neck <:+: c :: tail

/-- There is a way to write a lexeme of this kind.  A word in quotes must not start
with the neck, and a bare word must not have it inside. -/
def Kind.Writable (neck : Text) : Kind → Prop
  | .word text =>
      (neck ≠ [] → ¬neck <+: Text.quoted text) ∨
        ∃ c tail, text = c :: tail ∧ Bare neck c tail
  | .neck => ∃ c tail, neck = c :: tail ∧ CanStart c
  | _ => True

theorem punctuation?_ne_word {c : Char} {word : Text} : punctuation? c ≠ some (.word word) := by
  rw [punctuation?.eq_def]
  split <;> simp

theorem punctuation?_ne_neck {c : Char} : punctuation? c ≠ some .neck := by
  rw [punctuation?.eq_def]
  split <;> simp

theorem Spelled.writable {neck : Text} {kind : Kind} {c : Char} {tail after : Text}
    (h : Spelled neck kind c tail after) : kind.Writable neck := by
  cases h with
  | punctuation hkind =>
      cases kind with
      | word word => exact absurd hkind punctuation?_ne_word
      | neck => exact absurd hkind punctuation?_ne_neck
      | _ => trivial
  | neck hneck hstart => exact ⟨c, tail, hneck, hstart⟩
  | quoted hneck hhead =>
      have hquoted := startsWithNeck_eq_false_iff.1 hneck
      exact .inl fun hne hstarts => hquoted hne (hstarts.trans (List.prefix_append _ after))
  | bare hstart hquote hplain hparts hend =>
      refine .inr ⟨c, tail, rfl, hstart, hquote, hplain, fun hne hinside => ?_⟩
      obtain ⟨front, back, hword⟩ := hinside
      have hpart := hparts (neck ++ back) (by simp [hne]) ⟨front, by simpa using hword⟩
      exact startsWithNeck_eq_false_iff.1 hpart hne ⟨back ++ after, by simp⟩

/-- Whatever a text is read as can be written. -/
theorem Lexes.writable {neck : Text} {offset : Nat} {text : Text} {lexemes : List Lexeme}
    (h : Lexes neck offset text lexemes) : ∀ lexeme ∈ lexemes, lexeme.kind.Writable neck := by
  induction h with
  | nil => simp
  | blank _ _ ih => exact ih
  | lexeme _ hspelled _ ih => exact List.forall_mem_cons.2 ⟨hspelled.writable, ih⟩

theorem Spelled.word_sublist {neck word : Text} {c : Char} {tail after : Text}
    (h : Spelled neck (.word word) c tail after) : word.Sublist (c :: tail) := by
  cases h with
  | punctuation hkind => exact absurd hkind punctuation?_ne_word
  | quoted _ _ =>
      exact ((Text.sublist_doubleQuotes word).trans (List.sublist_append_left _ _)).cons '\''
  | bare => exact List.Sublist.refl _

/-- The text has all characters of a word that is read from it. -/
theorem Lexes.word_sublist {neck : Text} {offset : Nat} {text : Text} {lexemes : List Lexeme}
    (h : Lexes neck offset text lexemes) {word : Text}
    (hword : .word word ∈ lexemes.map Lexeme.kind) : word.Sublist text := by
  induction h with
  | nil => simp at hword
  | @blank _ c _ _ _ _ ih => exact (ih hword).cons c
  | lexeme _ hspelled _ ih =>
      rw [← List.cons_append]
      rcases List.mem_cons.1 hword with hkind | hrest
      · obtain rfl : _ = Kind.word word := hkind.symm
        exact hspelled.word_sublist.trans (List.sublist_append_left _ _)
      · exact (ih hrest).trans (List.sublist_append_right _ _)

theorem exists_isBlank_ne (avoided : Option Char) :
    ∃ blank, isBlank blank = true ∧ blank ≠ '\'' ∧ avoided ≠ some blank := by
  by_cases h : avoided = some ' '
  · exact ⟨'\n', by decide, by decide, by simp [h]⟩
  · exact ⟨' ', by decide, by decide, h⟩

/-- The blank after a quoted word is chosen so that it does not go on as the neck. -/
theorem exists_spelled_quoted {neck word : Text}
    (h : neck ≠ [] → ¬neck <+: Text.quoted word) :
    ∃ blank, isBlank blank = true ∧ ∀ after,
      Spelled neck (.word word) '\'' (Text.doubleQuotes word ++ ['\'']) (blank :: after) := by
  obtain ⟨blank, hblank, hquote, havoided⟩ := exists_isBlank_ne neck[(Text.quoted word).length]?
  refine ⟨blank, hblank, fun after => .quoted ?_ (by simpa using hquote)⟩
  refine startsWithNeck_eq_false_iff.2 fun hne hstarts => ?_
  rcases prefix_or_exists_of_prefix_append_cons hstarts with hquoted | ⟨rest, rfl⟩
  · exact h hne hquoted
  · exact havoided (by simp)

/-- The blank after a bare word is not the first delimiter of the neck, so that no
neck lies across the end of the word. -/
theorem Bare.exists_spelled {neck : Text} {c : Char} {tail : Text} (h : Bare neck c tail) :
    ∃ blank, isBlank blank = true ∧
      ∀ after, Spelled neck (.word (c :: tail)) c tail (blank :: after) := by
  obtain ⟨blank, hblank, -, havoided⟩ := exists_isBlank_ne (neck.find? isDelimiter)
  have hdelimiter : isDelimiter blank = true := by simp [isDelimiter, hblank]
  have hword : ∀ d ∈ c :: tail, isDelimiter d = false :=
    List.forall_mem_cons.2 ⟨h.start.not_delimiter, fun d hd => (h.plain d hd).1⟩
  refine ⟨blank, hblank, fun after => .bare h.start h.not_quote h.plain ?_ ?_⟩
  · intro part _ hpart
    refine startsWithNeck_eq_false_iff.2 fun hne hstarts => ?_
    rcases prefix_or_exists_of_prefix_append_cons hstarts with hinside | ⟨rest, rfl⟩
    · exact h.no_neck hne (hinside.isInfix.trans hpart.isInfix)
    · have hnone : part.find? isDelimiter = none :=
        List.find?_eq_none.2 fun d hd => by simp [hword d (hpart.subset hd)]
      exact havoided (by simp [List.find?_append, hnone, hdelimiter])
  · rw [bareTail, if_pos (by simp [hdelimiter])]

theorem Kind.Writable.exists_spelled {neck : Text} {kind : Kind} (h : kind.Writable neck) :
    ∃ c tail blank, isBlank c = false ∧ isBlank blank = true ∧
      ∀ after, Spelled neck kind c tail (blank :: after) := by
  cases kind with
  | word word =>
      rcases h with hquoted | ⟨c, tail, rfl, hbare⟩
      · obtain ⟨blank, hblank, hspelled⟩ := exists_spelled_quoted hquoted
        exact ⟨_, _, blank, by decide, hblank, hspelled⟩
      · obtain ⟨blank, hblank, hspelled⟩ := hbare.exists_spelled
        exact ⟨c, tail, blank, hbare.start.not_blank, hblank, hspelled⟩
  | neck =>
      obtain ⟨c, tail, hneck, hstart⟩ := h
      exact ⟨c, tail, ' ', hstart.not_blank, by decide, fun _ => .neck hneck hstart⟩
  | openParen => exact ⟨'(', [], ' ', by decide, by decide, fun _ => .punctuation rfl⟩
  | closeParen => exact ⟨')', [], ' ', by decide, by decide, fun _ => .punctuation rfl⟩
  | comma => exact ⟨',', [], ' ', by decide, by decide, fun _ => .punctuation rfl⟩
  | semicolon => exact ⟨';', [], ' ', by decide, by decide, fun _ => .punctuation rfl⟩
  | period => exact ⟨'.', [], ' ', by decide, by decide, fun _ => .punctuation rfl⟩

/-- What can be written one by one can be written one after the other. -/
theorem exists_lexes_of_writable {neck : Text} {kinds : List Kind}
    (h : ∀ kind ∈ kinds, kind.Writable neck) (offset : Nat) :
    ∃ text lexemes, Lexes neck offset text lexemes ∧ lexemes.map Lexeme.kind = kinds := by
  induction kinds generalizing offset with
  | nil => exact ⟨[], [], .nil, rfl⟩
  | cons kind kinds ih =>
      obtain ⟨hkind, hkinds⟩ := List.forall_mem_cons.1 h
      obtain ⟨c, tail, blank, hc, hblank, hspelled⟩ := hkind.exists_spelled
      let stop := offset + Text.byteSize (c :: tail)
      obtain ⟨text, lexemes, hlexemes, hmap⟩ := ih hkinds (stop + blank.utf8Size)
      exact ⟨c :: (tail ++ blank :: text), ⟨kind, offset, stop⟩ :: lexemes,
        .lexeme hc (hspelled text) (.blank hblank hlexemes), by rw [List.map_cons, hmap]⟩

/-- A plain word without quotes can be written, whatever the neck: only a neck that
starts with a quote keeps it from standing in quotes. -/
theorem writable_word_of_plain (neck : Text) {c : Char} {tail : Text} (hstart : CanStart c)
    (hplain : ∀ d ∈ tail, isDelimiter d = false ∧ isControl d = false)
    (hquote : '\'' ∉ c :: tail) : (Kind.word (c :: tail)).Writable neck := by
  by_cases hneck : neck <+: Text.quoted (c :: tail)
  · refine .inr ⟨c, tail, rfl, hstart, ?_, hplain, fun hne hinside => ?_⟩
    · exact (List.ne_of_not_mem_cons hquote).symm
    · obtain ⟨d, rest, rfl⟩ := List.exists_cons_of_ne_nil hne
      obtain rfl : d = '\'' := (List.cons_prefix_cons.1 hneck).1
      exact hquote (hinside.subset (by simp))
  · exact .inl fun _ => hneck

theorem writable_term (neck : Text) : (Kind.word ['t', 'e', 'r', 'm']).Writable neck := by
  refine writable_word_of_plain neck ⟨by decide, by decide, by decide⟩ ?_ (by decide)
  simp only [List.forall_mem_cons, List.not_mem_nil, false_imp_iff, implies_true, and_true]
  decide

end Lexeme

namespace Dialect

/-- The lexer can read all that a rule of the dialect starts with. -/
structure Usable (dialect : Dialect) : Prop where
  neck : Lexeme.Kind.neck.Writable dialect.neck
  head : (Lexeme.Kind.word dialect.head).Writable dialect.neck
  responseVar : (Lexeme.Kind.word dialect.responseVar).Writable dialect.neck

/-- Behind a neck that starts like no other lexeme, every word can stand in quotes. -/
theorem usable_of_plainNeck {dialect : Dialect} (h : Lexeme.PlainNeck dialect.neck) :
    dialect.Usable := by
  have hword : ∀ word, (Lexeme.Kind.word word).Writable dialect.neck := fun word =>
    .inl (Lexeme.startsWithNeck_eq_false_iff.1 (h.startsWithNeck_quote _))
  obtain ⟨c, rest, hneck, hblank, hcontrol, hpunctuation, -⟩ := h
  exact ⟨⟨c, rest, hneck, hblank, hpunctuation, hcontrol⟩, hword _, hword _⟩

theorem usable_of_parse {dialect : Dialect} {text : Text} {rule : Rule}
    (h : dialect.parse text = .ok rule) : dialect.Usable := by
  obtain ⟨⟨lexemes, hlexemes, hrule⟩, hhead, hvar⟩ := parse_eq_ok_iff.1 h
  have hwritable := (Lexeme.scanFrom_eq_ok_iff_lexes.1 hlexemes).writable
  have hkinds : ∀ kind ∈ rule.kinds, kind.Writable dialect.neck := by
    intro kind hkind
    have hmem : kind ∈ lexemes.map Lexeme.kind := by
      rcases (Rule.writtenAs_of_ofLexemes hrule).2 with heq | heq <;> simp [heq, hkind]
    obtain ⟨lexeme, hlexeme, rfl⟩ := List.mem_map.1 hmem
    exact hwritable lexeme hlexeme
  exact ⟨hkinds _ (by simp [Rule.kinds]), hkinds _ (by simp [Rule.kinds, hhead]),
    hkinds _ (by simp [Rule.kinds, hvar])⟩

/-- Only the text for no rule decodes without being a rule. -/
theorem exists_parse_of_decode {dialect : Dialect} {text : Text} {sequence : Sequence}
    (h : dialect.decode text = .ok sequence) (hne : sequence.terms ≠ []) :
    ∃ rule, dialect.parse text = .ok rule := by
  cases hempty : dialect.isEmptyRule text with
  | true =>
      rw [decode, if_pos hempty] at h
      obtain rfl := Except.ok.inj h
      exact absurd rfl hne
  | false =>
      obtain ⟨rule, hrule, -⟩ := (decode_of_not_isEmptyRule hempty).1 h
      exact ⟨rule, hrule⟩

theorem usable_of_decode_word {dialect : Dialect} {text : Text} {sequence : Sequence}
    (h : dialect.decode text = .ok sequence)
    (hkinds : sequence.terms.map (fun term => term.body.kind) = [.primary .word]) :
    dialect.Usable := by
  have hne : sequence.terms ≠ [] := by
    intro hnil
    simp [hnil] at hkinds
  obtain ⟨rule, hrule⟩ := exists_parse_of_decode h hne
  exact usable_of_parse hrule

/-- A word of as many letters as tell its rule from the text for no rule. -/
def longToken (dialect : Dialect) : Token where
  text := List.replicate (dialect.emptyRule.count 'x' + 1) 'x'
  nonempty := by simp
  unblank := fun c hc => (List.eq_of_mem_replicate hc).symm ▸ by decide
  escaped := Text.escapedAfter_of_not_mem fun h => absurd (List.eq_of_mem_replicate h) (by decide)

/-- The rule about that word alone. -/
def longSequence (dialect : Dialect) : Sequence :=
  Sequence.empty.push .and (.primary .word dialect.longToken)

theorem writable_longToken (dialect : Dialect) :
    (Lexeme.Kind.word dialect.longToken.text).Writable dialect.neck := by
  refine Lexeme.writable_word_of_plain dialect.neck ⟨by decide, by decide, by decide⟩ ?_ ?_
  · intro c hc
    obtain rfl := List.eq_of_mem_replicate hc
    decide
  · rw [← List.replicate_succ]
    exact fun hquote => absurd (List.eq_of_mem_replicate hquote) (by decide)

theorem Usable.exists_decode_longSequence {dialect : Dialect} (h : dialect.Usable) :
    ∃ text, dialect.decode text = .ok dialect.longSequence := by
  let token := dialect.longToken.text
  let kinds : List Lexeme.Kind :=
    [.word dialect.head, .openParen, .word dialect.responseVar, .closeParen, .neck,
      .word "term".toList, .openParen, .word dialect.responseVar, .comma, .word token, .closeParen]
  have hkinds : ∀ kind ∈ kinds, kind.Writable dialect.neck := by
    simp only [kinds, List.forall_mem_cons]
    exact ⟨h.head, trivial, h.responseVar, trivial, h.neck, Lexeme.writable_term dialect.neck,
      trivial, h.responseVar, trivial, dialect.writable_longToken, trivial, by simp⟩
  obtain ⟨text, lexemes, hlexemes, hmap⟩ := Lexeme.exists_lexes_of_writable hkinds 0
  have hcount : dialect.emptyRule.count 'x' < text.count 'x' :=
    calc dialect.emptyRule.count 'x' < token.count 'x' := by simp [token, longToken]
      _ ≤ text.count 'x' := (hlexemes.word_sublist (by simp [hmap, kinds])).count_le 'x'
  exact ⟨text, decode_of_lexemes (Sequence.spellable_push_word (by decide) _) (by simp)
    (Lexeme.scanFrom_eq_ok_iff_lexes.2 hlexemes) hmap
    (isEmptyRule_eq_false_of_count_lt (by decide) (by decide) hcount)⟩

/-- A dialect has a rule about one word exactly if it is usable, and otherwise it has
no rule at all.  Settings that keep their rules do not make it usable, but a neck that
starts like no other lexeme does. -/
theorem exists_decode_word_iff_usable (dialect : Dialect) :
    ((∃ text sequence, dialect.decode text = .ok sequence ∧
        sequence.terms.map (fun term => term.body.kind) = [.primary .word]) ↔ dialect.Usable) ∧
      ((∃ text rule, dialect.parse text = .ok rule) ↔ dialect.Usable) ∧
      (Lexeme.PlainNeck dialect.neck → dialect.Usable) := by
  refine ⟨⟨?_, ?_⟩, ⟨?_, ?_⟩, usable_of_plainNeck⟩
  · rintro ⟨text, sequence, hdecode, hkinds⟩
    exact usable_of_decode_word hdecode hkinds
  · intro h
    obtain ⟨text, hdecode⟩ := h.exists_decode_longSequence
    exact ⟨text, dialect.longSequence, hdecode, rfl⟩
  · rintro ⟨text, rule, hrule⟩
    exact usable_of_parse hrule
  · intro h
    obtain ⟨text, hdecode⟩ := h.exists_decode_longSequence
    exact ⟨text, exists_parse_of_decode hdecode (by simp [longSequence])⟩

end Dialect

namespace NotationWitness

/-- A dialect whose own words have blanks in them. -/
def spaced : Dialect :=
  { head := "the answer".toList, neck := "<-".toList, responseVar := " A".toList }

theorem exists_decode_word_iff_usable_spaced :
    Lexeme.PlainNeck spaced.neck ∧
      ∃ text sequence, spaced.decode text = .ok sequence ∧
        sequence.terms.map (fun term => term.body.kind) = [.primary .word] := by
  have hneck : Lexeme.PlainNeck spaced.neck :=
    ⟨'<', ['-'], rfl, by decide, by decide, rfl, by decide⟩
  obtain ⟨hword, -, husable⟩ := Dialect.exists_decode_word_iff_usable spaced
  exact ⟨hneck, hword.2 (husable hneck)⟩

/-- Settings in which a period stands between the head and the clauses. -/
def period : Settings :=
  { dialect := { neck := ".".toList } }

/-- The settings keep all their rules, and no text stands for a word. -/
theorem not_exists_decode_word_period :
    period.fault? = none ∧
      ¬∃ text sequence, period.dialect.decode text = .ok sequence ∧
        sequence.terms.map (fun term => term.body.kind) = [.primary .word] := by
  refine ⟨by decide +kernel, ?_⟩
  rintro ⟨text, sequence, hdecode, hkinds⟩
  obtain ⟨c, tail, hneck, hstart⟩ := (Dialect.usable_of_decode_word hdecode hkinds).neck
  obtain rfl : '.' = c := (List.cons.inj hneck).1
  exact absurd hstart.not_punctuation (by decide)

end NotationWitness

end GradingRule
