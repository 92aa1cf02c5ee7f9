/-
What the spans of the lexemes mean.  The lexer loses nothing: between the lexemes of a
text there are only blanks, and every lexeme is what its part of the text spells.
-/
import GradingRule.Proofs.Spelling

namespace GradingRule

theorem Text.Boundary.le_byteSize {text : Text} {offset : Nat} (h : text.Boundary offset) :
    offset ≤ text.byteSize := by
  obtain ⟨before, after, rfl, rfl⟩ := h
  rw [byteSize_append]
  exact Nat.le_add_right _ _

namespace Lexeme

/-- The spans in front of the first of some lexemes, between them and behind the last,
in a text of `size` bytes from some byte on. -/
def gaps (size : Nat) : Nat → List Lexeme → List (Nat × Nat)
  | offset, [] => [(offset, size)]
  | offset, lexeme :: rest => (offset, lexeme.start) :: gaps size lexeme.stop rest

/-- A word without quotes, with `after` behind it.  No neck starts in it, not even one
that reaches beyond its end. -/
structure StandsBare (neck word after : Text) : Prop where
  nonempty : word ≠ []
  plain : ∀ c ∈ word, isDelimiter c = false ∧ isControl c = false
  not_period : word.head? ≠ some '.'
  not_quote : word.head? ≠ some '\''
  no_neck : ∀ part, part ≠ [] → part <:+ word → neck ≠ [] → ¬neck <+: part ++ after
  ended : after = [] ∨ (∃ c rest, after = c :: rest ∧ isDelimiter c = true) ∨
    (neck ≠ [] ∧ neck <+: after)

/-- The part of the text that a lexeme takes up: a word is quoted or bare, and all else
has one spelling only. -/
inductive Kind.StandsAs (neck : Text) : Kind → Text → Text → Prop
  | spelled (kind : Kind) (after : Text) : StandsAs neck kind (kind.spell neck) after
  | bare {word after : Text} :
      StandsBare neck word after → StandsAs neck (.word word) word after

theorem spell_of_punctuation? (neck : Text) {c : Char} {kind : Kind}
    (h : punctuation? c = some kind) : kind.spell neck = [c] := by
  rcases eq_of_punctuation? h with ⟨rfl, rfl⟩ | ⟨rfl, rfl⟩ | ⟨rfl, rfl⟩ | ⟨rfl, rfl⟩ |
    ⟨rfl, rfl⟩ <;> rfl

theorem Spelled.not_control {neck : Text} {kind : Kind} {c : Char} {tail after : Text}
    (h : Spelled neck kind c tail after) : isControl c = false := by
  cases h with
  | punctuation hkind =>
      rcases eq_of_punctuation? hkind with ⟨rfl, -⟩ | ⟨rfl, -⟩ | ⟨rfl, -⟩ | ⟨rfl, -⟩ |
        ⟨rfl, -⟩ <;> decide
  | neck _ hstart => exact hstart.not_control
  | quoted => decide
  | bare hstart => exact hstart.not_control

theorem Lexes.not_control_of_cons {neck : Text} {offset : Nat} {c : Char} {rest : Text}
    {lexemes : List Lexeme} (h : Lexes neck offset (c :: rest) lexemes)
    (hblank : isBlank c = false) : isControl c = false := by
  cases h with
  | blank hc _ => exact absurd (hblank.symm.trans hc) (by decide)
  | lexeme _ hspelled _ => exact hspelled.not_control

/-- A bare word can end before a control character, but nothing is read from there. -/
theorem Lexes.ended_of_bareTail {neck : Text} {offset : Nat} {text : Text}
    {lexemes : List Lexeme} (h : Lexes neck offset text lexemes)
    (htail : bareTail neck text = []) :
    text = [] ∨ (∃ c rest, text = c :: rest ∧ isDelimiter c = true) ∨
      (neck ≠ [] ∧ neck <+: text) := by
  cases text with
  | nil => exact .inl rfl
  | cons c rest =>
      rcases bareTail_cons_eq_nil_iff.1 htail with hdelimiter | hcontrol | hneck
      · exact .inr (.inl ⟨c, rest, rfl, hdelimiter⟩)
      · cases hblank : isBlank c with
        | true => exact .inr (.inl ⟨c, rest, rfl, by simp [isDelimiter, hblank]⟩)
        | false => exact absurd (h.not_control_of_cons hblank) (by simp [hcontrol])
      · exact .inr (.inr (startsWithNeck_eq_true_iff.1 hneck))

theorem Spelled.standsAs {neck : Text} {kind : Kind} {c : Char} {tail after : Text}
    (h : Spelled neck kind c tail after) {offset : Nat} {lexemes : List Lexeme}
    (hafter : Lexes neck offset after lexemes) : kind.StandsAs neck (c :: tail) after := by
  cases h with
  | punctuation hkind => exact spell_of_punctuation? neck hkind ▸ .spelled kind after
  | neck hneck _ => exact hneck ▸ .spelled .neck after
  | @quoted word _ _ _ => exact .spelled (.word word) after
  | bare hstart hquote hplain hparts hend =>
      refine .bare ⟨by simp, ?_, ?_, by simpa using hquote, ?_, hafter.ended_of_bareTail hend⟩
      · exact List.forall_mem_cons.2 ⟨⟨hstart.not_delimiter, hstart.not_control⟩, hplain⟩
      · rw [List.head?_cons, ne_eq, Option.some.injEq]
        rintro rfl
        exact absurd hstart.not_punctuation (by decide)
      · exact fun part hne hpart => startsWithNeck_eq_false_iff.1 (hparts part hne hpart)

/-- What is skipped up to a lexeme, or up to the end, is blank.  The induction carries
along the blanks that were already skipped. -/
theorem Lexes.blank_gaps {neck : Text} {offset : Nat} {text : Text} {lexemes : List Lexeme}
    (h : Lexes neck offset text lexemes) (front skipped : Text)
    (hsize : Text.byteSize front + Text.byteSize skipped = offset)
    (hblank : ∀ c ∈ skipped, isBlank c = true) :
    ∀ gap ∈ gaps (Text.byteSize (front ++ (skipped ++ text))) (Text.byteSize front) lexemes,
      ∃ blanks, Text.slice? (front ++ (skipped ++ text)) gap.1 gap.2 = some blanks ∧
        ∀ c ∈ blanks, isBlank c = true := by
  induction h generalizing front skipped with
  | nil =>
      refine List.forall_mem_singleton.2 ⟨skipped, ?_, hblank⟩
      have hslice := Text.slice?_append front skipped []
      simpa using hslice
  | @blank offset c rest lexemes hc _ ih =>
      have hnext := ih front (skipped ++ [c]) (by simp [← hsize, Nat.add_assoc])
        (by simpa [or_imp, forall_and] using ⟨hblank, hc⟩)
      rwa [List.append_assoc, List.singleton_append] at hnext
  | @lexeme offset kind c tail after lexemes _ _ _ ih =>
      have hnext := ih (front ++ (skipped ++ c :: tail)) [] (by simp [← hsize, Nat.add_assoc])
        (by simp)
      refine List.forall_mem_cons.2 ⟨⟨skipped, ?_, hblank⟩, ?_⟩
      · rw [← hsize]
        exact Text.slice?_append front skipped _
      · simpa [← hsize, Nat.add_assoc] using hnext

/-- The lexemes of a text and the blanks around them, with nothing left over. -/
structure Tiles (neck text : Text) (lexemes : List Lexeme) : Prop where
  placed : ∀ lexeme ∈ lexemes, lexeme.Placed text ∧ lexeme.stop ≤ Text.byteSize text
  ordered : lexemes.Pairwise fun left right => left.stop ≤ right.start
  blank : ∀ gap ∈ gaps (Text.byteSize text) 0 lexemes, ∃ blanks,
    Text.slice? text gap.1 gap.2 = some blanks ∧ ∀ c ∈ blanks, isBlank c = true
  spelled : ∀ lexeme ∈ lexemes, ∃ part after,
    Text.slice? text lexeme.start lexeme.stop = some part ∧
      Text.dropBytes? lexeme.stop text = some after ∧ lexeme.kind.StandsAs neck part after

/-- The lexemes of a text stand one after the other between characters of the text,
each of them is what its part of the text spells, and the rest of the text is blank. -/
theorem ofText_tiles {neck text : Text} {lexemes : List Lexeme}
    (h : ofText neck text = .ok lexemes) : Tiles neck text lexemes := by
  have hlexes := scanFrom_eq_ok_iff_lexes.1 h
  have hplaced := hlexes.placed
  refine ⟨fun lexeme hlexeme => ?_, hlexes.ordered, hlexes.blank_gaps [] [] rfl (by simp),
    fun lexeme hlexeme => ?_⟩
  · exact ⟨hplaced lexeme hlexeme, (hplaced lexeme hlexeme).stop.le_byteSize⟩
  · obtain ⟨before, c, tail, after, others, htext, hstart, hstop, hspelled, hafter⟩ :=
      hlexes.exists_spelled [] rfl lexeme hlexeme
    rw [List.nil_append] at htext
    refine ⟨c :: tail, after, ?_, ?_, hspelled.standsAs hafter⟩
    · rw [htext, ← hstart, ← hstop, Text.slice?_append]
    · have hdrop := Text.dropBytes?_append (before ++ c :: tail) after
      rwa [Text.byteSize_append, hstop, List.append_assoc, ← htext] at hdrop

end Lexeme

namespace SpansWitness

/-- A wide blank, and a bare word with a quote inside that the neck ends. -/
def text : Text :=
  Char.ofNat 0x3000 :: "h(A) :-é'x:-'it''s'.".toList

def lexemes : List Lexeme :=
  [⟨.word "h".toList, 3, 4⟩, ⟨.openParen, 4, 5⟩, ⟨.word "A".toList, 5, 6⟩,
    ⟨.closeParen, 6, 7⟩, ⟨.neck, 8, 10⟩, ⟨.word "é'x".toList, 10, 14⟩, ⟨.neck, 14, 16⟩,
    ⟨.word "it's".toList, 16, 23⟩, ⟨.period, 23, 24⟩]

theorem ofText_tiles_bare_and_quoted :
    Lexeme.ofText ":-".toList text = .ok lexemes ∧ Lexeme.Tiles ":-".toList text lexemes := by
  have hlexemes : Lexeme.ofText ":-".toList text = .ok lexemes := by decide +kernel
  exact ⟨hlexemes, Lexeme.ofText_tiles hlexemes⟩

end SpansWitness

end GradingRule
