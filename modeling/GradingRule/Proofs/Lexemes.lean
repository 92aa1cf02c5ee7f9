/-
What the lexer reads.  `Spelled` says once how a lexeme can be written, given what
comes after it, and `Lexes` how a text splits into lexemes; the lexer finds exactly
that split.  So every fact about lexemes is an induction over the split.
-/
import GradingRule.Rule.Lexing
import GradingRule.Proofs.Fallible
import Mathlib.Data.List.Infix

namespace GradingRule

namespace Text

/-- The offset lies between two characters of the text, or at one of its ends. -/
def Boundary (text : Text) (offset : Nat) : Prop :=
  ∃ before after, text = before ++ after ∧ byteSize before = offset

/-- A cut never misses between two boundaries. -/
theorem Boundary.exists_slice? {text : Text} {start stop : Nat} (hstart : text.Boundary start)
    (hstop : text.Boundary stop) (hlt : start < stop) :
    ∃ middle, middle ≠ [] ∧ slice? text start stop = some middle := by
  obtain ⟨before, rest, rfl, rfl⟩ := hstart
  obtain ⟨front, after, heq, rfl⟩ := hstop
  rcases List.append_eq_append_iff.1 heq with ⟨middle, rfl, rfl⟩ | ⟨middle, rfl, rfl⟩
  · rw [byteSize_append] at hlt ⊢
    refine ⟨middle, ?_, slice?_append before middle after⟩
    rintro rfl
    simp at hlt
  · rw [byteSize_append] at hlt
    omega

end Text

namespace Lexeme

/-- A character that a bare word or the neck can start with. -/
structure CanStart (c : Char) : Prop where
  not_blank : isBlank c = false
  not_punctuation : punctuation? c = none
  not_control : isControl c = false

theorem CanStart.not_delimiter {c : Char} (h : CanStart c) : isDelimiter c = false := by
  have hblank := h.not_blank
  have hpunctuation := h.not_punctuation
  rw [punctuation?.eq_def] at hpunctuation
  split at hpunctuation <;> simp_all [isDelimiter]

theorem eq_of_punctuation? {c : Char} {kind : Kind} (h : punctuation? c = some kind) :
    (c = '(' ∧ kind = .openParen) ∨ (c = ')' ∧ kind = .closeParen) ∨
      (c = ',' ∧ kind = .comma) ∨ (c = ';' ∧ kind = .semicolon) ∨
      (c = '.' ∧ kind = .period) := by
  rw [punctuation?.eq_def] at h
  split at h <;> simp_all

theorem punctuation?_eq_none {c : Char} (hdelimiter : isDelimiter c = false) (hperiod : c ≠ '.') :
    punctuation? c = none := by
  refine Option.eq_none_iff_forall_ne_some.2 fun kind hkind => ?_
  rcases eq_of_punctuation? hkind with ⟨rfl, -⟩ | ⟨rfl, -⟩ | ⟨rfl, -⟩ | ⟨rfl, -⟩ | ⟨rfl, -⟩
  · exact absurd hdelimiter (by decide)
  · exact absurd hdelimiter (by decide)
  · exact absurd hdelimiter (by decide)
  · exact absurd hdelimiter (by decide)
  · exact hperiod rfl

/-- Where a lexeme of this kind is written as `c` and `tail`, with `after` behind
it.  Neither the neck nor another quote may lie across the end of a word. -/
inductive Spelled (neck : Text) : Kind → Char → Text → Text → Prop
  | punctuation {kind : Kind} {c : Char} {after : Text} :
      punctuation? c = some kind → Spelled neck kind c [] after
  | neck {c : Char} {tail after : Text} :
      neck = c :: tail → CanStart c → Spelled neck .neck c tail after
  | quoted {word after : Text} :
      startsWithNeck neck (Text.quoted word ++ after) = false →
      after.head? ≠ some '\'' →
      Spelled neck (.word word) '\'' (Text.doubleQuotes word ++ ['\'']) after
  | bare {c : Char} {tail after : Text} :
      CanStart c → c ≠ '\'' →
      (∀ d ∈ tail, isDelimiter d = false ∧ isControl d = false) →
      (∀ part, part ≠ [] → part <:+ c :: tail →
        startsWithNeck neck (part ++ after) = false) →
      bareTail neck after = [] →
      Spelled neck (.word (c :: tail)) c tail after

/-- The lexemes of a text that starts at the offset, blanks between them. -/
inductive Lexes (neck : Text) : Nat → Text → List Lexeme → Prop
  | nil {offset : Nat} : Lexes neck offset [] []
  | blank {offset : Nat} {c : Char} {rest : Text} {lexemes : List Lexeme} :
      isBlank c = true → Lexes neck (offset + c.utf8Size) rest lexemes →
      Lexes neck offset (c :: rest) lexemes
  | lexeme {offset : Nat} {kind : Kind} {c : Char} {tail after : Text}
      {lexemes : List Lexeme} :
      isBlank c = false → Spelled neck kind c tail after →
      Lexes neck (offset + Text.byteSize (c :: tail)) after lexemes →
      Lexes neck offset (c :: (tail ++ after))
        (⟨kind, offset, offset + Text.byteSize (c :: tail)⟩ :: lexemes)

theorem startsWithNeck_eq_true_iff {neck text : Text} :
    startsWithNeck neck text = true ↔ neck ≠ [] ∧ neck <+: text := by
  simp [startsWithNeck]

theorem startsWithNeck_eq_false_iff {neck text : Text} :
    startsWithNeck neck text = false ↔ (neck ≠ [] → ¬neck <+: text) := by
  rw [← Bool.not_eq_true, startsWithNeck_eq_true_iff, not_and]

theorem prefix_or_exists_of_prefix_append_cons {neck front after : Text} {c : Char}
    (h : neck <+: front ++ c :: after) : neck <+: front ∨ ∃ rest, neck = front ++ c :: rest := by
  obtain ⟨back, hback⟩ := h
  rcases List.append_eq_append_iff.1 hback with ⟨middle, rfl, -⟩ | ⟨middle, rfl, hmiddle⟩
  · exact .inl (List.prefix_append _ _)
  · cases middle with
    | nil => exact .inl (by simp)
    | cons d rest =>
        obtain rfl : c = d := (List.cons.inj hmiddle).1
        exact .inr ⟨rest, rfl⟩

/-- A bare word goes on up to the first place where it has to end. -/
theorem bareTail_eq_iff {neck rest tail : Text} :
    bareTail neck rest = tail ↔
      ∃ after, rest = tail ++ after ∧
        (∀ d ∈ tail, isDelimiter d = false ∧ isControl d = false) ∧
        (∀ part, part ≠ [] → part <:+ tail → startsWithNeck neck (part ++ after) = false) ∧
        bareTail neck after = [] := by
  constructor
  · have hnone : ∀ after part : Text, part ≠ [] → part <:+ [] →
        startsWithNeck neck (part ++ after) = false :=
      fun _ _ hne hpart => absurd (List.suffix_nil.1 hpart) hne
    rintro rfl
    fun_induction bareTail neck rest with
    | case1 => exact ⟨[], rfl, by simp, hnone [], rfl⟩
    | case2 c rest hstop =>
        exact ⟨c :: rest, rfl, by simp, hnone (c :: rest), by rw [bareTail, if_pos hstop]⟩
    | case3 c rest hgoes ih =>
        simp only [Bool.or_eq_true, not_or, Bool.not_eq_true] at hgoes
        obtain ⟨⟨hdelimiter, hcontrol⟩, hneck⟩ := hgoes
        obtain ⟨after, hrest, hplain, hparts, hend⟩ := ih
        refine ⟨after, congrArg (c :: ·) hrest, ?_, ?_, hend⟩
        · intro d hd
          rcases List.mem_cons.1 hd with rfl | hd
          · exact ⟨hdelimiter, hcontrol⟩
          · exact hplain d hd
        · intro part hne hpart
          rcases List.suffix_cons_iff.1 hpart with rfl | hpart
          · rwa [List.cons_append, ← hrest]
          · exact hparts part hne hpart
  · rintro ⟨after, rfl, hplain, hparts, hend⟩
    induction tail with
    | nil => exact hend
    | cons c tail ih =>
        obtain ⟨⟨hdelimiter, hcontrol⟩, hplain⟩ := List.forall_mem_cons.1 hplain
        have hneck := hparts (c :: tail) (by simp) (List.suffix_refl _)
        rw [List.cons_append] at hneck ⊢
        rw [bareTail, if_neg (by simp [hdelimiter, hcontrol, hneck]),
          ih hplain fun part hne hpart => hparts part hne (List.suffix_cons_iff.2 (.inr hpart))]

theorem bareTail_cons_eq_nil_iff {neck : Text} {c : Char} {rest : Text} :
    bareTail neck (c :: rest) = [] ↔
      isDelimiter c = true ∨ isControl c = true ∨ startsWithNeck neck (c :: rest) = true := by
  rw [bareTail]
  split_ifs with hstop
  · simpa [or_assoc] using hstop
  · simpa [or_assoc] using hstop

theorem head?_of_startsWithNeck {neck : Text} {c : Char} {rest : Text}
    (h : startsWithNeck neck (c :: rest) = true) : neck.head? = some c := by
  obtain ⟨hne, hprefix⟩ := startsWithNeck_eq_true_iff.1 h
  obtain ⟨first, others, rfl⟩ := List.exists_cons_of_ne_nil hne
  obtain ⟨rfl, -⟩ := List.cons_prefix_cons.1 hprefix
  rfl

/-- A punctuation mark is always a lexeme by itself. -/
theorem Spelled.eq_mark_of_punctuation? {neck : Text} {kind mark : Kind} {c : Char}
    {tail after : Text} (h : Spelled neck kind c tail after)
    (hmark : punctuation? c = some mark) : kind = mark := by
  cases h with
  | punctuation hkind => exact Option.some.inj (hkind.symm.trans hmark)
  | neck _ hstart => exact absurd (hstart.not_punctuation.symm.trans hmark) (by simp)
  | quoted => exact absurd hmark (by simp [punctuation?])
  | bare hstart => exact absurd (hstart.not_punctuation.symm.trans hmark) (by simp)

/-- Where the neck stands it is read, unless a punctuation mark goes before it. -/
theorem Spelled.eq_neck_of_startsWithNeck {neck : Text} {kind : Kind} {c : Char}
    {tail after : Text} (h : Spelled neck kind c tail after)
    (hstarts : startsWithNeck neck (c :: (tail ++ after)) = true)
    (hpunctuation : punctuation? c = none) : neck = c :: tail := by
  cases h with
  | punctuation hkind => exact absurd (hpunctuation.symm.trans hkind) (by simp)
  | neck hneck _ => exact hneck
  | quoted hneck _ => exact absurd (hneck.symm.trans hstarts) (by decide)
  | bare _ _ _ hparts _ =>
      have hneck := hparts (c :: tail) (by simp) (List.suffix_refl _)
      exact absurd (hneck.symm.trans hstarts) (by decide)

theorem spelled_of_scan {neck : Text} {offset : Nat} {c : Char} {rest tail : Text}
    {kind : Kind} (hblank : isBlank c = false) (h : scan neck offset c rest = .ok (kind, tail)) :
    ∃ after, rest = tail ++ after ∧ Spelled neck kind c tail after := by
  rw [scan] at h
  split at h
  · next found hfound =>
      obtain ⟨rfl, rfl⟩ := Prod.mk.inj (Except.ok.inj h)
      exact ⟨rest, rfl, .punctuation hfound⟩
  · next hnone =>
      split_ifs at h with hcontrol hneck hquote
      · obtain ⟨rfl, rfl⟩ := Prod.mk.inj (Except.ok.inj h)
        obtain ⟨hne, after, hafter⟩ := startsWithNeck_eq_true_iff.1 hneck
        obtain ⟨first, tail, rfl⟩ := List.exists_cons_of_ne_nil hne
        obtain ⟨rfl, rfl⟩ := List.cons.inj hafter
        exact ⟨after, rfl, .neck rfl ⟨hblank, hnone, by simpa using hcontrol⟩⟩
      · subst hquote
        split at h
        · next word after hread =>
            obtain ⟨rfl, rfl⟩ := Prod.mk.inj (Except.ok.inj h)
            obtain ⟨rfl, hhead⟩ := Text.eq_of_readQuoted? hread
            refine ⟨after, by simp, .quoted ?_ hhead⟩
            simpa [Text.quoted] using hneck
        · exact absurd h (by simp)
      · obtain ⟨rfl, htail⟩ := Prod.mk.inj (Except.ok.inj h)
        obtain ⟨after, hrest, hplain, hparts, hend⟩ := bareTail_eq_iff.1 htail
        rw [htail]
        refine ⟨after, hrest,
          .bare ⟨hblank, hnone, by simpa using hcontrol⟩ hquote hplain ?_ hend⟩
        intro part hne hpart
        rcases List.suffix_cons_iff.1 hpart with rfl | hpart
        · rw [List.cons_append, ← hrest]
          simpa using hneck
        · exact hparts part hne hpart

theorem Spelled.scan_eq_ok {neck : Text} {kind : Kind} {c : Char} {tail after : Text}
    (h : Spelled neck kind c tail after) (offset : Nat) :
    scan neck offset c (tail ++ after) = .ok (kind, tail) := by
  cases h with
  | punctuation hkind => rw [scan, hkind]
  | neck hneck hstart =>
      subst hneck
      have hstarts : startsWithNeck (c :: tail) (c :: (tail ++ after)) = true :=
        startsWithNeck_eq_true_iff.2 ⟨by simp, after, rfl⟩
      rw [scan, hstart.not_punctuation, hstart.not_control, hstarts]
      rfl
  | @quoted word after hneck hhead =>
      have hread := Text.readQuoted?_doubleQuotes word after hhead
      have hcontrol : isControl '\'' = false := by decide
      have hstarts : startsWithNeck neck
          ('\'' :: (Text.doubleQuotes word ++ '\'' :: after)) = false := by
        simpa [Text.quoted] using hneck
      rw [List.append_assoc, List.singleton_append, scan, hstarts, hread, hcontrol]
      rfl
  | bare hstart hquote hplain hparts hend =>
      have hstarts : startsWithNeck neck (c :: (tail ++ after)) = false :=
        hparts (c :: tail) (by simp) (List.suffix_refl _)
      have htail : bareTail neck (tail ++ after) = tail :=
        bareTail_eq_iff.2 ⟨after, rfl, hplain, fun part hne hpart =>
          hparts part hne (List.suffix_cons_iff.2 (.inr hpart)), hend⟩
      rw [scan, hstart.not_punctuation]
      simp [hstart.not_control, hstarts, hquote, htail]

theorem scanFrom_blank {neck : Text} {c : Char} (h : isBlank c = true) (offset : Nat)
    (after : Text) :
    scanFrom neck offset (c :: after) = scanFrom neck (offset + c.utf8Size) after := by
  rw [scanFrom, if_pos h]

/-- One step of the lexer takes one spelling. -/
theorem Spelled.scanFrom_eq {neck : Text} {kind : Kind} {c : Char} {tail after : Text}
    (h : Spelled neck kind c tail after) (hblank : isBlank c = false) (offset : Nat) :
    scanFrom neck offset (c :: (tail ++ after)) =
      (scanFrom neck (offset + Text.byteSize (c :: tail)) after).map
        (⟨kind, offset, offset + Text.byteSize (c :: tail)⟩ :: ·) := by
  rw [scanFrom, if_neg (by simp [hblank]), h.scan_eq_ok]
  simp only [List.drop_left]

/-- The lexer finds the lexemes that a text splits into, and only those. -/
theorem scanFrom_eq_ok_iff_lexes {neck : Text} {offset : Nat} {text : Text}
    {lexemes : List Lexeme} :
    scanFrom neck offset text = .ok lexemes ↔ Lexes neck offset text lexemes := by
  constructor
  · intro h
    fun_induction scanFrom neck offset text generalizing lexemes with
    | case1 =>
        obtain rfl := Except.ok.inj h
        exact .nil
    | case2 offset c rest hblank ih => exact .blank hblank (ih h)
    | case3 offset c rest hblank fault hscan => exact absurd h (by simp)
    | case4 offset c rest hblank kind tail hscan stop =>
        rename_i ih
        obtain ⟨others, hothers, rfl⟩ := map_eq_ok_iff.1 h
        have hunblank : isBlank c = false := by simpa using hblank
        obtain ⟨after, rfl, hspelled⟩ := spelled_of_scan hunblank hscan
        rw [List.drop_left] at hothers ih
        exact .lexeme hunblank hspelled (ih hothers)
  · intro h
    induction h with
    | nil => rw [scanFrom]
    | blank hblank _ ih => rw [scanFrom_blank hblank, ih]
    | lexeme hblank hspelled _ ih =>
        rw [hspelled.scanFrom_eq hblank, ih]
        rfl

/-- The lexeme takes up a part of the text, and not an empty one. -/
structure Placed (text : Text) (lexeme : Lexeme) : Prop where
  start : text.Boundary lexeme.start
  stop : text.Boundary lexeme.stop
  start_lt_stop : lexeme.start < lexeme.stop

theorem Lexes.offset_le_start {neck : Text} {offset : Nat} {text : Text}
    {lexemes : List Lexeme} (h : Lexes neck offset text lexemes) :
    ∀ lexeme ∈ lexemes, offset ≤ lexeme.start := by
  induction h with
  | nil => simp
  | blank _ _ ih => exact fun lexeme hlexeme => Nat.le_of_add_right_le (ih lexeme hlexeme)
  | lexeme _ _ _ ih =>
      intro lexeme hlexeme
      rcases List.mem_cons.1 hlexeme with rfl | hlexeme
      · exact Nat.le_refl _
      · exact Nat.le_of_add_right_le (ih lexeme hlexeme)

/-- Whatever stands in front of the text, every lexeme is spelled somewhere in it, and
the text behind the lexeme is read on from there. -/
theorem Lexes.exists_spelled {neck : Text} {offset : Nat} {text : Text}
    {lexemes : List Lexeme} (h : Lexes neck offset text lexemes) (front : Text)
    (hfront : Text.byteSize front = offset) :
    ∀ lexeme ∈ lexemes, ∃ before c tail after others,
      front ++ text = before ++ (c :: tail ++ after) ∧
      Text.byteSize before = lexeme.start ∧
      Text.byteSize before + Text.byteSize (c :: tail) = lexeme.stop ∧
      Spelled neck lexeme.kind c tail after ∧ Lexes neck lexeme.stop after others := by
  induction h generalizing front with
  | nil => simp
  | @blank offset c rest lexemes _ _ ih =>
      have hnext := ih (front ++ [c]) (by simp [hfront])
      rwa [List.append_assoc] at hnext
  | @lexeme offset kind c tail after lexemes _ hspelled hafter ih =>
      have hnext := ih (front ++ c :: tail) (by simp [hfront])
      rw [List.append_assoc] at hnext
      exact List.forall_mem_cons.2
        ⟨⟨front, c, tail, after, lexemes, rfl, hfront, by rw [hfront], hspelled, hafter⟩, hnext⟩

theorem Lexes.placed {neck text : Text} {lexemes : List Lexeme}
    (h : Lexes neck 0 text lexemes) : ∀ lexeme ∈ lexemes, lexeme.Placed text := by
  intro lexeme hlexeme
  obtain ⟨before, c, tail, after, -, htext, hstart, hstop, -⟩ :=
    h.exists_spelled [] rfl lexeme hlexeme
  rw [List.nil_append] at htext
  refine ⟨⟨before, _, htext, hstart⟩, ⟨before ++ c :: tail, after, by simp [htext], ?_⟩, ?_⟩
  · rw [Text.byteSize_append, hstop]
  · have hpos := c.utf8Size_pos
    rw [Text.byteSize_cons] at hstop
    omega

/-- Lexemes do not overlap. -/
theorem Lexes.ordered {neck : Text} {offset : Nat} {text : Text} {lexemes : List Lexeme}
    (h : Lexes neck offset text lexemes) :
    lexemes.Pairwise fun left right => left.stop ≤ right.start := by
  induction h with
  | nil => exact .nil
  | blank _ _ ih => exact ih
  | lexeme _ _ hafter ih => exact .cons hafter.offset_le_start ih

/-- The text from one lexeme to another is there. -/
theorem exists_slice?_of_sublist {neck text : Text} {lexemes : List Lexeme}
    (h : ofText neck text = .ok lexemes) {first last : Lexeme}
    (hsublist : [first, last].Sublist lexemes) :
    ∃ middle, middle ≠ [] ∧ Text.slice? text first.start last.stop = some middle := by
  have hlexes := scanFrom_eq_ok_iff_lexes.1 h
  have hplaced := hlexes.placed
  have hfirst := hplaced first (hsublist.subset (by simp))
  have hlast := hplaced last (hsublist.subset (by simp))
  have hle : first.stop ≤ last.start := by
    simpa using hlexes.ordered.sublist hsublist
  exact hfirst.start.exists_slice? hlast.stop <|
    calc first.start < first.stop := hfirst.start_lt_stop
      _ ≤ last.start := hle
      _ < last.stop := hlast.start_lt_stop

end Lexeme

end GradingRule
