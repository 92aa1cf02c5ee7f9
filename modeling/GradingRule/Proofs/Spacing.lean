/-
Blanks between lexemes.  Blanks that are put where no lexeme is cut move the lexemes
behind them and change nothing else, so a rule means the same with them and without.
-/
import GradingRule.Proofs.Places
import GradingRule.Proofs.Spans

namespace GradingRule

namespace Lexeme

/-- The lexeme with so many bytes more in front of it. -/
def movedBy (bytes : Nat) (lexeme : Lexeme) : Lexeme :=
  ⟨lexeme.kind, lexeme.start + bytes, lexeme.stop + bytes⟩

/-- The lexeme after so many bytes were put in at `cut`. -/
def movedPast (cut bytes : Nat) (lexeme : Lexeme) : Lexeme :=
  if cut ≤ lexeme.start then lexeme.movedBy bytes else lexeme

/-- None of the lexemes reaches across the place. -/
def Outside (lexemes : List Lexeme) (place : Nat) : Prop :=
  ∀ lexeme ∈ lexemes, ¬(lexeme.start < place ∧ place < lexeme.stop)

instance (lexemes : List Lexeme) (place : Nat) : Decidable (Outside lexemes place) :=
  inferInstanceAs (Decidable (∀ lexeme ∈ lexemes, ¬(_ ∧ _)))

@[simp] theorem movedPast_kind (cut bytes : Nat) (lexeme : Lexeme) :
    (lexeme.movedPast cut bytes).kind = lexeme.kind := by
  rw [movedPast]
  split <;> rfl

theorem Lexes.movedBy {neck : Text} {offset : Nat} {text : Text} {lexemes : List Lexeme}
    (h : Lexes neck offset text lexemes) (bytes : Nat) :
    Lexes neck (offset + bytes) text (lexemes.map (Lexeme.movedBy bytes)) := by
  induction h with
  | nil => exact .nil
  | blank hblank _ ih =>
      rw [Nat.add_right_comm] at ih
      exact .blank hblank ih
  | lexeme hblank hspelled _ ih =>
      rw [Nat.add_right_comm] at ih
      rw [List.map_cons, Lexeme.movedBy, Nat.add_right_comm]
      exact .lexeme hblank hspelled ih

theorem Lexes.skip {neck : Text} {offset : Nat} {blanks text : Text} {lexemes : List Lexeme}
    (hblanks : ∀ c ∈ blanks, isBlank c = true)
    (h : Lexes neck (offset + Text.byteSize blanks) text lexemes) :
    Lexes neck offset (blanks ++ text) lexemes := by
  induction blanks generalizing offset with
  | nil => exact h
  | cons c rest ih =>
      obtain ⟨hc, hrest⟩ := List.forall_mem_cons.1 hblanks
      rw [Text.byteSize_cons, ← Nat.add_assoc] at h
      exact .blank hc (ih hrest h)

/-- Blanks in front of a text move all its lexemes. -/
theorem Lexes.blanks_append {neck : Text} {offset : Nat} {blanks text : Text}
    {lexemes : List Lexeme} (h : Lexes neck offset text lexemes)
    (hblanks : ∀ c ∈ blanks, isBlank c = true) :
    Lexes neck offset (blanks ++ text)
      (lexemes.map (movedPast offset (Text.byteSize blanks))) := by
  have hmoved : lexemes.map (movedPast offset (Text.byteSize blanks)) =
      lexemes.map (Lexeme.movedBy (Text.byteSize blanks)) :=
    List.map_congr_left fun lexeme hlexeme => if_pos (h.offset_le_start lexeme hlexeme)
  rw [hmoved]
  exact .skip hblanks (h.movedBy _)

/-- A neck without blanks does not start anew where blanks are put in. -/
theorem startsWithNeck_insert {neck front back blanks : Text}
    (hneck : ∀ c ∈ neck, isBlank c = false) (hblanks : ∀ c ∈ blanks, isBlank c = true)
    (h : startsWithNeck neck (front ++ back) = false) :
    startsWithNeck neck (front ++ (blanks ++ back)) = false := by
  cases blanks with
  | nil => exact h
  | cons blank blanks =>
      rw [startsWithNeck_eq_false_iff] at h ⊢
      intro hne hstarts
      rcases prefix_or_exists_of_prefix_append_cons hstarts with hfront | ⟨rest, rfl⟩
      · exact h hne (hfront.trans (List.prefix_append _ _))
      · have hblank := hneck blank (by simp)
        exact absurd (hblank.symm.trans (hblanks blank (by simp))) (by decide)

/-- A text that reaches further than a beginning of the same text has it as its own
beginning. -/
theorem exists_eq_append_of_byteSize_le {left right front back : Text}
    (h : left ++ right = front ++ back) (hle : Text.byteSize left ≤ Text.byteSize front) :
    ∃ middle, front = left ++ middle ∧ right = middle ++ back := by
  rcases List.append_eq_append_iff.1 h with ⟨middle, hfront, hright⟩ | ⟨middle, rfl, rfl⟩
  · exact ⟨middle, hfront, hright⟩
  · rw [Text.byteSize_append] at hle
    cases middle with
    | nil => exact ⟨[], by simp, by simp⟩
    | cons c rest =>
        have hpos := c.utf8Size_pos
        rw [Text.byteSize_cons] at hle
        omega

/-- A cut behind the start of the first lexeme is behind its end. -/
theorem Outside.exists_eq_append {kind : Kind} {offset : Nat} {c : Char}
    {tail after front back : Text} {lexemes : List Lexeme}
    (h : Outside (⟨kind, offset, offset + Text.byteSize (c :: tail)⟩ :: lexemes)
      (offset + Text.byteSize (c :: front)))
    (htext : tail ++ after = front ++ back) :
    ∃ middle, front = tail ++ middle ∧ after = middle ++ back := by
  refine exists_eq_append_of_byteSize_le htext ?_
  have hnot := h _ List.mem_cons_self
  have hpos := c.utf8Size_pos
  simp only [Text.byteSize_cons] at hnot
  omega

theorem Outside.tail {lexeme : Lexeme} {lexemes : List Lexeme} {place : Nat}
    (h : Outside (lexeme :: lexemes) place) : Outside lexemes place :=
  fun other hother => h other (List.mem_cons_of_mem lexeme hother)

/-- A bare word still ends where it ended: a neck that ended it was a lexeme, and none
is cut. -/
theorem Lexes.bareTail_insert {neck : Text} {offset : Nat} {front back blanks : Text}
    {lexemes : List Lexeme} (h : Lexes neck offset (front ++ back) lexemes)
    (hcut : Outside lexemes (offset + Text.byteSize front)) (hperiod : neck.head? ≠ some '.')
    (hblanks : ∀ c ∈ blanks, isBlank c = true) (hend : bareTail neck (front ++ back) = []) :
    bareTail neck (front ++ (blanks ++ back)) = [] := by
  cases front with
  | nil =>
      cases blanks with
      | nil => exact hend
      | cons blank blanks =>
          have hblank : isBlank blank = true := hblanks blank (by simp)
          exact bareTail_cons_eq_nil_iff.2 (.inl (by simp [isDelimiter, hblank]))
  | cons d front =>
      refine bareTail_cons_eq_nil_iff.2 ?_
      rcases bareTail_cons_eq_nil_iff.1 hend with hdelimiter | hcontrol | hstarts
      · exact .inl hdelimiter
      · exact .inr (.inl hcontrol)
      · generalize htext : d :: front ++ back = text at h
        cases h with
        | nil => exact absurd htext (by simp)
        | blank hblank _ =>
            obtain ⟨rfl, -⟩ := List.cons.inj htext
            exact .inl (by simp [isDelimiter, hblank])
        | @lexeme _ kind c tail after lexemes _ hspelled _ =>
            obtain ⟨rfl, hrest⟩ := List.cons.inj htext
            obtain ⟨middle, rfl, rfl⟩ := hcut.exists_eq_append hrest.symm
            refine or_iff_not_imp_left.2 fun hdelimiter => .inr ?_
            -- A neck that starts with a period could end a word and not be a lexeme.
            have hpunctuation : punctuation? d = none := by
              refine punctuation?_eq_none (by simpa using hdelimiter) ?_
              rintro rfl
              exact hperiod (head?_of_startsWithNeck hstarts)
            have hneck := hspelled.eq_neck_of_startsWithNeck (htext ▸ hstarts) hpunctuation
            refine startsWithNeck_eq_true_iff.2 ⟨by simp [hneck], middle ++ (blanks ++ back), ?_⟩
            simp [hneck]

/-- A lexeme is still spelled as it was with blanks behind it. -/
theorem Spelled.insert {neck : Text} {kind : Kind} {c : Char} {tail front back blanks : Text}
    (h : Spelled neck kind c tail (front ++ back)) {offset : Nat} {lexemes : List Lexeme}
    (hafter : Lexes neck offset (front ++ back) lexemes)
    (hcut : Outside lexemes (offset + Text.byteSize front))
    (hneck : ∀ c ∈ neck, isBlank c = false) (hperiod : neck.head? ≠ some '.')
    (hblanks : ∀ c ∈ blanks, isBlank c = true) :
    Spelled neck kind c tail (front ++ (blanks ++ back)) := by
  cases h with
  | punctuation hkind => exact .punctuation hkind
  | neck heq hstart => exact .neck heq hstart
  | quoted hstarts hquote =>
      rw [← List.append_assoc] at hstarts
      refine .quoted ?_ ?_
      · rw [← List.append_assoc]
        exact startsWithNeck_insert hneck hblanks hstarts
      · cases front with
        | cons d front => exact hquote
        | nil =>
            cases blanks with
            | nil => exact hquote
            | cons blank blanks =>
                have hblank := hblanks blank (by simp)
                rw [List.nil_append, List.cons_append, List.head?_cons, ne_eq, Option.some.injEq]
                rintro rfl
                exact absurd hblank (by decide)
  | bare hstart hquote hplain hparts hend =>
      refine .bare hstart hquote hplain (fun part hne hpart => ?_)
        (hafter.bareTail_insert hcut hperiod hblanks hend)
      have hstarts := hparts part hne hpart
      rw [← List.append_assoc] at hstarts ⊢
      exact startsWithNeck_insert hneck hblanks hstarts

/-- Blanks that are put where no lexeme is cut move the lexemes behind them. -/
theorem Lexes.insert_blanks {neck : Text} {offset : Nat} {front back blanks : Text}
    {lexemes : List Lexeme} (h : Lexes neck offset (front ++ back) lexemes)
    (hcut : Outside lexemes (offset + Text.byteSize front))
    (hneck : ∀ c ∈ neck, isBlank c = false) (hperiod : neck.head? ≠ some '.')
    (hblanks : ∀ c ∈ blanks, isBlank c = true) :
    Lexes neck offset (front ++ (blanks ++ back))
      (lexemes.map (movedPast (offset + Text.byteSize front) (Text.byteSize blanks))) := by
  generalize htext : front ++ back = text at h
  induction h generalizing front with
  | @nil offset =>
      obtain ⟨rfl, rfl⟩ := List.append_eq_nil_iff.1 htext
      have hnil : Lexes neck offset [] [] := .nil
      exact hnil.blanks_append hblanks
  | @blank offset c rest lexemes hblank hrest ih =>
      cases front with
      | nil =>
          obtain rfl := htext
          exact (Lexes.blank hblank hrest).blanks_append hblanks
      | cons d front =>
          obtain ⟨rfl, hfront⟩ := List.cons.inj htext
          rw [Text.byteSize_cons, ← Nat.add_assoc] at hcut ⊢
          exact .blank hblank (ih hcut hfront)
  | @lexeme offset kind c tail after lexemes hblank hspelled hafter ih =>
      cases front with
      | nil =>
          obtain rfl := htext
          exact (Lexes.lexeme hblank hspelled hafter).blanks_append hblanks
      | cons d front =>
          obtain ⟨rfl, hfront⟩ := List.cons.inj htext
          obtain ⟨middle, rfl, rfl⟩ := hcut.exists_eq_append hfront.symm
          have hstays : movedPast (offset + Text.byteSize (d :: (tail ++ middle)))
              (Text.byteSize blanks) ⟨kind, offset, offset + Text.byteSize (d :: tail)⟩ =
              ⟨kind, offset, offset + Text.byteSize (d :: tail)⟩ := by
            have hpos := d.utf8Size_pos
            refine if_neg ?_
            simp only [Text.byteSize_cons]
            omega
          have hplace : offset + Text.byteSize (d :: (tail ++ middle)) =
              offset + Text.byteSize (d :: tail) + Text.byteSize middle := by
            simp [Nat.add_assoc]
          rw [List.map_cons, hstays, List.cons_append, List.append_assoc, hplace]
          rw [hplace] at hcut
          exact .lexeme hblank (hspelled.insert hafter hcut.tail hneck hperiod hblanks)
            (ih hcut.tail rfl)

end Lexeme

namespace Dialect

theorem isEmptyRule_insert_blanks (dialect : Dialect) (front back : Text) {blanks : Text}
    (hblanks : ∀ c ∈ blanks, isBlank c = true) :
    dialect.isEmptyRule (front ++ (blanks ++ back)) = dialect.isEmptyRule (front ++ back) := by
  have hnone : blanks.filter (fun c => !isBlank c) = [] :=
    List.filter_eq_nil_iff.2 (by simpa using hblanks)
  simp only [isEmptyRule, condense, List.filter_append, hnone, List.nil_append]

/-- The layout of a rule means nothing.  Where no lexeme is cut, blanks only move the
lexemes behind them, and the rule decodes to the same sequence or the same is wrong
with it. -/
theorem decode_insert_blanks {dialect : Dialect} {front back blanks : Text}
    {lexemes : List Lexeme} (hneck : ∀ c ∈ dialect.neck, isBlank c = false)
    (hperiod : dialect.neck.head? ≠ some '.')
    (hlexemes : Lexeme.ofText dialect.neck (front ++ back) = .ok lexemes)
    (hcut : Lexeme.Outside lexemes (Text.byteSize front))
    (hblanks : ∀ c ∈ blanks, isBlank c = true) :
    Lexeme.ofText dialect.neck (front ++ (blanks ++ back)) =
        .ok (lexemes.map (Lexeme.movedPast (Text.byteSize front) (Text.byteSize blanks))) ∧
      (dialect.decode (front ++ (blanks ++ back))).mapError RuleFault.unplaced =
        (dialect.decode (front ++ back)).mapError RuleFault.unplaced := by
  have hsplit := Lexeme.scanFrom_eq_ok_iff_lexes.1 hlexemes
  rw [← Nat.zero_add (Text.byteSize front)] at hcut
  have hmoved := Lexeme.scanFrom_eq_ok_iff_lexes.2
    (hsplit.insert_blanks hcut hneck hperiod hblanks)
  rw [Nat.zero_add] at hmoved
  refine ⟨hmoved, decode_unplaced_of_map_kind_eq hmoved hlexemes ?_
    (dialect.isEmptyRule_insert_blanks front back hblanks)⟩
  simp [Function.comp_def]

end Dialect

namespace SpacingWitness

/-- Nothing separates the neck from the clause behind it. -/
def front : Text :=
  "correct_response(A):-".toList

def back : Text :=
  "term(A,'wörter :- ''a''').".toList

/-- A line break and a blank of two bytes. -/
def blanks : Text :=
  ['\n', Char.ofNat 0xA0]

def lexemes : List Lexeme :=
  [⟨.word "correct_response".toList, 0, 16⟩, ⟨.openParen, 16, 17⟩, ⟨.word "A".toList, 17, 18⟩,
    ⟨.closeParen, 18, 19⟩, ⟨.neck, 19, 21⟩, ⟨.word "term".toList, 21, 25⟩,
    ⟨.openParen, 25, 26⟩, ⟨.word "A".toList, 26, 27⟩, ⟨.comma, 27, 28⟩,
    ⟨.word "wörter :- 'a'".toList, 28, 46⟩, ⟨.closeParen, 46, 47⟩, ⟨.period, 47, 48⟩]

theorem decode_insert_blanks_neck :
    Lexeme.ofText ({} : Dialect).neck (front ++ back) = .ok lexemes ∧
      Lexeme.Outside lexemes (Text.byteSize front) ∧
      Lexeme.ofText ({} : Dialect).neck (front ++ (blanks ++ back)) =
        .ok (lexemes.map (Lexeme.movedPast (Text.byteSize front) (Text.byteSize blanks))) ∧
      (({} : Dialect).decode (front ++ (blanks ++ back))).mapError RuleFault.unplaced =
        (({} : Dialect).decode (front ++ back)).mapError RuleFault.unplaced := by
  have hneck : ∀ c ∈ ({} : Dialect).neck, isBlank c = false :=
    List.forall_mem_cons.2 ⟨by decide, List.forall_mem_singleton.2 (by decide)⟩
  have hlexemes : Lexeme.ofText ({} : Dialect).neck (front ++ back) = .ok lexemes := by
    decide +kernel
  have hcut : Lexeme.Outside lexemes (Text.byteSize front) := by decide
  have hblanks : ∀ c ∈ blanks, isBlank c = true :=
    List.forall_mem_cons.2 ⟨by decide, List.forall_mem_singleton.2 (by decide)⟩
  exact ⟨hlexemes, hcut,
    Dialect.decode_insert_blanks hneck (by decide) hlexemes hcut hblanks⟩

end SpacingWitness

end GradingRule
