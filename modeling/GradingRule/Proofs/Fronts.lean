/-
The front of a text, read with all that is behind it in sight.  The lexer looks ahead by
a whole neck and by one quote, but what it has read of the front it also reads there when
the rest is cut off, unless a period that starts the neck ends a word.
-/
import GradingRule.Proofs.Lexemes

namespace GradingRule.Lexeme

/-- The lexemes of a front that starts at the offset and has `after` behind it. -/
inductive Reads (neck after : Text) : Nat → Text → List Lexeme → Prop
  | nil {offset : Nat} : Reads neck after offset [] []
  | blank {offset : Nat} {c : Char} {front : Text} {lexemes : List Lexeme} :
      isBlank c = true → Reads neck after (offset + c.utf8Size) front lexemes →
      Reads neck after offset (c :: front) lexemes
  | lexeme {offset : Nat} {kind : Kind} {c : Char} {tail front : Text}
      {lexemes : List Lexeme} :
      isBlank c = false → Spelled neck kind c tail (front ++ after) →
      Reads neck after (offset + Text.byteSize (c :: tail)) front lexemes →
      Reads neck after offset (c :: (tail ++ front))
        (⟨kind, offset, offset + Text.byteSize (c :: tail)⟩ :: lexemes)

/-- The byte behind the last of some lexemes, or the offset if there are none. -/
def endOf (offset : Nat) (lexemes : List Lexeme) : Nat :=
  lexemes.foldl (fun _ lexeme => lexeme.stop) offset

@[simp] theorem endOf_append_singleton (offset : Nat) (lexemes : List Lexeme)
    (last : Lexeme) : endOf offset (lexemes ++ [last]) = last.stop := by
  simp [endOf]

theorem startsWithNeck_of_append {neck front back : Text}
    (h : startsWithNeck neck (front ++ back) = false) : startsWithNeck neck front = false := by
  rw [startsWithNeck_eq_false_iff] at h ⊢
  exact fun hne hneck => h hne (hneck.trans (List.prefix_append front back))

/-- A lexeme is spelled as it was if a text behind it is cut off, as long as a bare word
still ends. -/
theorem Spelled.of_append {neck : Text} {kind : Kind} {c : Char} {tail front back : Text}
    (h : Spelled neck kind c tail (front ++ back))
    (hstill : bareTail neck (front ++ back) = [] → bareTail neck front = []) :
    Spelled neck kind c tail front := by
  cases h with
  | punctuation hkind => exact .punctuation hkind
  | neck hneck hstart => exact .neck hneck hstart
  | quoted hstarts hquote =>
      rw [← List.append_assoc] at hstarts
      refine .quoted (startsWithNeck_of_append hstarts) ?_
      cases front with
      | nil => simp
      | cons d front => exact hquote
  | bare hstart hquote hplain hparts hend =>
      refine .bare hstart hquote hplain (fun part hne hpart => ?_) (hstill hend)
      have hstarts := hparts part hne hpart
      rw [← List.append_assoc] at hstarts
      exact startsWithNeck_of_append hstarts

/-- What ends a bare word before a front lies inside the front: a neck would be its first
lexeme. -/
theorem Reads.bareTail_eq_nil {neck after : Text} {offset : Nat} {front : Text}
    {lexemes : List Lexeme} (h : Reads neck after offset front lexemes)
    (hperiod : neck.head? = some '.' → ∀ lexeme ∈ lexemes, lexeme.kind ≠ .period)
    (hend : bareTail neck (front ++ after) = []) : bareTail neck front = [] := by
  cases h with
  | nil => rfl
  | blank hblank _ => exact bareTail_cons_eq_nil_iff.2 (.inl (by simp [isDelimiter, hblank]))
  | @lexeme _ kind c tail front lexemes _ hspelled _ =>
      rw [List.cons_append, bareTail_cons_eq_nil_iff, List.append_assoc] at hend
      rw [bareTail_cons_eq_nil_iff]
      rcases hend with hdelimiter | hcontrol | hstarts
      · exact .inl hdelimiter
      · exact .inr (.inl hcontrol)
      · refine or_iff_not_imp_left.2 fun hdelimiter => .inr ?_
        have hplain : isDelimiter c = false := by simpa using hdelimiter
        have hpunctuation : punctuation? c = none := by
          refine punctuation?_eq_none hplain ?_
          rintro rfl
          exact hperiod (head?_of_startsWithNeck hstarts) _ List.mem_cons_self
            (hspelled.eq_mark_of_punctuation? rfl)
        have hneck := hspelled.eq_neck_of_startsWithNeck hstarts hpunctuation
        exact startsWithNeck_eq_true_iff.2 ⟨by simp [hneck], front, by simp [hneck]⟩

/-- What is read of the front is also read of the front alone. -/
theorem Reads.lexes {neck after : Text} {offset : Nat} {front : Text} {lexemes : List Lexeme}
    (h : Reads neck after offset front lexemes)
    (hperiod : neck.head? = some '.' → ∀ lexeme ∈ lexemes, lexeme.kind ≠ .period) :
    Lexes neck offset front lexemes := by
  induction h with
  | nil => exact .nil
  | blank hblank _ ih => exact .blank hblank (ih hperiod)
  | lexeme hblank hspelled hfront ih =>
      have hrest := fun hneck => (List.forall_mem_cons.1 (hperiod hneck)).2
      exact .lexeme hblank (hspelled.of_append (hfront.bareTail_eq_nil hrest)) (ih hrest)

/-- The lexemes of a text up to one of them are read of a front of the text, and what is
behind them is read on from there. -/
theorem Lexes.exists_reads {neck : Text} {offset : Nat} {text : Text}
    {run rest : List Lexeme} (h : Lexes neck offset text (run ++ rest)) :
    ∃ front after, text = front ++ after ∧ Reads neck after offset front run ∧
      endOf offset run = offset + Text.byteSize front ∧
      Lexes neck (endOf offset run) after rest := by
  generalize hall : run ++ rest = lexemes at h
  induction h generalizing run with
  | nil =>
      obtain ⟨rfl, rfl⟩ := List.append_eq_nil_iff.1 hall
      exact ⟨[], [], rfl, .nil, rfl, .nil⟩
  | @blank offset c text lexemes hblank htext ih =>
      cases run with
      | nil =>
          obtain rfl := hall
          exact ⟨[], c :: text, rfl, .nil, rfl, .blank hblank htext⟩
      | cons first run =>
          obtain ⟨front, after, rfl, hfront, hend, hafter⟩ := ih hall
          have hsame : endOf (offset + c.utf8Size) (first :: run) =
              endOf offset (first :: run) := rfl
          rw [hsame] at hend hafter
          exact ⟨c :: front, after, rfl, .blank hblank hfront,
            by rw [hend, Text.byteSize_cons, Nat.add_assoc], hafter⟩
  | @lexeme offset kind c tail text lexemes hblank hspelled htext ih =>
      cases run with
      | nil =>
          obtain rfl := hall
          exact ⟨[], _, rfl, .nil, rfl, .lexeme hblank hspelled htext⟩
      | cons first run =>
          obtain ⟨rfl, hrun⟩ := List.cons.inj hall
          obtain ⟨front, after, rfl, hfront, hend, hafter⟩ := ih hrun
          refine ⟨c :: (tail ++ front), after, by simp, .lexeme hblank hspelled hfront, ?_,
            hafter⟩
          rw [← List.cons_append, Text.byteSize_append, ← Nat.add_assoc]
          exact hend

end GradingRule.Lexeme
