/-
Rules as trees: a head with its response variable, and the clauses of the body.
Reading looks at the shape only; what the commands and the arguments mean is
decided when a rule is decoded.
-/
import GradingRule.Rule.Lexing

namespace GradingRule

/-- One condition of a body.  `text` is its part of the rule, `disjunct` says
that a semicolon comes after it, and `arguments` starts with the response
variable in a clause that means something. -/
structure Clause where
  text : Text
  negated : Bool
  disjunct : Bool
  command : Text
  arguments : List Text
deriving DecidableEq, Repr

structure Rule where
  head : Text
  responseVar : Text
  clauses : List Clause
deriving DecidableEq, Repr

/-- The word that negates the clause it stands before. -/
def negationWord : Text := "not".toList

/-- The fault at the next lexeme, or at the end of the rule. -/
def RuleFault.at (source : Text) (expected : Expectation) : List Lexeme → RuleFault
  | [] => .unexpected (Text.byteSize source) expected none
  | lexeme :: _ => .unexpected lexeme.start expected (some lexeme.kind)

namespace Lexeme

/-- Takes a lexeme of the given kind, which has to come next. -/
def takeKind (source : Text) (kind : Kind) (expected : Expectation) :
    List Lexeme → Except RuleFault (Lexeme × List Lexeme)
  | [] => .error (.at source expected [])
  | lexeme :: rest =>
      if lexeme.kind = kind then .ok (lexeme, rest)
      else .error (.at source expected (lexeme :: rest))

/-- Takes a word, which has to come next. -/
def takeWord (source : Text) (expected : Expectation) :
    List Lexeme → Except RuleFault (Text × List Lexeme)
  | ⟨.word text, _, _⟩ :: rest => .ok (text, rest)
  | lexemes => .error (.at source expected lexemes)

/-- Takes words separated by commas, and the parenthesis that closes them. -/
def takeArguments (source : Text) :
    List Lexeme → Except RuleFault (List Text × Lexeme × List Lexeme)
  | ⟨.word argument, _, _⟩ :: ⟨.comma, _, _⟩ :: rest => do
      let (arguments, close, rest) ← takeArguments source rest
      return (argument :: arguments, close, rest)
  | ⟨.word argument, _, _⟩ :: rest => do
      let (close, rest) ← takeKind source .closeParen .closeParen rest
      return ([argument], close, rest)
  | lexemes => .error (.at source .argument lexemes)

/-- Takes the negation off a clause.  It negates only if a word follows it, and
is a command otherwise. -/
def takeNegation : List Lexeme → Bool × List Lexeme
  | lexemes@(⟨.word first, _, _⟩ :: next@(⟨.word _, _, _⟩ :: _)) =>
      if first = negationWord then (true, next) else (false, lexemes)
  | lexemes => (false, lexemes)

/-- The byte at which the next lexeme starts. -/
def startOf (source : Text) : List Lexeme → Nat
  | [] => Text.byteSize source
  | lexeme :: _ => lexeme.start

/-- Takes one clause, not yet marked as a disjunct. -/
def takeClause (source : Text) (lexemes : List Lexeme) :
    Except RuleFault (Clause × List Lexeme) := do
  let (negated, rest) := takeNegation lexemes
  let (command, rest) ← takeWord source .commandName rest
  let (_, rest) ← takeKind source .openParen .openParen rest
  let (arguments, close, rest) ← takeArguments source rest
  let text := (Text.slice? source (startOf source lexemes) close.stop).getD []
  return (⟨text, negated, false, command, arguments⟩, rest)

theorem length_takeKind {source : Text} {kind : Kind} {expected : Expectation}
    {lexemes rest : List Lexeme} {lexeme : Lexeme}
    (h : takeKind source kind expected lexemes = .ok (lexeme, rest)) :
    rest.length < lexemes.length := by
  unfold takeKind at h
  split at h
  · simp at h
  · split at h
    · simp only [Except.ok.injEq, Prod.mk.injEq] at h
      obtain ⟨-, rfl⟩ := h
      simp
    · simp at h

theorem length_takeWord {source : Text} {expected : Expectation}
    {lexemes rest : List Lexeme} {text : Text}
    (h : takeWord source expected lexemes = .ok (text, rest)) :
    rest.length < lexemes.length := by
  unfold takeWord at h
  split at h
  · simp only [Except.ok.injEq, Prod.mk.injEq] at h
    obtain ⟨-, rfl⟩ := h
    simp
  · simp at h

theorem length_takeNegation (lexemes : List Lexeme) :
    (takeNegation lexemes).2.length ≤ lexemes.length := by
  unfold takeNegation
  split
  · split <;> simp
  · simp

theorem length_takeArguments {source : Text} {lexemes rest : List Lexeme}
    {arguments : List Text} {close : Lexeme}
    (h : takeArguments source lexemes = .ok (arguments, close, rest)) :
    rest.length < lexemes.length := by
  fun_induction takeArguments source lexemes generalizing arguments close rest with
  | case1 argument _ _ _ _ after ih =>
      cases hafter : takeArguments source after with
      | error fault => simp [hafter, bind, Except.bind] at h
      | ok result =>
          obtain ⟨others, last, left⟩ := result
          simp only [hafter, bind, Except.bind, pure, Except.pure, Except.ok.injEq,
            Prod.mk.injEq] at h
          obtain ⟨-, -, rfl⟩ := h
          have := ih hafter
          simp
          omega
  | case2 argument _ _ after _ =>
      cases hafter : takeKind source .closeParen .closeParen after with
      | error fault => simp [hafter, bind, Except.bind] at h
      | ok result =>
          obtain ⟨last, left⟩ := result
          simp only [hafter, bind, Except.bind, pure, Except.pure, Except.ok.injEq,
            Prod.mk.injEq] at h
          obtain ⟨-, -, rfl⟩ := h
          have := length_takeKind hafter
          simp
          omega
  | case3 => simp at h

/-- A clause takes at least its command off the lexemes. -/
theorem length_takeClause {source : Text} {lexemes rest : List Lexeme} {clause : Clause}
    (h : takeClause source lexemes = .ok (clause, rest)) :
    rest.length < lexemes.length := by
  unfold takeClause at h
  rcases hbody : takeNegation lexemes with ⟨negated, body⟩
  have hle : body.length ≤ lexemes.length := by
    simpa [hbody] using length_takeNegation lexemes
  cases hcommand : takeWord source .commandName body with
  | error fault => simp [hbody, hcommand, bind, Except.bind] at h
  | ok result =>
      obtain ⟨command, afterCommand⟩ := result
      have := length_takeWord hcommand
      cases hopen : takeKind source .openParen .openParen afterCommand with
      | error fault => simp [hbody, hcommand, hopen, bind, Except.bind] at h
      | ok result =>
          obtain ⟨openParen, afterOpen⟩ := result
          have := length_takeKind hopen
          cases hargs : takeArguments source afterOpen with
          | error fault => simp [hbody, hcommand, hopen, hargs, bind, Except.bind] at h
          | ok result =>
              obtain ⟨arguments, close, afterClose⟩ := result
              have := length_takeArguments hargs
              simp only [hbody, hcommand, hopen, hargs, bind, Except.bind, pure,
                Except.pure, Except.ok.injEq, Prod.mk.injEq] at h
              obtain ⟨-, rfl⟩ := h
              omega

/-- Takes the clauses of a body and stops at the first lexeme that does not
continue it. -/
def takeClauses (source : Text) (lexemes : List Lexeme) :
    Except RuleFault (List Clause × List Lexeme) :=
  match h : takeClause source lexemes with
  | .error fault => .error fault
  | .ok (clause, rest) =>
      have := length_takeClause h
      match rest with
      | ⟨.comma, _, _⟩ :: next =>
          (takeClauses source next).map fun (clauses, left) => (clause :: clauses, left)
      | ⟨.semicolon, _, _⟩ :: next =>
          (takeClauses source next).map fun (clauses, left) =>
            ({ clause with disjunct := true } :: clauses, left)
      | left => .ok ([clause], left)
termination_by lexemes.length
decreasing_by all_goals simp at this; omega

/-- Drops the period that may end a rule. -/
def dropPeriod : List Lexeme → List Lexeme
  | ⟨.period, _, _⟩ :: rest => rest
  | lexemes => lexemes

end Lexeme

namespace Rule

open Lexeme in
/-- The rule that the lexemes of `source` spell, all of them. -/
def ofLexemes (source : Text) (lexemes : List Lexeme) : Except RuleFault Rule := do
  let (head, rest) ← takeWord source .ruleHead lexemes
  let (_, rest) ← takeKind source .openParen .openParen rest
  let (responseVar, rest) ← takeWord source .responseVar rest
  let (_, rest) ← takeKind source .closeParen .closeParen rest
  let (_, body) ← takeKind source .neck .neck rest
  if body = [] ∨ body.head?.map Lexeme.kind = some .period then throw .emptyBody
  let (clauses, rest) ← takeClauses source body
  match dropPeriod rest with
  | [] => return ⟨head, responseVar, clauses⟩
  | left => throw (.at source .continuation left)

def ofText (neck text : Text) : Except RuleFault Rule := do
  let lexemes ← Lexeme.ofText neck text
  ofLexemes text lexemes

end Rule

end GradingRule
