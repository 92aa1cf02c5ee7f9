/-
From the text of a rule to its lexemes.
-/
import GradingRule.Rule.Fault
import GradingRule.Text.Blank
import GradingRule.Text.Quoted

namespace GradingRule.Lexeme

def punctuation? : Char → Option Kind
  | '(' => some .openParen
  | ')' => some .closeParen
  | ',' => some .comma
  | ';' => some .semicolon
  | '.' => some .period
  | _ => none

/-- A period is no delimiter: inside a word it belongs to the word. -/
def isDelimiter (c : Char) : Bool :=
  isBlank c || c = '(' || c = ')' || c = ',' || c = ';'

/-- An empty neck starts nowhere. -/
def startsWithNeck (neck text : Text) : Bool :=
  neck ≠ [] && neck.isPrefixOf text

/-- A bare word also ends before a control character, at which no lexeme can
then start. -/
def bareTail (neck : Text) : Text → Text
  | [] => []
  | c :: rest =>
      if isDelimiter c || isControl c || startsWithNeck neck (c :: rest) then []
      else c :: bareTail neck rest

/-- The lexeme that starts with `c` at byte `offset`, and the rest of its
spelling, which `rest` starts with. -/
def scan (neck : Text) (offset : Nat) (c : Char) (rest : Text) :
    Except RuleFault (Kind × Text) :=
  match punctuation? c with
  | some kind => .ok (kind, [])
  | none =>
      if isControl c then .error (.unexpectedChar c offset)
      else if startsWithNeck neck (c :: rest) then .ok (.neck, neck.tail)
      else if c = '\'' then
        match Text.readQuoted? rest with
        | some (word, _) => .ok (.word word, Text.doubleQuotes word ++ ['\''])
        | none => .error (.unexpected offset .closingQuote none)
      else
        let tail := bareTail neck rest
        .ok (.word (c :: tail), tail)

/-- The lexemes of a text that starts at byte `offset`, blanks skipped. -/
def scanFrom (neck : Text) (offset : Nat) : Text → Except RuleFault (List Lexeme)
  | [] => .ok []
  | c :: rest =>
      if isBlank c then scanFrom neck (offset + c.utf8Size) rest
      else
        match scan neck offset c rest with
        | .error fault => .error fault
        | .ok (kind, tail) =>
            let stop := offset + Text.byteSize (c :: tail)
            (scanFrom neck stop (rest.drop tail.length)).map (⟨kind, offset, stop⟩ :: ·)
termination_by text => text.length

/-- The lexemes of a rule whose head and body are separated by `neck`. -/
def ofText (neck text : Text) : Except RuleFault (List Lexeme) :=
  scanFrom neck 0 text

end GradingRule.Lexeme
