/-
From the lexemes of a document to its tree.  The containers that are still open
are kept as a stack of frames, so every lexeme is one step and a document may
nest as deeply as it likes.
-/
import GradingRule.Json.Lexeme

namespace GradingRule.Json

/-- An open container with what it holds before the place in hand, the newest
first. -/
inductive Frame where
  | array (items : List Json)
  | object (members : List (Spelling × Json)) (key : Spelling)
deriving Repr

/-- What has been read, and so what may come next: a value; the first item of an
array or its end; the first key of an object or its end; another key; the colon
after a key; or, after a whole value, what its frame asks for. -/
inductive Reading where
  | atValue (frames : List Frame)
  | atFirstItem (frames : List Frame)
  | atFirstKey (frames : List Frame)
  | atKey (members : List (Spelling × Json)) (frames : List Frame)
  | atColon (members : List (Spelling × Json)) (key : Spelling) (frames : List Frame)
  | past (value : Json) (frames : List Frame)
deriving Repr

namespace Reading

/-- A value is about to start inside the given frames. -/
def begin? (frames : List Frame) : Lexeme → Option Reading
  | .openArray => some (.atFirstItem frames)
  | .openObject => some (.atFirstKey frames)
  | .null => some (.past .null frames)
  | .bool value => some (.past (.bool value) frames)
  | .number numeral => some (.past (.number numeral) frames)
  | .string spelling => some (.past (.string spelling) frames)
  | _ => none

def step? : Reading → Lexeme → Option Reading
  | .atValue frames, lexeme => begin? frames lexeme
  | .atFirstItem frames, .closeArray => some (.past (.array []) frames)
  | .atFirstItem frames, lexeme => begin? (.array [] :: frames) lexeme
  | .atFirstKey frames, .closeObject => some (.past (.object []) frames)
  | .atFirstKey frames, .string key => some (.atColon [] key frames)
  | .atKey members frames, .string key => some (.atColon members key frames)
  | .atColon members key frames, .colon => some (.atValue (.object members key :: frames))
  | .past value (.array items :: frames), .comma =>
      some (.atValue (.array (value :: items) :: frames))
  | .past value (.array items :: frames), .closeArray =>
      some (.past (.array (value :: items).reverse) frames)
  | .past value (.object members key :: frames), .comma =>
      some (.atKey ((key, value) :: members) frames)
  | .past value (.object members key :: frames), .closeObject =>
      some (.past (.object ((key, value) :: members).reverse) frames)
  | _, _ => none

end Reading

/-- The one value that the lexemes spell. -/
def ofLexemes? (lexemes : List Lexeme) : Option Json :=
  match lexemes.foldlM Reading.step? (.atValue []) with
  | some (.past value []) => some value
  | _ => none

/-- The value of a document, which is all the document says. -/
def ofDocument? (document : Text) : Option Json :=
  (Lexeme.ofText? document).bind ofLexemes?

end GradingRule.Json
