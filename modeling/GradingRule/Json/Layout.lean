/-
Documents laid out for people: a line for every item and every member, indented
by two spaces for every container around it.  An empty container stays closed.
-/
import GradingRule.Json.Number
import GradingRule.Json.Quoted

namespace GradingRule.Json

def newline (depth : Nat) : Text :=
  '\n' :: List.replicate (2 * depth) ' '

mutual

/-- The layout of a value inside `depth` containers. -/
def layout (depth : Nat) : Json → Text
  | .null => "null".toList
  | .bool true => "true".toList
  | .bool false => "false".toList
  | .number numeral => numeral.spell
  | .string spelling => quote spelling
  | .array [] => ['[', ']']
  | .array (item :: items) =>
      '[' :: (newline (depth + 1) ++ layout (depth + 1) item ++
        layoutItems (depth + 1) items ++ newline depth ++ [']'])
  | .object [] => ['\x7b', '\x7d']
  | .object ((key, value) :: members) =>
      '\x7b' :: (newline (depth + 1) ++ quote key ++ ':' :: ' ' :: layout (depth + 1) value ++
        layoutMembers (depth + 1) members ++ newline depth ++ ['\x7d'])

/-- The items after the first. -/
def layoutItems (depth : Nat) : List Json → Text
  | [] => []
  | item :: items =>
      ',' :: (newline depth ++ layout depth item ++ layoutItems depth items)

/-- The members after the first. -/
def layoutMembers (depth : Nat) : List (Spelling × Json) → Text
  | [] => []
  | (key, value) :: members =>
      ',' :: (newline depth ++ quote key ++ ':' :: ' ' :: layout depth value ++
        layoutMembers depth members)

end

end GradingRule.Json
