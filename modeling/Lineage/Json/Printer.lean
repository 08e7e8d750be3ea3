import Lineage.Json

/-!
# Lineage.Json.Printer

JSON as text, on one line or indented by two blanks a level.  Characters
stand for themselves except where JSON requires an escape.
-/

namespace Lineage.Json

/-- One character of a string. -/
def escapeChar (c : Char) : String :=
  if c = '"' then "\\\""
  else if c = '\\' then "\\\\"
  else if c = '\x08' then "\\b"
  else if c = '\x0c' then "\\f"
  else if c = '\n' then "\\n"
  else if c = '\r' then "\\r"
  else if c = '\t' then "\\t"
  else if c.toNat < 0x20 then
    "\\u00" ++ String.ofList [Nat.digitChar (c.toNat / 16), Nat.digitChar (c.toNat % 16)]
  else String.singleton c

/-- A text as a string. -/
def escape (text : String) : String :=
  text.toList.foldl (fun out c => out ++ escapeChar c) "\"" ++ "\""

/-- A string; one that is no text is shown as the replacement character. -/
def escapeOption : Option String → String
  | some text => escape text
  | none => escape "\ufffd"

mutual
/-- A value on one line. -/
def compact : Json → String
  | .null => "null"
  | .bool true => "true"
  | .bool false => "false"
  | .number literal => literal
  | .string text => escapeOption text
  | .array [] => "[]"
  | .array (item :: items) => "[" ++ compact item ++ compactItems items ++ "]"
  | .object [] => "\x7b\x7d"
  | .object ((key, value) :: fields) =>
    "\x7b" ++ escapeOption key ++ ":" ++ compact value ++ compactFields fields ++ "\x7d"

/-- The further items of an array. -/
def compactItems : List Json → String
  | [] => ""
  | item :: items => "," ++ compact item ++ compactItems items

/-- The further fields of an object. -/
def compactFields : List (Option String × Json) → String
  | [] => ""
  | (key, value) :: fields =>
    "," ++ escapeOption key ++ ":" ++ compact value ++ compactFields fields
end

/-- The beginning of a line. -/
def margin (depth : Nat) : String := "\n" ++ String.ofList (List.replicate (2 * depth) ' ')

mutual
/-- A value over several lines, its first one at the given depth. -/
def pretty (depth : Nat) : Json → String
  | .array (item :: items) =>
    "[" ++ margin (depth + 1) ++ pretty (depth + 1) item ++ prettyItems (depth + 1) items ++
      margin depth ++ "]"
  | .object ((key, value) :: fields) =>
    "\x7b" ++ margin (depth + 1) ++ escapeOption key ++ ": " ++ pretty (depth + 1) value ++
      prettyFields (depth + 1) fields ++ margin depth ++ "\x7d"
  | .array [] => "[]"
  | .object [] => "\x7b\x7d"
  | .null => "null"
  | .bool true => "true"
  | .bool false => "false"
  | .number literal => literal
  | .string text => escapeOption text

/-- The further items of an array, a line or more each. -/
def prettyItems (depth : Nat) : List Json → String
  | [] => ""
  | item :: items => "," ++ margin depth ++ pretty depth item ++ prettyItems depth items

/-- The further fields of an object, a line or more each. -/
def prettyFields (depth : Nat) : List (Option String × Json) → String
  | [] => ""
  | (key, value) :: fields =>
    "," ++ margin depth ++ escapeOption key ++ ": " ++ pretty depth value ++
      prettyFields depth fields
end

end Lineage.Json
