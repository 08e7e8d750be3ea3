import Lineage.Config.Reader
import Lineage.Json.Reader
import Lineage.Text.Numeral

/-!
# Lineage.Config.Json

Settings in JSON.  An object holds its fields by name; an array holds them in
order and may end early.
-/

namespace Lineage.Config

/-- The sort that a string names; it may also be the only field of an object,
which is then `null`. -/
def jsonSort? : Json → Option SortKind
  | .string (some name) => SortKind.ofName? name
  | .object [(some name, .null)] => SortKind.ofName? name
  | _ => none

/-- The number of a literal without sign, fraction and exponent. -/
def jsonNumber? : Json → Option Nat
  | .number literal => Text.unsigned64? 10 literal.toList
  | _ => none

/-- The fields of an object, or of an array that gives them in the order of
`names`. -/
def jsonFields? (names : List String) : Json → Option (List (String × Json))
  | .object fields => fields.mapM fun (key, value) => key.map fun name => (name, value)
  | .array items => if items.length ≤ names.length then some (names.zip items) else none
  | _ => none

/-- How JSON values are read. -/
def jsonReader : ValueReader Json where
  sort? := jsonSort?
  number? := jsonNumber?
  fields? := jsonFields?

/-- The settings of a JSON text. -/
def ofJson? (text : String) : Option Config := (Json.read? text).bind (ofValue? jsonReader)

end Lineage.Config
