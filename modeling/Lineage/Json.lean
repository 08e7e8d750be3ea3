/-!
# Lineage.Json

JSON values.  A number is kept as it is written.  A string may spell half of
a surrogate pair, and is then no text; such a string is kept as `none`.
-/

namespace Lineage

/-- A JSON value. -/
inductive Json where
  | null
  | bool (value : Bool)
  /-- A number, by its literal. -/
  | number (literal : String)
  /-- A string, if it is a text. -/
  | string (text : Option String)
  | array (items : List Json)
  /-- An object, with its fields in order. -/
  | object (fields : List (Option String × Json))
deriving Repr, Inhabited

namespace Json

/-- A text as JSON. -/
def text (s : String) : Json := .string (some s)

/-- A whole number as JSON. -/
def int (i : Int) : Json := .number (toString i)

/-- A natural number as JSON. -/
def nat (n : Nat) : Json := .number (toString n)

/-- The object with the given fields. -/
def ofFields (fields : List (String × Json)) : Json :=
  .object (fields.map fun (key, value) => (some key, value))

/-- A value that may be absent, `null` if it is. -/
def ofOption {β : Type} (f : β → Json) : Option β → Json
  | some b => f b
  | none => .null

/-- The values of a list as an array. -/
def ofList {β : Type} (f : β → Json) (bs : List β) : Json := .array (bs.map f)

end Json

end Lineage
