/-!
# Lineage.SortKind

The orders a view can be drawn in, and their names.

* `SortKind.ofText?_name` — every kind is read back from its name.
-/

namespace Lineage

/-- The base order of a view. -/
inductive SortKind where
  /-- The order of the commit list. -/
  | normal
  /-- Rebase order: strands kept together, interleaved by time. -/
  | bek
  /-- Rebase order with simple merge bubbles straightened into lines. -/
  | linearBek
deriving DecidableEq, Repr, Inhabited

namespace SortKind

/-- The name of a kind, in messages, configuration and output. -/
def name : SortKind → String
  | .normal => "normal"
  | .bek => "bek"
  | .linearBek => "linear-bek"

/-- The kind whose name is exactly `text`. -/
def ofName? (text : String) : Option SortKind :=
  if text = "normal" then some .normal
  else if text = "bek" then some .bek
  else if text = "linear-bek" then some .linearBek
  else none

theorem ofName?_name (k : SortKind) : ofName? k.name = some k := by
  cases k <;> decide

/-- One character of a loosely spelled name: lower case, with `_` for `-`.
The Kelvin sign is the only character outside ASCII whose lower case is an
ASCII letter, so no other one can take part in a name. -/
def foldChar (c : Char) : Char :=
  if c = '_' then '-' else if c = '\u212a' then 'k' else c.toLower

/-- The kind that a text names when case does not matter, `_` may stand for
`-`, and `linearbek` may be written without a dash. -/
def ofText? (text : String) : Option SortKind :=
  let folded := String.ofList (text.toList.map foldChar)
  if folded = "linearbek" then some .linearBek else ofName? folded

theorem ofText?_name (k : SortKind) : ofText? k.name = some k := by
  cases k <;> decide

end SortKind

end Lineage
