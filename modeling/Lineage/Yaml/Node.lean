import Lineage.Yaml.Scalar

/-!
# Lineage.Yaml.Node

YAML documents as trees.
-/

namespace Lineage.Yaml

/-- A node of a document. -/
inductive Node where
  | scalar (s : Scalar)
  | sequence (items : List Node)
  | mapping (pairs : List (Node × Node))
deriving Repr

/-- The node that stands where nothing is written. -/
def Node.empty : Node := .scalar .empty

/-- The text of a scalar. -/
def Node.text? : Node → Option String
  | .scalar s => some s.text
  | _ => none

/-- The text of a plain scalar. -/
def Node.plain? : Node → Option String
  | .scalar ⟨.plain, text⟩ => some text
  | _ => none

end Lineage.Yaml
