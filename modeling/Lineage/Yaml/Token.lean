import Lineage.Yaml.Scalar

/-!
# Lineage.Yaml.Token

The tokens of YAML text.  The start and the end of a block collection show as
indentation only, and so does a key that no question mark announces; they
have tokens all the same.
-/

namespace Lineage.Yaml

/-- A token of YAML text. -/
inductive Token where
  /-- The mark before a document. -/
  | documentStart
  /-- The mark after a document. -/
  | documentEnd
  | blockSequence
  | blockMapping
  /-- The end of a block collection. -/
  | blockEnd
  | flowSequence
  | flowSequenceEnd
  | flowMapping
  | flowMappingEnd
  /-- The dash before an item of a block sequence. -/
  | dash
  /-- The comma between the parts of a flow collection. -/
  | comma
  /-- What comes next is the key of a pair. -/
  | key
  /-- What comes next is the value of a pair. -/
  | value
  | scalar (s : Scalar)
deriving DecidableEq, Repr

end Lineage.Yaml
