import Lineage.Config.Reader
import Lineage.Text.Numeral
import Lineage.Yaml.Node.Reader

/-!
# Lineage.Config.Yaml

Settings in YAML.  A text without a document has the default settings, and a
section with nothing in it has no fields.  This is one parser of settings, the
one that the command line runs with.
-/

namespace Lineage.Config

/-- The number of a plain scalar: an optional plus sign, then decimal digits
without leading zeros, or hexadecimal, octal or binary ones after `0x`, `0o`
or `0b`. -/
def yamlNumber? (text : String) : Option Nat :=
  let digits := match text.toList with
    | '+' :: cs => cs
    | cs => cs
  match digits with
  | '0' :: 'x' :: cs => Text.unsigned64? 16 cs
  | '0' :: 'o' :: cs => Text.unsigned64? 8 cs
  | '0' :: 'b' :: cs => Text.unsigned64? 2 cs
  | '0' :: _ :: _ => none
  | cs => Text.unsigned64? 10 cs

/-- The fields of a mapping whose keys are scalars. -/
def yamlFields? : Yaml.Node → Option (List (String × Yaml.Node))
  | .mapping pairs => pairs.mapM fun (key, value) => key.text?.map fun name => (name, value)
  | node => if node.plain? = some "" then some [] else none

/-- How YAML nodes are read. -/
def yamlReader : ValueReader Yaml.Node where
  sort? node := node.text?.bind SortKind.ofName?
  number? node := node.plain?.bind yamlNumber?
  fields? _ := yamlFields?

/-- The settings that the document of a YAML text holds.  Anchors, aliases,
tags and directives are not read. -/
def parseYaml? (text : String) : Option Config :=
  (Yaml.read? text).bind fun
    | none => some {}
    | some node => ofValue? yamlReader node

/-- The settings of a YAML text. -/
def ofYaml? : String → Option Config := ofText? parseYaml?

end Lineage.Config
