/-!
# Lineage.Yaml.Scalar

Scalars of YAML text, and the folding of the line breaks inside one.
-/

namespace Lineage.Yaml

/-- How a scalar is written. -/
inductive Style where
  | plain
  /-- Between single or double quotes. -/
  | quoted
  /-- As an indented block of lines. -/
  | block
deriving DecidableEq, Repr

/-- A scalar: its text, and how that is written. -/
structure Scalar where
  style : Style
  text : String
deriving DecidableEq, Repr

/-- The scalar that stands where nothing is written. -/
def Scalar.empty : Scalar := ⟨.plain, ""⟩

/-- What line breaks in a row become when lines are folded: one line feed is a
space, the first of several is dropped, and other breaks stay. -/
def foldBreaks : List Char → List Char
  | [] => []
  | '\n' :: [] => [' ']
  | '\n' :: more => more
  | bs => bs

end Lineage.Yaml
