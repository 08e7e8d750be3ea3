import Lineage.SortKind

/-!
# Lineage.Command

What can be asked of a commit graph from the command line.
-/

namespace Lineage

/-- A question about a commit graph. -/
inductive Command where
  /-- Every commit with its parents. -/
  | list
  /-- The children of a commit. -/
  | children (commit : String)
  /-- The declared heads that contain a commit. -/
  | branches (commit : String)
  /-- Which of some commits are contained in some heads. -/
  | contains (heads commits : List String)
  /-- The rows of a view.  Without visible heads the whole history is shown,
  without matches nothing is filtered. -/
  | view (sort : Option SortKind) (visibleHeads matching : List String)
deriving DecidableEq, Repr

/-- A question with the settings it is asked under. -/
structure Invocation where
  /-- The declared heads. -/
  heads : List String
  /-- The settings, as YAML text. -/
  config : Option String
  command : Command
deriving DecidableEq, Repr

/-- The name of each question. -/
inductive Verb where
  | list
  | children
  | branches
  | contains
  | view
deriving DecidableEq, Repr

namespace Verb

/-- The word that names a question. -/
def name : Verb → String
  | .list => "list"
  | .children => "children"
  | .branches => "branches"
  | .contains => "contains"
  | .view => "view"

/-- The question that a word names. -/
def ofName? (word : String) : Option Verb :=
  [list, children, branches, contains, view].find? (·.name == word)

theorem ofName?_name (v : Verb) : ofName? v.name = some v := by
  cases v <;> decide

end Verb

end Lineage
