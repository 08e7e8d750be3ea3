import Lineage.SortKind

/-!
# Lineage.Config

The settings of a graph: the sort of a view that asks for none, the longest
side of a merge that is still straightened, and the shortest run of plain
commits that is collapsed.
-/

namespace Lineage

/-- The settings of a graph. -/
structure Config where
  defaultSort : SortKind := .normal
  maxBlockSize : Nat := 200
  minRunLength : Nat := 1
deriving DecidableEq, Repr, Inhabited

namespace Config

/-- The settings as YAML text. -/
def render (c : Config) : String :=
  "default_sort: " ++ c.defaultSort.name ++
    "\nlinear_bek:\n  max_block_size: " ++ toString c.maxBlockSize ++
    "\ncollapse:\n  min_run_length: " ++ toString c.minRunLength ++ "\n"

end Config

end Lineage
