/-!
# Lineage.Commit

One commit of a history as its owner names it: an identifier, the identifiers
of its parents, and a timestamp.
-/

namespace Lineage

/-- A commit record.  Parents are kept in their order, with repetitions, and
may name commits that were never listed. -/
structure Commit (α : Type) where
  id : α
  parents : List α
  /-- The ordering key, usually the commit time in seconds.  Ties are allowed. -/
  timestamp : Int
deriving DecidableEq, Repr

end Lineage
