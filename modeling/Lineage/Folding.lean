import Lineage.Stack

/-!
# Lineage.Folding

A layer that is folded and unfolded in place.  It keeps the rows it shows, and
draws them anew, from the rows it is put on, only when it is folded or unfolded
and was not so before.
-/

namespace Lineage

/-- A layer that folds plain runs of at least `least` rows. -/
structure Folding where
  /-- The rows it is put on. -/
  inner : Rows
  isBranch : NodeId → Bool
  least : Nat
  folded : Bool
  /-- The rows it shows. -/
  rows : Rows

namespace Folding

/-- A layer put on some rows.  It starts unfolded. -/
def above (inner : Rows) (isBranch : NodeId → Bool) (least : Nat) : Folding :=
  { inner, isBranch, least, folded := false, rows := inner.redrawn }

/-- The rows to show when the layer is folded, or when it is not. -/
def draw (f : Folding) : Bool → Rows
  | true => f.inner.collapsed f.isBranch f.least
  | false => f.inner.redrawn

/-- The layer folded or unfolded; nothing happens if it is so already. -/
def setFolded (f : Folding) (folded : Bool) : Folding :=
  if f.folded = folded then f else { f with folded, rows := f.draw folded }

end Folding

/-- The topmost layer of a stack as one to be folded and unfolded, where it is
one that folds. -/
def Stack.folding? (h : History) : Stack → Option Folding
  | .collapsible isBranch least folded s =>
    some ((Folding.above (s.rows h) isBranch least).setFolded folded)
  | _ => none

end Lineage
