import Lineage.Rows.Filter
import Lineage.Rows.Collapse
import Lineage.Rows.Straighten

/-!
# Lineage.Stack

Layers stacked on the base order of a history.  A stack only says which
layers there are; `Stack.rows` draws it.  The topmost layer, where it is one
that collapses runs, can be folded and unfolded, which changes nothing but
that choice.
-/

namespace Lineage

/-- A stack of layers, from the topmost one down to the base. -/
inductive Stack where
  /-- Every loaded node, in a given order. -/
  | base (order : RowOrder)
  /-- Bubbles with sides of at most `most` rows drawn as lines. -/
  | straightened (most : Nat) (inner : Stack)
  /-- The commits in `keep` only, with bridges between them. -/
  | commitsOnly (keep : NodeId → Bool) (inner : Stack)
  /-- The nodes in `keep` only, without the edges that leave it. -/
  | historyOnly (keep : NodeId → Bool) (inner : Stack)
  /-- Plain runs of at least `least` rows hidden while `folded`. -/
  | collapsible (isBranch : NodeId → Bool) (least : Nat) (folded : Bool) (inner : Stack)

namespace Stack

/-- The name of the topmost layer. -/
def name : Stack → String
  | .base _ => "base"
  | .straightened .. => "linear-bek"
  | .commitsOnly .. => "commit-filter"
  | .historyOnly .. => "branch-filter"
  | .collapsible .. => "collapsed"

/-- The stack under the topmost layer. -/
def inner? : Stack → Option Stack
  | .base _ => none
  | .straightened _ s | .commitsOnly _ s | .historyOnly _ s | .collapsible _ _ _ s => some s

/-- The names of all layers, the topmost first. -/
def names : Stack → List String
  | .base order => [(Stack.base order).name]
  | s@(.straightened _ t) | s@(.commitsOnly _ t) | s@(.historyOnly _ t)
  | s@(.collapsible _ _ _ t) => s.name :: t.names

/-- Whether the topmost layer is folded; `none` if it is not one that folds. -/
def folded? : Stack → Option Bool
  | .collapsible _ _ folded _ => some folded
  | _ => none

/-- The stack with its topmost layer folded or unfolded, where it is one that
folds. -/
def setFolded (folded : Bool) : Stack → Stack
  | .collapsible isBranch least _ s => .collapsible isBranch least folded s
  | s => s

/-- The rows of the topmost layer over a history. -/
def rows (h : History) : Stack → Rows
  | .base order => Rows.ofHistory h order
  | .straightened most s => (s.rows h).straightened most
  | .commitsOnly keep s => (s.rows h).commitsOnly keep
  | .historyOnly keep s => (s.rows h).historyOnly keep
  | .collapsible isBranch least true s => (s.rows h).collapsed isBranch least
  | .collapsible _ _ false s => (s.rows h).redrawn

end Stack

end Lineage
