import Lineage.Commit
import Lineage.Node
import Lineage.RowOrder

/-!
# Lineage.History

A history over node numbers: the parents and the children of every node, and
the order its nodes are drawn in when no other is asked for.  `History.load`
(`Lineage.History.Load`) makes one from a commit list.
-/

namespace Lineage

/-- Which way to follow the edges of a history. -/
inductive Direction where
  /-- Toward parents. -/
  | down
  /-- Toward children. -/
  | up
deriving DecidableEq, Repr

/-- The parents and children of the nodes of a history. -/
structure History where
  /-- The parents of each loaded node, in the order its commit lists them. -/
  parents : Array (List NodeId)
  /-- The children of each loaded node, once per mention, in ascending order. -/
  children : Array (List Nat)
  /-- The children of each placeholder, likewise. -/
  missingChildren : Array (List Nat)
  /-- Children before parents, as close to the commit list as that allows. -/
  order : RowOrder

namespace History

/-- Number of loaded nodes. -/
def size (h : History) : Nat := h.parents.size

/-- The parents of a node, placeholders included. -/
def parentsOf (h : History) (node : Nat) : List NodeId := h.parents.getD node []

/-- The loaded parents of a node.  A placeholder leads nowhere. -/
def loadedParents (h : History) (node : Nat) : List Nat := loadedNodes (h.parentsOf node)

/-- The children of a loaded node or of a placeholder; others have none. -/
def childrenOf (h : History) : NodeId → List Nat
  | .loaded n => h.children.getD n []
  | .missing s => h.missingChildren.getD s []
  | .none => []

/-- Whether a node id is that of a loaded node. -/
def isLoaded (h : History) : NodeId → Bool
  | .loaded n => n < h.size
  | _ => false

/-- Number of parent mentions, those of placeholders included. -/
def edgeCount (h : History) : Nat := h.parents.foldl (fun count ps => count + ps.length) 0

/-- The neighbours of a loaded node in a direction. -/
def next (h : History) : Direction → Nat → List Nat
  | .down, n => h.loadedParents n
  | .up, n => h.childrenOf (.loaded n)

end History

end Lineage
