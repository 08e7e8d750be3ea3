import Lineage.Table

/-!
# Lineage.RowOrder

An order of the nodes of a history from top to bottom: which node each row
shows, and in which row each node is shown.
-/

namespace Lineage

/-- The nodes from top to bottom, looked up both ways. -/
structure RowOrder where
  nodes : Array Nat
  rows : Array (Option Nat)

namespace RowOrder

/-- The order that shows the nodes of a list, which names each of
`0 … length - 1` once. -/
def ofList (nodes : List Nat) : RowOrder := ⟨nodes.toArray, positions nodes.length nodes⟩

/-- Every node in the row of its own number. -/
def identity (count : Nat) : RowOrder := ofList (List.range count)

/-- Number of rows. -/
def size (o : RowOrder) : Nat := o.nodes.size

/-- The node shown at a row.  A row beyond the last stands for itself. -/
def nodeAt (o : RowOrder) (row : Nat) : Nat := o.nodes.getD row row

/-- The row of a node.  A node that is not shown stands for itself. -/
def rowOf (o : RowOrder) (node : Nat) : Nat := (o.rows.getD node none).getD node

@[simp] theorem size_ofList (nodes : List Nat) : (ofList nodes).size = nodes.length := by
  simp [ofList, size]

end RowOrder

end Lineage
