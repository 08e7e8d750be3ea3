import Lineage.History

/-!
# Lineage.Rows

The rows of one layer, top to bottom: the node that each row shows and the
edges between rows.  The base layer shows every loaded node in a given order;
the layers above it are drawn from the rows of the layer below
(`Lineage.Rows.Drawing`).
-/

namespace Lineage

/-! ## edges -/

/-- How an edge between two rows is drawn. -/
inductive Stroke where
  /-- A parent link of the history. -/
  | usual
  /-- A path through rows that are not shown. -/
  | dotted
deriving DecidableEq, Repr

/-- Where an edge toward parents ends. -/
inductive Down where
  /-- At a row. -/
  | row (row : Nat) (stroke : Stroke)
  /-- At a parent that is not loaded, which has no row. -/
  | missing (slot : Nat)
deriving DecidableEq, Repr

namespace Down

/-- The row an edge ends at. -/
def row? : Down → Option Nat
  | .row r _ => some r
  | .missing _ => none

end Down

/-- Where an edge toward children ends. -/
structure Up where
  row : Nat
  stroke : Stroke
deriving DecidableEq, Repr

/-- An edge: its upper row and its lower end. -/
structure Edge where
  up : Nat
  down : Down
deriving DecidableEq, Repr

/-! ## rows -/

/-- The rows of a layer. -/
structure Rows where
  /-- The node shown at each row. -/
  nodes : Array Nat
  /-- The row of each loaded node, if it is shown. -/
  places : Array (Option Nat)
  /-- The edges of each row toward parents. -/
  down : Array (List Down)
  /-- The edges of each row toward children. -/
  up : Array (List Up)

namespace Rows

/-- Number of rows. -/
def size (t : Rows) : Nat := t.nodes.size

/-- The node shown at a row. -/
def node? (t : Rows) (row : Nat) : Option Nat := t.nodes[row]?

/-- The row that shows a node. -/
def rowOf? (t : Rows) : NodeId → Option Nat
  | .loaded n => t.places.getD n none
  | _ => none

/-- The edges of a row toward parents. -/
def downOf (t : Rows) (row : Nat) : List Down := t.down.getD row []

/-- The edges of a row toward children. -/
def upOf (t : Rows) (row : Nat) : List Up := t.up.getD row []

/-- The edges at a row in a direction. -/
def edges (t : Rows) (row : Nat) : Direction → List Edge
  | .down => (t.downOf row).map (⟨row, ·⟩)
  | .up => (t.upOf row).map fun e => ⟨e.row, .row row e.stroke⟩

/-- The rows directly below a row. -/
def downRows (t : Rows) (row : Nat) : List Nat := (t.downOf row).filterMap Down.row?

/-- The rows directly above a row. -/
def upRows (t : Rows) (row : Nat) : List Nat := (t.upOf row).map (·.row)

/-- Whether a row is shown when only the nodes in `keep` are. -/
def keeps (t : Rows) (keep : NodeId → Bool) (row : Nat) : Bool :=
  (t.node? row).any fun n => keep (.loaded n)

/-! ## the base layer -/

/-- The edge to a parent when nodes are shown in a given order. -/
def downTo (o : RowOrder) : NodeId → Option Down
  | .loaded n => some (.row (o.rowOf n) .usual)
  | .missing s => some (.missing s)
  | .none => none

/-- Every loaded node of a history, in a given order, with one edge for each
mention of a parent. -/
def ofHistory (h : History) (o : RowOrder) : Rows :=
  let nodes := (List.range h.size).map o.nodeAt
  { nodes := nodes.toArray
    places := ((List.range h.size).map fun n => some (o.rowOf n)).toArray
    down := (nodes.map fun n => (h.parentsOf n).filterMap (downTo o)).toArray
    up := (nodes.map fun n => (h.childrenOf (.loaded n)).map fun c => ⟨o.rowOf c, .usual⟩).toArray }

end Rows

end Lineage
