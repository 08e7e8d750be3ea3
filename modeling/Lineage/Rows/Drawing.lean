import Lineage.Rows

/-!
# Lineage.Rows.Drawing

A layer drawn over another one: which inner row each of its rows shows, and
its own edges.  Several targets of one row at the same end make one edge, in
the place of the first of them, which is usual as soon as one of them is; the
edges toward children are the edges toward parents seen from below.

* `Rows.projected` — an inner row that is hidden is replaced, as the end of
  an edge, by dotted edges to its bridges.
-/

namespace Lineage

/-! ## merging targets -/

/-- Whether two edges of one row end at the same place. -/
def Down.sameEnd : Down → Down → Bool
  | .row r _, .row s _ => r == s
  | .missing r, .missing s => r == s
  | _, _ => false

/-- Two edges with the same end as one: usual if the second one is, else as
the first. -/
def Down.join : Down → Down → Down
  | .row r _, .row _ .usual => .row r .usual
  | d, _ => d

/-- One more target among the edges of a row. -/
def addTarget (edges : List Down) (target : Down) : List Down :=
  match edges with
  | [] => [target]
  | d :: ds => if d.sameEnd target then d.join target :: ds else d :: addTarget ds target

/-- The edges of a row with the given targets. -/
def mergeTargets (targets : List Down) : List Down := targets.foldl addTarget []

/-! ## drawings -/

/-- An edge of an inner row, moved to the rows at `places`. -/
def Down.moved (places : Array (Option Nat)) : Down → Option Down
  | .row r stroke => (places.getD r none).map (.row · stroke)
  | .missing s => some (.missing s)

/-- A layer over some inner rows, before their nodes are looked up. -/
structure Drawing where
  /-- The inner row shown at each row. -/
  shown : Array Nat
  /-- The row that shows each inner row, if any does. -/
  places : Array (Option Nat)
  down : Array (List Down)
  up : Array (List Up)

namespace Drawing

/-- The edges of all rows with loaded ends, by lower row. -/
def upward (down : List (List Down)) : List (Nat × Up) :=
  down.zipIdx.flatMap fun (edges, row) => edges.filterMap fun
    | .row r stroke => some (r, ⟨row, stroke⟩)
    | .missing _ => none

/-- The drawing that shows the inner rows `shown`, of `innerSize` in all, and
gives each row the edges to its targets, which are rows of the drawing. -/
def ofTargets (shown : List Nat) (innerSize : Nat) (targets : List (List Down)) : Drawing :=
  let down := targets.map mergeTargets
  { shown := shown.toArray
    places := positions innerSize shown
    down := down.toArray
    up := gather shown.length (upward down) }

/-- The row that shows an inner row. -/
def placeOf? (d : Drawing) (innerRow : Nat) : Option Nat := d.places.getD innerRow none

/-- The rows of a drawing over `inner`. -/
def rowsOn (d : Drawing) (inner : Rows) : Rows :=
  { nodes := d.shown.filterMap inner.node?
    places := inner.places.map fun place => place.bind d.placeOf?
    down := d.down
    up := d.up }

end Drawing

namespace Rows

/-! ## projections -/

/-- The targets of an inner edge when rows are hidden: a shown row stays the
end of the edge, a hidden one is replaced by its bridges. -/
def bridged (visible : Nat → Bool) (bridges : Nat → List Nat) : Down → List Down
  | .row r stroke => if visible r then [.row r stroke] else (bridges r).map (.row · .dotted)
  | .missing s => [.missing s]

/-- The drawing of the inner rows that are visible, in their order.  An edge
into a hidden row becomes dotted edges to the bridges of that row. -/
def projection (inner : Rows) (visible : Nat → Bool) (bridges : Nat → List Nat) : Drawing :=
  let shown := (List.range inner.size).filter visible
  let places := positions inner.size shown
  Drawing.ofTargets shown inner.size <| shown.map fun row =>
    ((inner.downOf row).flatMap (bridged visible bridges)).filterMap (Down.moved places)

/-- The rows of a projection. -/
def projected (inner : Rows) (visible : Nat → Bool) (bridges : Nat → List Nat) : Rows :=
  (inner.projection visible bridges).rowsOn inner

/-- Every inner row, with the edges it has. -/
def redrawn (inner : Rows) : Rows := inner.projected (fun _ => true) fun _ => []

end Rows

end Lineage
