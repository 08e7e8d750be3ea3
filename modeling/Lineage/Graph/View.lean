import Lineage.Graph
import Lineage.Stack

/-!
# Lineage.Graph.View

Views of a graph: layers composed for a sort, for the heads whose history is
to be shown, and for the commits that match a search.

* With matches, only they are shown, bridged, and within the history of the
  visible heads if there are any.
* Otherwise visible heads restrict the view to their history, folded except
  under the straightened sort.
* Otherwise every commit is shown, and can be folded except under the
  straightened sort.
-/

namespace Lineage

/-- A view of a graph. -/
structure View (α : Type) [BEq α] [Hashable α] where
  graph : Graph α
  sort : SortKind
  stack : Stack
  /-- The rows of the stack. -/
  rows : Rows

/-- What is known about a row of a view. -/
structure RowInfo (α : Type) where
  row : Nat
  commit : α
  node : Nat
  lane : Nat
  /-- The head that the row's lane belongs to. -/
  head : α

namespace Graph

variable {α : Type} [BEq α] [Hashable α]

/-- The layers that draw the whole history in the order of a sort, and the
graph that remembers the order. -/
def sorted (g : Graph α) : SortKind → Stack × Graph α
  | .normal => (.base g.history.order, g)
  | .bek =>
    let (order, g) := g.rebaseOrder
    (.base order, g)
  | .linearBek =>
    let (order, g) := g.rebaseOrder
    (.straightened g.config.maxBlockSize (.base order), g)

/-- Membership in a list of nodes. -/
def among (nodes : List NodeId) : NodeId → Bool := (Std.HashSet.ofList nodes).contains

/-- The nodes in the history of some heads; unknown heads have none. -/
def historyOf (g : Graph α) (heads : List α) : NodeId → Bool :=
  among ((g.history.reachableFrom (g.directory.nodesOf heads)).map .loaded)

/-- A stack whose runs can be folded as the settings say. -/
def collapsible (g : Graph α) (folded : Bool) (stack : Stack) : Stack :=
  .collapsible (among g.heads) g.config.minRunLength folded stack

/-- The layers of a view. -/
def compose (g : Graph α) (sort : SortKind) (heads : Option (List α))
    (matching : Option (List α)) : Stack × Graph α :=
  let (base, g) := g.sorted sort
  let stack :=
    match matching, heads.map g.historyOf with
    | some commits, history =>
      let filtered := Stack.commitsOnly (among (g.directory.nodesOf commits)) base
      match history with
      | some keep => .historyOnly keep filtered
      | none => filtered
    | none, some keep =>
      let restricted := Stack.historyOnly keep base
      if sort = .linearBek then restricted else g.collapsible true restricted
    | none, none => if sort = .linearBek then base else g.collapsible false base
  (stack, g)

/-- The view with the given layers. -/
def draw (g : Graph α) (sort : SortKind) (stack : Stack) : View α :=
  { graph := g, sort, stack, rows := stack.rows g.history }

/-- A view, and the graph that remembers the order it needed. -/
def view (g : Graph α) (sort : SortKind) (heads : Option (List α))
    (matching : Option (List α)) : View α × Graph α :=
  let (stack, g) := g.compose sort heads matching
  (g.draw sort stack, g)

end Graph

namespace View

variable {α : Type} [BEq α] [Hashable α]

/-- Number of rows. -/
def size (v : View α) : Nat := v.rows.size

/-- The commit shown at a row. -/
def commitAt? (v : View α) (row : Nat) : Option α :=
  (v.rows.node? row).bind fun n => v.graph.directory.id? (.loaded n)

/-- The commits from top to bottom. -/
def commits (v : View α) : List α :=
  v.graph.directory.idsOf (v.rows.nodes.toList.map .loaded)

/-- What is known about a row. -/
def info? (v : View α) (row : Nat) : Option (RowInfo α) := do
  let node ← v.rows.node? row
  let commit ← v.graph.directory.id? (.loaded node)
  let headNode ← v.graph.lanes.headOf? node
  let head ← v.graph.directory.id? (.loaded headNode)
  pure { row, commit, node, lane := v.graph.lanes.lane node, head }

/-- The row that shows a commit. -/
def rowOf? (v : View α) (id : α) : Option Nat := (v.graph.directory.node? id).bind v.rows.rowOf?

/-- The edges at a row in a direction. -/
def edges (v : View α) (row : Nat) (direction : Direction) : List Edge :=
  v.rows.edges row direction

/-- The color of a row: that of its head in the lane of the head itself, that
of a fragment in the other lanes that belong to it. -/
def color? (v : View α) (row : Nat) : Option UInt32 := do
  let node ← v.rows.node? row
  let position := v.graph.lanes.headPosition node
  let headNode ← v.graph.lanes.heads[position]?
  let head ← v.graph.directory.id? (.loaded headNode)
  let lane := v.graph.lanes.lane node
  pure <|
    if v.graph.lanes.starts[position]? = some lane then v.graph.palette.branch head
    else v.graph.palette.fragment head lane

/-- A one-line description of a view. -/
def summary (v : View α) : String :=
  let sort := match v.sort with
    | .normal => "Normal"
    | .bek => "Bek"
    | .linearBek => "LinearBek"
  "VisibleGraph \x7b sort: " ++ sort ++
    ", layers: [" ++ ", ".intercalate (v.stack.names.map fun name => "\"" ++ name ++ "\"") ++
    "], rows: " ++ toString v.size ++ " \x7d"

end View

end Lineage
