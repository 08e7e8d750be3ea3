import Lineage.Ancestry
import Lineage.Config
import Lineage.Directory
import Lineage.History.Store
import Lineage.Palette
import Lineage.Rebase.Interleave

/-!
# Lineage.Graph

A commit graph: a loaded history with its directory of identifiers, its
lanes, the branch heads that were declared, and the colors of the heads.
History queries are answered here in terms of identifiers; views are composed
in `Lineage.Graph.View`.
-/

namespace Lineage

/-- Why a graph cannot be built or a query not answered. -/
inductive GraphError (α : Type) where
  /-- No commit of the graph has this identifier. -/
  | unknown (id : α)
  /-- The commit list is no history. -/
  | malformed (fault : LoadFault α)
deriving DecidableEq, Repr

/-- What is wrong with a commit list that does not load. -/
def LoadFault.message {α : Type} [Ident α] : LoadFault α → String
  | .repeated id => "malformed commit list: commit " ++ Ident.quoted id ++ " appears more than once"
  | .ownParent id =>
    "malformed commit list: commit " ++ Ident.quoted id ++ " lists itself as a parent"
  | .cycle => "malformed commit list: parent references form a cycle"

/-- What is wrong with a commit list that has no store.  Nothing is said of a
number or an index that is out of range. -/
def StoreFault.message? {α : Type} [Ident α] : StoreFault α → Option String
  | .tooMany count =>
    some ("malformed commit list: " ++ toString count ++ " commits exceed the addressable node range")
  | .malformed fault => some fault.message
  | .overflow => none
  | .outside => none

/-- The text of an error. -/
def GraphError.message {α : Type} [Ident α] : GraphError α → String
  | .unknown id => "unknown commit: " ++ Ident.quoted id
  | .malformed fault => fault.message

/-- A commit graph. -/
structure Graph (α : Type) [BEq α] [Hashable α] where
  history : History
  directory : Directory α
  lanes : Lanes
  /-- The nodes of the declared heads, each once. -/
  heads : List NodeId
  palette : Palette α
  config : Config
  /-- The rebase order, once it has been asked for. -/
  rebased : Option RowOrder

namespace Graph

variable {α : Type} [BEq α] [Hashable α]

/-! ## building -/

/-- Ranks two head nodes as the palette ranks their commits. -/
def compareNodes (d : Directory α) (palette : Palette α) (a b : Nat) : Ordering :=
  match d.id? (.loaded a), d.id? (.loaded b) with
  | some x, some y => palette.compare x y
  | _, _ => compare a b

/-- The graph of a commit list with declared heads.  A head that is not
listed gets a placeholder. -/
def load (commits : List (Commit α)) (palette : Palette α) (heads : List α) (config : Config) :
    Except (GraphError α) (Graph α) :=
  match History.load commits .empty with
  | .error fault => .error (.malformed fault)
  | .ok (history, slots) =>
    let listed := Std.HashSet.ofList (commits.map (·.id))
    let slots := slots.reserve (heads.filter fun head => !listed.contains head)
    let directory := Directory.ofCommits commits slots.commits.toList
    .ok
      { history
        directory
        lanes := Lanes.ofHistory history (compareNodes directory palette)
        heads := directory.nodesOf heads
        palette
        config
        rebased := none }

/-! ## history queries -/

/-- The node of an identifier. -/
def lookup (g : Graph α) (id : α) : Except (GraphError α) NodeId :=
  match g.directory.node? id with
  | some node => .ok node
  | none => .error (.unknown id)

/-- The loaded commits as they were listed. -/
def allCommits (g : Graph α) : List (Commit α) :=
  (List.range g.history.size).filterMap fun n =>
    (g.directory.id? (.loaded n)).map fun id =>
      { id
        parents := g.directory.idsOf (g.history.parentsOf n)
        timestamp := g.directory.timestamp (.loaded n) }

/-- The loaded children of a commit, which may itself be a placeholder. -/
def children (g : Graph α) (id : α) : Except (GraphError α) (List α) := do
  let node ← g.lookup id
  pure (g.directory.idsOf ((g.history.childrenOf node).map .loaded))

/-- The declared heads that are a commit or have it as an ancestor. -/
def containingHeads (g : Graph α) (id : α) : Except (GraphError α) (List α) := do
  let node ← g.lookup id
  pure (g.directory.idsOf (g.history.containing node g.heads.contains))

/-- The nodes of several identifiers; the first unknown one is an error. -/
def lookupAll (g : Graph α) (ids : List α) : Except (GraphError α) (List NodeId) :=
  ids.mapM g.lookup

/-- The commits that are one of some heads or an ancestor of one. -/
structure Containment (α : Type) [BEq α] [Hashable α] where
  directory : Directory α
  /-- Their nodes, each once. -/
  nodes : Std.HashSet NodeId

/-- The commits contained in `heads`. -/
def containment (g : Graph α) (heads : List α) : Except (GraphError α) (Containment α) := do
  let nodes ← g.lookupAll heads
  let reached := (g.history.reachableFrom nodes).map NodeId.loaded
  pure { directory := g.directory, nodes := Std.HashSet.ofList (reached ++ nodes) }

namespace Containment

/-- Whether a commit is contained; an unknown one is not. -/
def contains (c : Containment α) (id : α) : Bool :=
  (c.directory.node? id).any c.nodes.contains

/-- Number of commits contained. -/
def size (c : Containment α) : Nat := c.nodes.size

end Containment

/-! ## rebase order -/

/-- The rebase order of the graph, and the graph that remembers it. -/
def rebaseOrder (g : Graph α) : RowOrder × Graph α :=
  match g.rebased with
  | some order => (order, g)
  | none =>
    let order := g.history.rebaseOrder g.lanes fun n => g.directory.timestamp (.loaded n)
    (order, { g with rebased := some order })

/-- A one-line description of the graph. -/
def summary (g : Graph α) : String :=
  "PermanentGraph \x7b nodes: " ++ toString g.history.size ++
    ", branches: " ++ toString g.heads.length ++
    ", bek_cached: " ++ (if g.rebased.isSome then "true" else "false") ++ " \x7d"

end Graph

end Lineage
