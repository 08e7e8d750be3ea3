import Std.Data.HashMap
import Lineage.Commit
import Lineage.Node

/-!
# Lineage.Directory

Commits by identifier and by node number.  A directory knows the loaded
commits, in node order, and the commits that are only mentioned, in slot
order, and translates either way.
-/

namespace Lineage

/-- The translation between identifiers and node ids. -/
structure Directory (α : Type) [BEq α] [Hashable α] where
  /-- The identifiers of the loaded commits. -/
  ids : Array α
  timestamps : Array Int
  /-- The identifiers of the placeholders. -/
  missing : Array α
  nodes : Std.HashMap α NodeId

namespace Directory

variable {α : Type} [BEq α] [Hashable α]

/-- The directory of a commit list and its placeholders.  Should an identifier
occur more than once, its last occurrence counts, placeholders last. -/
def ofCommits (commits : List (Commit α)) (missing : List α) : Directory α :=
  let loaded := commits.zipIdx.foldl (fun nodes p => nodes.insert p.1.id (.loaded p.2)) ∅
  { ids := (commits.map (·.id)).toArray
    timestamps := (commits.map (·.timestamp)).toArray
    missing := missing.toArray
    nodes := missing.zipIdx.foldl (fun nodes p => nodes.insert p.1 (.missing p.2)) loaded }

/-- The identifier of a node. -/
def id? (d : Directory α) : NodeId → Option α
  | .loaded n => d.ids[n]?
  | .missing s => d.missing[s]?
  | .none => none

/-- The node of an identifier. -/
def node? (d : Directory α) (id : α) : Option NodeId := d.nodes[id]?

/-- The timestamp of a node, `0` for one that is not loaded. -/
def timestamp (d : Directory α) : NodeId → Int
  | .loaded n => d.timestamps.getD n 0
  | _ => 0

/-- The nodes of the identifiers that are known, each once. -/
def nodesOf (d : Directory α) (ids : List α) : List NodeId :=
  (ids.filterMap d.node?).eraseDups

/-- The identifiers of the nodes that are known, in order. -/
def idsOf (d : Directory α) (nodes : List NodeId) : List α := nodes.filterMap d.id?

end Directory

end Lineage
