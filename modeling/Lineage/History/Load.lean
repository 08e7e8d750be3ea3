import Std.Data.HashSet
import Lineage.History
import Lineage.Placeholders
import Lineage.Ready

/-!
# Lineage.History.Load

From a commit list to a history.  A list is refused when an id occurs twice,
when a commit is its own parent, or when the parents form a cycle, in this
order of precedence; everything else loads, with a placeholder for every
parent that is not listed.

The order of the nodes is the commit list itself when no parent is listed
before a child.  Otherwise children are put before parents, the least node
that is ready going first.
-/

namespace Lineage

/-- Why a commit list is no history. -/
inductive LoadFault (α : Type) where
  /-- An id occurs more than once. -/
  | repeated (id : α)
  /-- A commit lists itself as a parent. -/
  | ownParent (id : α)
  /-- The parent references form a cycle. -/
  | cycle
deriving DecidableEq, Repr

namespace History

variable {α : Type} [BEq α] [Hashable α]

/-! ## refusals -/

/-- The first value of a list that is in `seen` or occurred before. -/
def firstRepeated (seen : Std.HashSet α) : List α → Option α
  | [] => none
  | a :: as => if seen.contains a then some a else firstRepeated (seen.insert a) as

/-- The first commit that lists itself as a parent. -/
def firstOwnParent (commits : List (Commit α)) : Option (Commit α) :=
  commits.find? fun c => c.parents.contains c.id

/-! ## parents and children -/

/-- The position of each id of a commit list. -/
def indexOf (commits : List (Commit α)) : Std.HashMap α Nat :=
  commits.zipIdx.foldl (fun index p => index.insert p.1.id p.2) ∅

/-- The node of one parent: its position, or else a placeholder. -/
def resolve (index : Std.HashMap α Nat) (slots : Placeholders α) (parent : α) :
    NodeId × Placeholders α :=
  match index[parent]? with
  | some node => (.loaded node, slots)
  | none =>
    let (slot, slots) := slots.slotFor parent
    (.missing slot, slots)

/-- The nodes of a list of parents, the placeholders taken in order. -/
def resolveAll (index : Std.HashMap α Nat) (slots : Placeholders α) :
    List α → List NodeId × Placeholders α
  | [] => ([], slots)
  | p :: ps =>
    let (node, slots) := resolve index slots p
    let (nodes, slots) := resolveAll index slots ps
    (node :: nodes, slots)

/-- The parents of every commit of a list as nodes. -/
def resolveCommits (index : Std.HashMap α Nat) (slots : Placeholders α) :
    List (Commit α) → List (List NodeId) × Placeholders α
  | [] => ([], slots)
  | c :: cs =>
    let (parents, slots) := resolveAll index slots c.parents
    let (table, slots) := resolveCommits index slots cs
    (parents :: table, slots)

/-- Every mention of a parent: the node that makes it and the parent. -/
def mentions (parents : List (List NodeId)) : List (Nat × NodeId) :=
  parents.zipIdx.flatMap fun (ps, node) => ps.map (node, ·)

/-- The mentions of loaded parents as `(parent, child)`. -/
def loadedMentions (parents : List (List NodeId)) : List (Nat × Nat) :=
  (mentions parents).filterMap fun (child, parent) => parent.loaded?.map (·, child)

/-- The mentions of placeholders as `(slot, child)`. -/
def missingMentions (parents : List (List NodeId)) : List (Nat × Nat) :=
  (mentions parents).filterMap fun
    | (child, .missing slot) => some (slot, child)
    | _ => none

/-! ## the order of the nodes -/

/-- Whether no loaded parent comes before a child of it. -/
def isChildrenFirst (parents : List (List NodeId)) : Bool :=
  (loadedMentions parents).all fun (parent, child) => child ≤ parent

/-- At most `rounds` nodes, each one the first of the agenda when its turn
comes; after it, those of its parents that have no other child to wait for
join the agenda. -/
def emitLeast (parents : Nat → List Nat) : (rounds : Nat) → List Nat → Array Nat → List Nat
  | 0, _, _ => []
  | _ + 1, [], _ => []
  | rounds + 1, node :: agenda, waiting =>
    let (waiting, freed) := settle waiting (parents node)
    node :: emitLeast parents rounds (insertAllSorted (· ≤ ·) freed agenda) waiting

/-- The nodes with every child before its parents, always the least node that
is ready next.  Nodes on or below a cycle are left out. -/
def childrenFirst (parents : Array (List NodeId)) (children : Array (List Nat)) : List Nat :=
  let waiting := children.map List.length
  let ready := (List.range parents.size).filter fun n => waiting.getD n 0 = 0
  emitLeast (fun n => loadedNodes (parents.getD n [])) parents.size ready waiting

/-- The order of the nodes, unless there is a cycle. -/
def orderOf? (parents : Array (List NodeId)) (children : Array (List Nat)) : Option RowOrder :=
  if isChildrenFirst parents.toList then some (RowOrder.identity parents.size)
  else
    let nodes := childrenFirst parents children
    if nodes.length = parents.size then some (RowOrder.ofList nodes) else none

/-! ## loading -/

/-- The history of a commit list, with the placeholders taken in it on top of
those in `slots`. -/
def load (commits : List (Commit α)) (slots : Placeholders α) :
    Except (LoadFault α) (History × Placeholders α) :=
  match firstRepeated ∅ (commits.map (·.id)) with
  | some id => .error (.repeated id)
  | none =>
    match firstOwnParent commits with
    | some c => .error (.ownParent c.id)
    | none =>
      let (parents, slots) := resolveCommits (indexOf commits) slots commits
      let children := gather commits.length (loadedMentions parents)
      match orderOf? parents.toArray children with
      | none => .error .cycle
      | some order =>
        let missingChildren := gather slots.size (missingMentions parents)
        .ok ({ parents := parents.toArray, children, missingChildren, order }, slots)

end History

end Lineage
