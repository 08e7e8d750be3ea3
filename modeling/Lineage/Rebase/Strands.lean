import Lineage.Lanes

/-!
# Lineage.Rebase.Strands

The strands of a history: downward paths of nodes that the rebase order tries
to keep together.  Nodes are considered by lane, then by number; each one
that is on no strand yet starts one, which grows along the first suitable
parent of its last node.

* `History.grow` — a strand ends because each step takes a free node.
-/

namespace Lineage

namespace History

/-- The parent at which a strand goes on from `node`: the first one that is
free, lies in no smaller lane, and whose children are all taken or in a
larger lane than its own. -/
def strandParent? (h : History) (lane : Nat → Nat) (taken : Marks) (node : Nat) : Option Nat :=
  (h.loadedParents node).find? fun parent =>
    !taken.has parent && (lane node ≤ lane parent &&
      (h.childrenOf (.loaded parent)).all fun child =>
        taken.has child || lane parent < lane child)

theorem strandParent?_free {h : History} {lane : Nat → Nat} {taken : Marks} {node parent : Nat}
    (hp : h.strandParent? lane taken node = some parent) : taken.has parent = false := by
  have := List.find?_some hp
  simp only [Bool.and_eq_true, Bool.not_eq_true'] at this
  exact this.1

/-- The rest of a strand below `node`, and what is taken then. -/
def grow (h : History) (lane : Nat → Nat) (taken : Marks) (node : Nat) : List Nat × Marks :=
  match _next : h.strandParent? lane taken node with
  | none => ([], taken)
  | some parent =>
    let (rest, taken') := grow h lane (taken.mark parent) parent
    (parent :: rest, taken')
termination_by taken.free
decreasing_by
  have := Marks.free_mark (strandParent?_free _next)
  omega

/-- The strands that start at the nodes of a list, those already taken left
out. -/
def growAll (h : History) (lane : Nat → Nat) : Marks → List Nat → List (List Nat)
  | _, [] => []
  | taken, node :: nodes =>
    if taken.has node then growAll h lane taken nodes
    else
      let (rest, taken') := grow h lane (taken.mark node) node
      (node :: rest) :: growAll h lane taken' nodes

end History

/-- The strands of a history, and for each node the number of its strand and its
offset there. -/
structure Strands where
  rows : Array (Array Nat)
  number : Array Nat
  offset : Array Nat

namespace Strands

/-- The strands, each from top to bottom. -/
def paths (s : Strands) : List (List Nat) := s.rows.toList.map Array.toList

/-- No strands yet of `size` nodes. -/
def blank (size : Nat) : Strands :=
  { rows := #[], number := Array.replicate size 0, offset := Array.replicate size 0 }

/-- Notes that a node stands on the next strand, at an offset. -/
def note (s : Strands) (p : Nat × Nat) : Strands :=
  { s with
    number := s.number.setIfInBounds p.1 s.rows.size
    offset := s.offset.setIfInBounds p.1 p.2 }

/-- A further strand. -/
def push (s : Strands) (path : List Nat) : Strands :=
  let s := path.zipIdx.foldl note s
  { s with rows := s.rows.push path.toArray }

/-- The nodes of a history by lane, then by number. -/
def byLane (h : History) (lane : Nat → Nat) : List Nat :=
  (List.range h.size).mergeSort fun a b => lane a < lane b || (lane a = lane b && a ≤ b)

/-- The strands of a history with the given lanes. -/
def ofHistory (h : History) (lanes : Lanes) : Strands :=
  (h.growAll lanes.lane (Marks.blank h.size) (byLane h lanes.lane)).foldl push (blank h.size)

/-- The strand of a node, by number, and its offset there. -/
def spot? (s : Strands) (node : Nat) : Option (Nat × Nat) := do
  pure (← s.number[node]?, ← s.offset[node]?)

/-- The node after `node` on its strand. -/
def next? (s : Strands) (node : Nat) : Option Nat := do
  let (number, offset) ← s.spot? node
  let row ← s.rows[number]?
  row[offset + 1]?

end Strands

end Lineage
