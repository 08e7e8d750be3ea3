import Lineage.History

/-!
# Lineage.Lanes

A lane for every node of a history.  Heads, the nodes without children, are
taken from the most important one down, and the nodes below each head that
have no lane yet are walked depth first; every path of the walk that descends
without turning back gets a lane of its own.  Lanes are numbered from `1`, so
the lanes of one head follow those of the head before it.

* `Painting.free_give` — a node that gets a lane is one node less to paint,
  which ends the walk.
-/

namespace Lineage

/-! ## painting -/

/-- Lanes given so far; `0` stands for none. -/
structure Painting where
  lanes : Array Nat
  /-- Number of lanes that are closed.  The open lane is the next one. -/
  closed : Nat

namespace Painting

/-- The lane being painted. -/
def current (p : Painting) : Nat := p.closed + 1

/-- Whether a node has no lane yet. -/
def isFree (p : Painting) (node : Nat) : Bool := p.lanes[node]? == some 0

/-- Gives the current lane to a node. -/
def give (p : Painting) (node : Nat) : Painting :=
  { p with lanes := p.lanes.setIfInBounds node p.current }

/-- Closes the current lane. -/
def close (p : Painting) : Painting := { p with closed := p.closed + 1 }

/-- Leaves a node: closes the lane if the walk has just arrived there. -/
def leave (p : Painting) (arrived : Bool) : Painting := if arrived then p.close else p

/-- Number of nodes without a lane. -/
def free (p : Painting) : Nat := p.lanes.count 0

theorem free_give {p : Painting} {node : Nat} (h : p.isFree node = true) :
    (p.give node).free + 1 = p.free := by
  have hn : p.lanes[node]? = some 0 := by simpa [isFree] using h
  obtain ⟨hi, h0⟩ := Array.getElem?_eq_some_iff.1 hn
  have hpos : 0 < p.lanes.count 0 := Array.count_pos_iff.2 (h0 ▸ Array.getElem_mem hi)
  simp only [give, free, Array.setIfInBounds, hi, dif_pos, Array.count_set hi, h0, current]
  simp
  omega

theorem free_leave (p : Painting) (arrived : Bool) : (p.leave arrived).free = p.free := by
  cases arrived <;> rfl

/-- Walks on from the top of a stack of nodes that have their lanes.  The walk
goes to the first free parent of the top node; where there is none it goes
back, and closes the lane if it has just arrived. -/
def descend (h : History) (p : Painting) (stack : List Nat) (arrived : Bool) : Painting :=
  match stack with
  | [] => p
  | node :: rest =>
    match _found : (h.loadedParents node).find? p.isFree with
    | some parent => descend h (p.give parent) (parent :: node :: rest) true
    | none => descend h (p.leave arrived) rest false
termination_by 2 * p.free + stack.length
decreasing_by
  · have := free_give (List.find?_some _found)
    simp only [List.length_cons]
    omega
  · rw [free_leave, List.length_cons]
    omega

/-- Paints a free node and everything free below it. -/
def paint (h : History) (p : Painting) (start : Nat) : Painting :=
  descend h (p.give start) [start] true

/-- Paints below each head in turn; gives the first lane of each as well. -/
def paintAll (h : History) : Painting → List Nat → Painting × List Nat
  | p, [] => (p, [])
  | p, head :: heads =>
    let (q, starts) := paintAll h (p.paint h head) heads
    (q, p.current :: starts)

end Painting

/-! ## lanes of a history -/

/-- The lanes of a history. -/
structure Lanes where
  /-- The lane of each node. -/
  lanes : Array Nat
  /-- The heads, the most important one first. -/
  heads : List Nat
  /-- The first lane of each head. -/
  starts : List Nat

namespace Lanes

/-- The nodes without children. -/
def headsOf (h : History) : List Nat :=
  (List.range h.size).filter fun n => (h.childrenOf (.loaded n)).isEmpty

/-- The lanes of a history whose heads are ranked by `compare`, equal ones by
their number. -/
def ofHistory (h : History) (compare : Nat → Nat → Ordering) : Lanes :=
  let heads := (headsOf h).mergeSort fun a b => compare a b != .gt
  let (painting, starts) := Painting.paintAll h ⟨Array.replicate h.size 0, 0⟩ heads
  { lanes := painting.lanes, heads, starts }

/-- The lane of a node. -/
def lane (l : Lanes) (node : Nat) : Nat := l.lanes.getD node 0

/-- The place, among the heads, of the head that a node's lane belongs to. -/
def headPosition (l : Lanes) (node : Nat) : Nat :=
  (l.starts.takeWhile (· ≤ l.lane node)).length - 1

/-- The head that a node's lane belongs to. -/
def headOf? (l : Lanes) (node : Nat) : Option Nat := l.heads[l.headPosition node]?

end Lanes

end Lineage
