import Lineage.Ready
import Lineage.Rebase.Strands

/-!
# Lineage.Rebase.Interleave

The rebase order of a history: its strands merged into one order in which
every node comes after all of its children.  After a node, the next one on
its strand goes out if it is ready; otherwise the newest node that is ready
does, the one in the smaller lane of equally new ones, and then the one with
the smaller number.
-/

namespace Lineage

/-- What a ready node is ranked by. -/
structure Rank where
  timestamp : Int
  lane : Nat
  node : Nat
deriving DecidableEq, Repr

namespace Rank

/-- Newer first, then the smaller lane, then the smaller number. -/
def before (a b : Rank) : Bool :=
  b.timestamp < a.timestamp ||
    (a.timestamp = b.timestamp && (a.lane < b.lane || (a.lane = b.lane && a.node ≤ b.node)))

end Rank

/-- A merge of strands under way. -/
structure Merge where
  /-- For each node, the mentions by children that are still to come. -/
  waiting : Array Nat
  /-- The nodes that are out. -/
  out : Marks
  /-- The nodes that have become ready, ranked.  One that went out by way of
  its strand is only dropped when its turn comes. -/
  agenda : List Rank
  /-- The node that went out last. -/
  last : Option Nat

namespace Merge

/-- The next node on the strand of the last one, if it is ready. -/
def continuation? (s : Strands) (m : Merge) : Option Nat :=
  (m.last.bind s.next?).filter fun next => !m.out.has next && m.waiting.getD next 0 = 0

/-- The agenda from its first node on that is still to go out. -/
def pending (m : Merge) : List Rank := m.agenda.dropWhile fun r => m.out.has r.node

/-- The next node to go out, and the agenda without it. -/
def pick? (s : Strands) (m : Merge) : Option (Nat × List Rank) :=
  match m.continuation? s with
  | some next => some (next, m.agenda)
  | none =>
    match m.pending with
    | [] => none
    | r :: rest => some (r.node, rest)

/-- Lets a node go out: its parents have one child less to wait for. -/
def emit (h : History) (rank : Nat → Rank) (m : Merge) (node : Nat) (agenda : List Rank) : Merge :=
  let (waiting, freed) := settle m.waiting (h.loadedParents node)
  { waiting
    out := m.out.mark node
    agenda := insertAllSorted Rank.before (freed.map rank) agenda
    last := some node }

/-- At most `rounds` nodes, in the order in which they go out. -/
def run (h : History) (s : Strands) (rank : Nat → Rank) : (rounds : Nat) → Merge → List Nat
  | 0, _ => []
  | rounds + 1, m =>
    match m.pick? s with
    | none => []
    | some (node, agenda) => node :: run h s rank rounds (m.emit h rank node agenda)

/-- The merge before any node is out: those without children are ready. -/
def start (h : History) (rank : Nat → Rank) : Merge :=
  let waiting := ((List.range h.size).map fun n => (h.childrenOf (.loaded n)).length).toArray
  let ready := (List.range h.size).filter fun n => waiting.getD n 0 = 0
  { waiting
    out := Marks.blank h.size
    agenda := (ready.map rank).mergeSort Rank.before
    last := none }

end Merge

namespace History

/-- The nodes of a history with its strands merged. -/
def interleave (h : History) (lanes : Lanes) (strands : Strands) (timestamp : Nat → Int) :
    List Nat :=
  let rank := fun node => { timestamp := timestamp node, lane := lanes.lane node, node : Rank }
  Merge.run h strands rank h.size (Merge.start h rank)

/-- The rebase order of a history. -/
def rebaseOrder (h : History) (lanes : Lanes) (timestamp : Nat → Int) : RowOrder :=
  RowOrder.ofList (h.interleave lanes (Strands.ofHistory h lanes) timestamp)

end History

end Lineage
