import Lineage.History

/-!
# Lineage.Ancestry

Walks over a history, breadth first, toward parents or toward children.  A
walk visits loaded nodes only: a parent that is not loaded leads nowhere, but
a walk toward children may start at one.

* `History.levels` — the walk, one distance after the other; it ends because
  every level but the first marks a node that was free.
-/

namespace Lineage

/-- The nodes of a list that are still free, each once, and the marks with
them. -/
def takeFree (marks : Marks) : List Nat → List Nat × Marks
  | [] => ([], marks)
  | n :: ns =>
    if marks.has n then takeFree marks ns
    else
      let (taken, marks) := takeFree (marks.mark n) ns
      (n :: taken, marks)

theorem free_takeFree (marks : Marks) (ns : List Nat) :
    (takeFree marks ns).2.free + (takeFree marks ns).1.length = marks.free := by
  induction ns generalizing marks with
  | nil => simp [takeFree]
  | cons n ns ih =>
    by_cases h : marks.has n = true
    · simp [takeFree, h, ih]
    · have hm := Marks.free_mark (Bool.eq_false_iff.2 h)
      have := ih (marks.mark n)
      simp only [takeFree, h, Bool.false_eq_true, if_false, List.length_cons]
      omega

namespace History

/-- The walk from a level on: its nodes, then the free neighbours of them in
order, then theirs, and so on. -/
def levels (next : Nat → List Nat) (marks : Marks) (level : List Nat) : List Nat :=
  match _taken : takeFree marks (level.flatMap next) with
  | ([], _) => level
  | (n :: ns, marks') => level ++ levels next marks' (n :: ns)
termination_by marks.free
decreasing_by
  have := free_takeFree marks (level.flatMap next)
  rw [_taken] at this
  simp only [List.length_cons] at this
  omega

/-- The loaded nodes at which a walk from `start` begins. -/
def startsOf (h : History) (direction : Direction) (start : NodeId) : List Nat :=
  if h.isLoaded start then loadedNodes [start]
  else if direction = .up then h.childrenOf start
  else []

/-- The loaded nodes reached from `starts`, themselves included, each once,
in the order of a breadth-first walk. -/
def walk (h : History) (starts : List NodeId) (direction : Direction) : List Nat :=
  let (level, marks) := takeFree (Marks.blank h.size) (starts.flatMap (h.startsOf direction))
  levels (h.next direction) marks level

/-- The loaded nodes that are one of `heads` or an ancestor of one. -/
def reachableFrom (h : History) (heads : List NodeId) : List Nat := h.walk heads .down

/-- Those of a set of nodes that are `node` or have it as an ancestor. -/
def containing (h : History) (node : NodeId) (isHead : NodeId → Bool) : List NodeId :=
  let reached := (h.walk [node] .up).map NodeId.loaded
  (node :: reached.filter (· ≠ node)).filter isHead

end History

end Lineage
