import Lineage.Rows.Drawing

/-!
# Lineage.Rows.Filter

The two filters.  `Rows.commitsOnly` shows chosen commits and bridges the
paths between them through commits that are hidden; `Rows.historyOnly` shows
the nodes of a restricted history and drops the edges that leave it.
-/

namespace Lineage

namespace Rows

/-! ## chosen commits -/

/-- A list of rows in ascending order, each once. -/
def ascending (rows : List Nat) : List Nat := (rows.mergeSort (· ≤ ·)).eraseDups

/-- The nearest visible rows below a hidden row, given those of the rows
further down. -/
def nearest (t : Rows) (visible : Nat → Bool) (bridges : Array (List Nat)) (row : Nat) :
    List Nat :=
  ascending <| (t.downRows row).flatMap fun below =>
    if visible below then [below] else bridges.getD below []

/-- The bridges of every row: for a hidden one, the visible rows at which a
path down from it first arrives.  Rows are taken from the last one up, so the
rows below a row have theirs before it. -/
def bridgesOf (t : Rows) (visible : Nat → Bool) : Array (List Nat) :=
  (List.range t.size).foldr
    (fun row bridges =>
      if visible row then bridges else bridges.setIfInBounds row (t.nearest visible bridges row))
    (Array.replicate t.size [])

/-- The rows whose nodes are in `keep`. -/
def commitsOnly (t : Rows) (keep : NodeId → Bool) : Rows :=
  let visible := ((List.range t.size).map (t.keeps keep)).toArray
  let bridges := t.bridgesOf fun row => visible.getD row false
  t.projected (fun row => visible.getD row false) fun row => bridges.getD row []

/-! ## a restricted history -/

/-- The rows whose nodes are in `keep`, which holds the parents of its nodes.
An edge to any other node is dropped. -/
def historyOnly (t : Rows) (keep : NodeId → Bool) : Rows :=
  let visible := ((List.range t.size).map (t.keeps keep)).toArray
  t.projected (fun row => visible.getD row false) fun _ => []

end Rows

end Lineage
