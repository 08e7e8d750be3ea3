import Lineage.Rows.Drawing

/-!
# Lineage.Rows.Collapse

Collapsing long plain stretches of a history.  A row is plain when it has one
edge up and one edge down, both usual, and its node is no branch head.  A run
is a longest sequence of plain rows each directly below the one before; a run
that is long enough is hidden, and the rows around it are linked by a dotted
edge.
-/

namespace Lineage

namespace Rows

/-- Whether a row is plain. -/
def isPlain (t : Rows) (isBranch : NodeId → Bool) (row : Nat) : Bool :=
  match t.upOf row, t.downOf row with
  | [⟨_, .usual⟩], [.row _ .usual] => !t.keeps isBranch row
  | _, _ => false

/-- The run of plain rows from `row` on, and the first row below it that is
not plain.  Edges lead down the rows, so the search ends. -/
def runFrom (t : Rows) (plain : Nat → Bool) (row : Nat) : List Nat × Option Nat :=
  match t.downRows row with
  | [] => ([row], none)
  | below :: _ =>
    if plain below then
      if row < below ∧ below < t.size then
        let (run, last) := runFrom t plain below
        (row :: run, last)
      else ([row], none)
    else ([row], some below)
termination_by t.size - row

/-- Whether a row begins a run: it is plain and no row above it is. -/
def beginsRun (t : Rows) (plain : Nat → Bool) (row : Nat) : Bool :=
  plain row && !(t.upRows row).any plain

/-- The runs of at least `least` rows, each with the row below it. -/
def longRuns (t : Rows) (plain : Nat → Bool) (least : Nat) : List (List Nat × Nat) :=
  ((List.range t.size).filter (t.beginsRun plain)).filterMap fun start =>
    match t.runFrom plain start with
    | (run, some below) => if least ≤ run.length then some (run, below) else none
    | (_, none) => none

/-- The rows without their runs of at least `least` plain rows; a run of no
row is none, so `0` counts as `1`. -/
def collapsed (t : Rows) (isBranch : NodeId → Bool) (least : Nat) : Rows :=
  let flags := ((List.range t.size).map (t.isPlain isBranch)).toArray
  let runs := t.longRuns (fun row => flags.getD row false) (max least 1)
  let bridges := gather t.size <| runs.flatMap fun (run, below) => run.map (·, below)
  t.projected (fun row => (bridges.getD row []).isEmpty) fun row => bridges.getD row []

end Rows

end Lineage
