import Lineage.Command.Answer
import Lineage.Json

/-!
# Lineage.Command.Report

Answers as JSON.  The fields of an object are in the order of their names.
-/

namespace Lineage

/-- The name of a stroke. -/
def Stroke.name : Stroke → String
  | .usual => "usual"
  | .dotted => "dotted"

/-- An edge as JSON. -/
def Link.json : Link → Json
  | .row target stroke => .ofFields [("kind", .text stroke.name), ("row", .nat target)]
  | .missing commit =>
    .ofFields [("commit", .ofOption .text commit), ("kind", .text "not-loaded")]

/-- A row as JSON. -/
def RowReport.json (r : RowReport) : Json :=
  .ofFields
    [("color", .ofOption (fun c => .nat c.toNat) r.color), ("commit", .text r.commit),
      ("down", .ofList Link.json r.down), ("head", .text r.head), ("lane", .nat r.lane),
      ("row", .nat r.row)]

/-- A view as JSON. -/
def ViewReport.json (v : ViewReport) : Json :=
  .ofFields
    [("layers", .ofList .text v.layers), ("rows", .ofList RowReport.json v.rows),
      ("sort", .text v.sort.name)]

/-- A commit as JSON. -/
def Commit.json (c : Commit String) : Json :=
  .ofFields
    [("id", .text c.id), ("parents", .ofList .text c.parents), ("timestamp", .int c.timestamp)]

/-- An answer as JSON. -/
def Answer.json : Answer → Json
  | .commits listed => .ofList Commit.json listed
  | .names ids => .ofList .text ids
  | .contained entries => .ofFields (entries.map fun (id, isIn) => (id, .bool isIn))
  | .view report => report.json

end Lineage
