import Lineage.Command
import Lineage.CommitList
import Lineage.Config.Yaml
import Lineage.Graph.View

/-!
# Lineage.Command.Answer

Answering a question about the commit graph that a text lists.  Of several
things that are wrong, the settings come first, then the text, then the graph
that it makes, then the question.  Settings and colors come from `Libraries`,
which an answer is given with.
-/

namespace Lineage

/-! ## answers -/

/-- An edge that leaves a row downwards. -/
inductive Link where
  /-- To another row. -/
  | row (row : Nat) (stroke : Stroke)
  /-- To a commit that is not listed. -/
  | missing (commit : Option String)
deriving DecidableEq, Repr

/-- A row of a view. -/
structure RowReport where
  row : Nat
  commit : String
  lane : Nat
  head : String
  color : Option UInt32
  down : List Link
deriving Repr

/-- A view, from top to bottom. -/
structure ViewReport where
  sort : SortKind
  /-- The names of the layers, outermost first. -/
  layers : List String
  rows : List RowReport
deriving Repr

/-- The answer to a question. -/
inductive Answer where
  | commits (commits : List (Commit String))
  | names (ids : List String)
  | contained (entries : List (String × Bool))
  | view (report : ViewReport)

/-- Why a question is not answered. -/
inductive Failure where
  /-- The settings cannot be read. -/
  | settings
  /-- The commit list cannot be read. -/
  | unreadable (fault : CommitList.Fault)
  /-- The commit list makes no graph, or the question names an unknown commit. -/
  | graph (error : GraphError String)
deriving Repr

/-- What is wrong. -/
def Failure.message : Failure → String
  | .settings => "invalid configuration"
  | .unreadable fault => fault.message
  | .graph error => error.message

/-! ## reports -/

/-- Identifiers in order. -/
def sortedIds (ids : List String) : List String := ids.mergeSort fun a b => !decide (b < a)

/-- An edge of a view that leaves a row downwards. -/
def View.link (v : View String) (e : Edge) : Link :=
  match e.down with
  | .row row stroke => .row row stroke
  | .missing slot => .missing (v.graph.directory.id? (.missing slot))

/-- A row of a view. -/
def View.rowReport? (v : View String) (row : Nat) : Option RowReport :=
  (v.info? row).map fun info =>
    { row := info.row
      commit := info.commit
      lane := info.lane
      head := info.head
      color := v.color? row
      down := (v.edges row .down).map v.link }

/-- A whole view. -/
def View.report (v : View String) : ViewReport :=
  { sort := v.sort
    layers := v.stack.names
    rows := (List.range v.size).filterMap v.rowReport? }

/-! ## questions -/

/-- A list of options for a view; an empty one sets no limit. -/
def limit? (ids : List String) : Option (List String) := if ids.isEmpty then none else some ids

/-- The answer to a question about a graph. -/
def Graph.answer (g : Graph String) : Command → Except (GraphError String) Answer
  | .list => .ok (.commits g.allCommits)
  | .children commit => (g.children commit).map .names
  | .branches commit => (g.containingHeads commit).map fun heads => .names (sortedIds heads)
  | .contains heads commits =>
    (g.containment heads).map fun c =>
      .contained ((sortedIds commits.eraseDups).map fun id => (id, c.contains id))
  | .view sort visibleHeads matching =>
    let (view, _) :=
      g.view (sort.getD g.config.defaultSort) (limit? visibleHeads) (limit? matching)
    .ok (.view view.report)

/-! ## invocations -/

/-- What an invocation is answered with: a parser of settings and a hash for
the colors. -/
structure Libraries where
  /-- The settings that a text holds, if it holds any. -/
  parse? : String → Option Config
  hash : List UInt8 → UInt64

/-- The libraries of the command line. -/
def Libraries.standard : Libraries := { parse? := Config.parseYaml?, hash := Palette.hash }

/-- The settings of an invocation. -/
def Invocation.settingsWith? (l : Libraries) (i : Invocation) : Option Config :=
  match i.config with
  | some text => Config.ofText? l.parse? text
  | none => some {}

/-- The answer to an invocation about the commit list in `input`. -/
def Invocation.answerWith (l : Libraries) (i : Invocation) (input : String) :
    Except Failure Answer :=
  match i.settingsWith? l with
  | none => .error .settings
  | some config =>
    match CommitList.read input with
    | .error fault => .error (.unreadable fault)
    | .ok commits =>
      match Graph.load commits (.ofHash l.hash) i.heads config with
      | .error error => .error (.graph error)
      | .ok g => (g.answer i.command).mapError .graph

/-- The answer of the command line. -/
def Invocation.answer : Invocation → String → Except Failure Answer := answerWith .standard

end Lineage
