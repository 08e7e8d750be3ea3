import Lineage.Command.Report
import Lineage.Proofs.Listing.Lanes
import Lineage.Proofs.Stack.Rooted

/-!
# Lineage.Proofs.Report

The report of a view.  Every lookup that goes into an entry succeeds, so no row
of the view is left out of its report: the entry at a place is the one of that
row, and what it says about its commit is what the commit list says.

* `Graph.exists_head` — the tip that the lane of a commit belongs to.
* `View.exists_rowReport` — the entry of a row.
* `Json.DescribesView`, `Invocation.describesView_answerWith` — the report of a view
  as JSON.
-/

namespace Lineage

open Relation (ReflTransGen)

/-! ## the lane of a commit -/

namespace Graph

variable {α : Type} [BEq α] [Hashable α] {g : Graph α} {commits : List (Commit α)}
  {palette : Palette α} {heads : List α} {config : Config}

/-- Every commit is below a tip, which its lane belongs to. -/
theorem exists_head [LawfulBEq α] (hg : StateOf commits palette heads config g) {id : α} {n : Nat}
    (hn : g.Stands id n) : ∃ m head, g.lanes.headOf? n = some m ∧
      g.directory.id? (.loaded m) = some head ∧ Tip commits head ∧
      ReflTransGen (ParentOf commits) head id := by
  have hsound := sound_of_stateOf hg
  obtain ⟨_, m, hmem, hm, hreach⟩ := exists_lane hg (hsound.lt_size hn)
  obtain ⟨head, hhead, htip⟩ := exists_tip hg ((mem_heads_lanes hg).mp hmem)
  have hstands : g.Stands head m := (stands_iff_id? hg).mpr hhead
  exact ⟨m, head, hm, hhead, htip, (hsound.mirrors.reflTransGen_iff hstands hn).mpr hreach⟩

end Graph

/-! ## entries as JSON -/

namespace Json

/-- The value of a field of an object. -/
def field? (key : String) : Json → Option Json
  | .object fields => fields.lookup (some key)
  | _ => none

/-- An edge that leads from a row down to another one, or to a parent of its
commit that is not listed. -/
def DescribesEdge (j : Json) (commits : List (Commit String)) (size row : Nat) (id : String) :
    Prop :=
  (∃ target, j.field? "row" = some (.nat target) ∧ row < target ∧ target < size) ∨
    j.field? "kind" = some (.text "not-loaded") ∧
      ∃ parent, j.field? "commit" = some (.text parent) ∧ HasParent commits id parent ∧
        parent ∉ commits.map (·.id)

/-- The entry of a row, of `size` in all, that shows the commit `id`. -/
structure DescribesRow (j : Json) (commits : List (Commit String)) (size place : Nat)
    (id : String) : Prop where
  row : j.field? "row" = some (.nat place)
  commit : j.field? "commit" = some (.text id)
  listed : id ∈ commits.map (·.id)
  lane : ∃ lane, j.field? "lane" = some (.nat lane) ∧ 1 ≤ lane
  color : ∃ color : UInt32, j.field? "color" = some (.nat color.toNat)
  /-- The head is a listed commit without children, and the commit itself or a
  descendant of it. -/
  head : ∃ head, j.field? "head" = some (.text head) ∧ Tip commits head ∧
    ReflTransGen (ParentOf commits) head id
  down : ∃ edges, j.field? "down" = some (.array edges) ∧
    ∀ edge ∈ edges, edge.DescribesEdge commits size place id

/-- A view with one entry for each row, from top to bottom. -/
def DescribesView (j : Json) (commits : List (Commit String)) (v : View String) : Prop :=
  ∃ entries, j.field? "rows" = some (.array entries) ∧ entries.length = v.size ∧
    ∀ row < v.size, ∃ entry id, entries[row]? = some entry ∧ v.commitAt? row = some id ∧
      entry.DescribesRow commits v.size row id

end Json

/-! ## the report of a view -/

namespace View

variable {v : View String} {commits : List (Commit String)} {palette : Palette String}
  {heads : List String} {config : Config} (hg : Graph.StateOf commits palette heads config v.graph)
  {row n : Nat} {id : String}

include hg

/-- What is known about the row of a node. -/
theorem exists_info (hid : v.graph.Stands id n) (hn : v.rows.node? row = some n) : ∃ head,
    v.info? row = some ⟨row, id, n, v.graph.lanes.lane n, head⟩ ∧
      (∃ color, v.color? row = some color) ∧ Tip commits head ∧
      ReflTransGen (ParentOf commits) head id := by
  obtain ⟨m, head, hm, hhead, htip, hreach⟩ := Graph.exists_head hg hid
  have hcommit := (Graph.stands_iff_id? hg).mp hid
  refine ⟨head, ?_, ?_, htip, hreach⟩
  · simp [info?, hn, hcommit, hm, hhead]
  · have hposition : v.graph.lanes.heads[v.graph.lanes.headPosition n]? = some m := hm
    simp [color?, hn, hposition, hhead]

/-- An edge below a row, as it is printed. -/
theorem describesEdge_link (ht : v.rows.Consistent) (hroot : v.rows.Rooted v.graph.history)
    (hid : v.graph.Stands id n) (hn : v.rows.node? row = some n) {e : Edge}
    (he : e ∈ v.edges row .down) :
    (v.link e).json.DescribesEdge commits v.size row id := by
  obtain ⟨rfl, hdown⟩ := Rows.mem_edges_down.mp he
  obtain ⟨row, down⟩ := e
  cases down with
  | row target stroke => exact Or.inl ⟨target, rfl, ht.below hdown⟩
  | missing slot =>
      have hsound := Graph.sound_of_stateOf hg
      obtain ⟨c, hc, rfl⟩ := hsound.exists_commit hid
      obtain ⟨p, hp, hnode⟩ := (hsound.mem_parentsOf hc).mp (hroot.parent ⟨row, hn, hdown⟩)
      have hlink : v.link ⟨row, .missing slot⟩ = .missing (some p) :=
        congrArg Link.missing ((Graph.complete_of_stateOf hg).id?_iff.mpr hnode)
      rw [hlink]
      refine Or.inr ⟨rfl, p, rfl, ⟨c, List.mem_of_getElem? hc, rfl, hp⟩, fun hlisted => ?_⟩
      obtain ⟨k, hk⟩ := hsound.stands_of_mem hlisted
      exact absurd (hk.symm.trans hnode) (by simp)

/-- Every row has an entry. -/
theorem exists_rowReport (ht : v.rows.Consistent) (hroot : v.rows.Rooted v.graph.history)
    (hrow : row < v.size) : ∃ report id, v.rowReport? row = some report ∧
      v.commitAt? row = some id ∧ report.json.DescribesRow commits v.size row id := by
  obtain ⟨n, hn⟩ := Rows.exists_node? hrow
  have hlt := hroot.lt_size ⟨row, hn⟩
  obtain ⟨id, hid⟩ := (Graph.sound_of_stateOf hg).exists_stands hlt
  obtain ⟨head, hinfo, ⟨color, hcolor⟩, htip, hreach⟩ := exists_info hg hid hn
  have hcommit := (Graph.stands_iff_id? hg).mp hid
  refine ⟨_, id, by rw [rowReport?, hinfo, Option.map_some], ?_, ?_⟩
  · rw [commitAt?, hn, Option.bind_some, hcommit]
  · have hlisted := List.mem_of_getElem? ((Graph.sound_of_stateOf hg).stands_iff.mp hid)
    have hlane := (Graph.exists_lane hg hlt).1
    constructor
    · rfl
    · rfl
    · exact hlisted
    · exact ⟨_, rfl, hlane⟩
    · exact ⟨color, by rw [hcolor]; rfl⟩
    · exact ⟨head, rfl, htip, hreach⟩
    · refine ⟨((v.edges row .down).map v.link).map Link.json, rfl, ?_⟩
      rw [List.map_map, List.forall_mem_map]
      exact fun e he => describesEdge_link hg ht hroot hid hn he

/-- No row is missing from the report of a view. -/
theorem describesView_report (ht : v.rows.Consistent) (hroot : v.rows.Rooted v.graph.history) :
    v.report.json.DescribesView commits v := by
  have hentry : ∀ row < v.size, ∃ report id, v.rowReport? row = some report ∧
      v.commitAt? row = some id ∧ report.json.DescribesRow commits v.size row id := fun row hrow =>
    exists_rowReport hg ht hroot hrow
  have hsome : v.report.rows.map some = (List.range v.size).map v.rowReport? := by
    refine map_some_filterMap fun row hrow => ?_
    obtain ⟨report, _, hreport, _⟩ := hentry row (List.mem_range.mp hrow)
    rw [hreport, Option.isSome_some]
  refine ⟨v.report.rows.map RowReport.json, ?_, ?_, fun row hrow => ?_⟩
  · rfl
  · have hlength := congrArg List.length hsome
    simpa using hlength
  · obtain ⟨report, id, hreport, hid, hdescribes⟩ := hentry row hrow
    have hget := congrArg (·[row]?) hsome
    simp only [List.getElem?_map, List.getElem?_range hrow, Option.map_some, hreport,
      Option.map_eq_some_iff] at hget
    obtain ⟨_, hat, heq⟩ := hget
    exact ⟨report.json, id, by rw [List.getElem?_map, hat, Option.some.inj heq, Option.map_some],
      hid, hdescribes⟩

end View

namespace Graph

variable {g : Graph String} {commits : List (Commit String)} {palette : Palette String}
  {heads : List String} {config : Config}

/-- The report of every view of a graph. -/
theorem describesView_view (hg : StateOf commits palette heads config g) (sort : SortKind)
    (visible matching : Option (List String)) :
    (g.view sort visible matching).1.report.json.DescribesView commits
      (g.view sort visible matching).1 := by
  have hview : StateOf commits palette heads config (g.view sort visible matching).1.graph :=
    stateOf_sorted hg sort
  have hsound := (sound_of_stateOf hview).history
  have hbase := (sound_of_stateOf hg).topological_baseOrder sort visible matching
  obtain ⟨rebased, hgraph⟩ := exists_view_graph g sort visible matching
  replace hbase : (g.view sort visible matching).1.stack.baseOrder.Topological
      (g.view sort visible matching).1.graph.history := by rwa [hgraph]
  exact View.describesView_report hview (Stack.consistent_rows hsound _ hbase)
    (Stack.rooted_rows hsound _ hbase)

end Graph

/-- The answer to a question for a view has an entry for each row of the view,
and the entries say what the commit list says, whichever libraries the settings
and the colors come from. -/
theorem Invocation.describesView_answerWith {l : Libraries} {i : Invocation} {input : String}
    {sort : Option SortKind} {visible matching : List String} {answer : Answer}
    (hview : i.command = .view sort visible matching)
    (hanswer : i.answerWith l input = .ok answer) :
    ∃ commits config g, i.settingsWith? l = some config ∧ CommitList.read input = .ok commits ∧
      Graph.load commits (.ofHash l.hash) i.heads config = .ok g ∧
      answer.json.DescribesView commits (g.view (sort.getD g.config.defaultSort) (limit? visible)
        (limit? matching)).1 := by
  rw [Invocation.answerWith] at hanswer
  split at hanswer
  · contradiction
  next config hconfig =>
    split at hanswer
    · contradiction
    next commits hread =>
      split at hanswer
      · contradiction
      next g hload =>
        rw [hview, Graph.answer] at hanswer
        obtain rfl := Except.ok.inj hanswer
        exact ⟨commits, config, g, hconfig, hread, hload,
          Graph.describesView_view (.loaded hload) _ _ _⟩

/-- A search for the outer two of three commits, in the sort that the settings
name. -/
def outerSearch : Invocation :=
  { heads := [], config := some "default_sort: linear-bek"
    command := .view none [] ["top", "base"] }

/-- Libraries whose parser knows this one text, and reads it as YAML. -/
def linearLibraries : Libraries :=
  { parse? := fun text =>
      if text = "default_sort: linear-bek" then some { defaultSort := .linearBek } else none
    hash := Palette.hash }

/-- Three commits on a line, two of which name a parent that is not listed. -/
def lineText : String := "top 3 middle\nmiddle 2 base gone\nbase 1 lost\n"

/-- The commits of `lineText`. -/
def lineCommits : List (Commit String) :=
  [⟨"top", ["middle"], 3⟩, ⟨"middle", ["base", "gone"], 2⟩, ⟨"base", ["lost"], 1⟩]

/-- The report of a search. -/
theorem Invocation.describesView_answerWith_search : ∃ answer,
    outerSearch.answerWith linearLibraries lineText = .ok answer ∧ ∃ commits config g,
      outerSearch.settingsWith? linearLibraries = some config ∧ config.defaultSort = .linearBek ∧
      CommitList.read lineText = .ok commits ∧
      Graph.load commits (.ofHash linearLibraries.hash) outerSearch.heads config = .ok g ∧
      answer.json.DescribesView commits (g.view .linearBek none (some ["top", "base"])).1 := by
  have hcommits : (History.load lineCommits .empty).toOption.isSome = true := by cbv
  have hsettings :
      outerSearch.settingsWith? linearLibraries = some { defaultSort := .linearBek } := rfl
  have hread : CommitList.read lineText = .ok lineCommits := rfl
  obtain ⟨g, hload⟩ := Graph.exists_load_of_isSome hcommits
    (.ofHash linearLibraries.hash) outerSearch.heads { defaultSort := .linearBek }
  have hconfig : g.config = { defaultSort := .linearBek } :=
    (Graph.settings_of_stateOf (.loaded hload)).2
  have hanswer : outerSearch.answerWith linearLibraries lineText =
      .ok (.view (g.view g.config.defaultSort none (some ["top", "base"])).1.report) := by
    simp only [Invocation.answerWith, hsettings, hread, hload]
    rfl
  have hcommand : outerSearch.command = .view none [] ["top", "base"] := rfl
  obtain ⟨commits, config, g', hsettings', htext, hgraph, hdescribes⟩ :=
    Invocation.describesView_answerWith hcommand hanswer
  have hnone : limit? [] = none := rfl
  have hsome : limit? ["top", "base"] = some ["top", "base"] := rfl
  obtain rfl : { defaultSort := .linearBek } = config :=
    Option.some.inj (hsettings.symm.trans hsettings')
  have hconfig' : g'.config = { defaultSort := .linearBek } :=
    (Graph.settings_of_stateOf (.loaded hgraph)).2
  rw [Option.getD_none, hconfig', hnone, hsome] at hdescribes
  exact ⟨_, hanswer, commits, _, g', hsettings', rfl, htext, hgraph, hdescribes⟩

end Lineage
