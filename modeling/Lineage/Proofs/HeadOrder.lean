import Lineage.Command.Answer
import Lineage.Proofs.Agreement.Views
import Lineage.Proofs.Translation

/-!
# Lineage.Proofs.HeadOrder

One commit list with its heads declared in two orders.  The order shows in the
numbers of heads that no commit mentions, and nowhere else.

* `Graph.agree_of_stateOf` — the graphs agree.
* `Graph.SameAnswers`, `Graph.sameAnswers_of_heads` — they give the same answers
  in terms of commits.
* `Invocation.answerWith_congr` — so does the command line.
-/

namespace Lineage

namespace Graph

variable {α : Type} [BEq α] [Hashable α] {g g' : Graph α} {commits : List (Commit α)}
  {palette : Palette α} {heads heads' : List α} {config : Config}

/-! ## graphs of one list -/

/-- With the same heads in another order, a graph agrees in all its states. -/
theorem agree_of_stateOf [LawfulBEq α] (hheads : ∀ id, id ∈ heads ↔ id ∈ heads')
    (hg : StateOf commits palette heads config g)
    (hg' : StateOf commits palette heads' config g') : Agree commits g g' := by
  have hgraph := complete_of_stateOf hg
  have hgraph' := complete_of_stateOf hg'
  obtain ⟨_, hload, _, hlanes, hnodes⟩ := eq_of_stateOf hg
  obtain ⟨_, hload', _, hlanes', hnodes'⟩ := eq_of_stateOf hg'
  have hhistory : g'.history = g.history :=
    congrArg Prod.fst (Except.ok.inj (hload'.symm.trans hload))
  have hid : ∀ n, g'.directory.id? (.loaded n) = g.directory.id? (.loaded n) := by
    intro n
    rw [id?_of_stateOf hg, id?_of_stateOf hg']
  have htime : ∀ n, g'.directory.timestamp (.loaded n) = g.directory.timestamp (.loaded n) := by
    intro n
    rw [timestamp_of_stateOf hg, timestamp_of_stateOf hg']
  have hcompare : compareNodes g'.directory palette = compareNodes g.directory palette := by
    funext a b
    simp only [compareNodes, hid]
  have hsame : g'.lanes = g.lanes := by rw [hlanes', hlanes, hhistory, hcompare]
  have hstands : ∀ id n, g'.Stands id n ↔ g.Stands id n := by
    intro id n
    rw [hgraph.sound.stands_iff, hgraph'.sound.stands_iff]
  constructor
  · exact hhistory
  · exact hsame
  · rw [(settings_of_stateOf hg).1, (settings_of_stateOf hg').1]
  · rw [(settings_of_stateOf hg).2, (settings_of_stateOf hg').2]
  · rw [rebaseOrder_of_stateOf hg, rebaseOrder_of_stateOf hg', hhistory, hsame]
    simp only [htime]
  · exact hid
  · exact htime
  · exact hstands
  · exact hgraph.sound.node?_of_mentioned hgraph'.sound hhistory
  · intro id
    have hknown : Known commits heads' id ↔ Known commits heads id := by
      unfold Known
      rw [hheads]
    rw [hgraph.known_iff, hgraph'.known_iff] at hknown
    rw [Bool.eq_iff_iff, Option.isSome_iff_exists, Option.isSome_iff_exists]
    exact hknown
  · intro n
    rw [hnodes, hnodes', mem_nodesOf_loaded, mem_nodesOf_loaded]
    simp only [hheads, hstands]

/-! ## the order of the heads -/

/-- Two graphs that answer every question about commits in the same way. -/
structure SameAnswers (commits : List (Commit α)) (g g' : Graph α) : Prop where
  allCommits : g'.allCommits = g.allCommits
  children : ∀ id, g'.children id = g.children id
  containingHeads : ∀ id, g'.containingHeads id = g.containingHeads id
  containment : ∀ ids,
    (∃ e, g.containment ids = .error e ∧ g'.containment ids = .error e) ∨
      ∃ k k', g.containment ids = .ok k ∧ g'.containment ids = .ok k' ∧ k'.size = k.size ∧
        ∀ id, k'.contains id = k.contains id
  lanes : SameLanes g g'
  rebasedIds : g'.rebasedIds = g.rebasedIds
  view : ∀ sort heads matching folds, SameView (g.foldedView sort heads matching folds)
    (g'.foldedView sort heads matching folds)
  /-- Listed commits and parents have the same numbers. -/
  node? : ∀ {id}, Mentioned commits id → g'.directory.node? id = g.directory.node? id

variable [LawfulBEq α]

section Heads

variable (hheads : ∀ id, id ∈ heads ↔ id ∈ heads')
  (hg : StateOf commits palette heads config g) (hg' : StateOf commits palette heads' config g')

include hheads hg hg'

theorem children_of_heads (id : α) : g'.children id = g.children id := by
  have hknown : Known commits heads id ↔ Known commits heads' id := by
    unfold Known
    rw [hheads]
  by_cases hid : Known commits heads id
  · rw [children_of_known hg hid, children_of_known hg' (hknown.mp hid)]
  · rw [children_of_unknown hg hid, children_of_unknown hg' (mt hknown.mpr hid)]

theorem sameView_of_heads (sort : SortKind) (visible matching : Option (List α))
    (folds : List Bool) : SameView (g.foldedView sort visible matching folds)
      (g'.foldedView sort visible matching folds) := by
  have hstate := stateOf_sorted hg sort
  have hstate' := stateOf_sorted hg' sort
  have hag := agree_of_stateOf hheads hstate hstate'
  have hbase := (agree_of_stateOf hheads hg hg').sorted sort
  have hstack := alike_compose hag hbase (sound_of_stateOf hstate).history visible matching
  exact hag.sameView (complete_of_stateOf hstate) (complete_of_stateOf hstate')
    (hstack.foldl_setFolded folds) rfl rfl

end Heads

omit [LawfulBEq α] in
/-- Whatever the heads, a commit list loads or fails in the same way. -/
theorem load_heads (commits : List (Commit α)) (palette : Palette α) (heads heads' : List α)
    (config : Config) :
    (∃ e, Graph.load commits palette heads config = .error e ∧
        Graph.load commits palette heads' config = .error e) ∨
      ∃ g g', Graph.load commits palette heads config = .ok g ∧
        Graph.load commits palette heads' config = .ok g' := by
  unfold Graph.load
  cases History.load commits .empty with
  | error fault => exact Or.inl ⟨_, rfl, rfl⟩
  | ok loaded => exact Or.inr ⟨_, _, rfl, rfl⟩

/-- The order in which heads are declared makes no difference: with the same
heads in another order a commit list fails with the same error or loads as a
graph that gives the same answers in all its states, and only heads that no
commit mentions have other numbers. -/
theorem sameAnswers_of_heads (commits : List (Commit α)) (palette : Palette α)
    (config : Config) (hheads : ∀ id, id ∈ heads ↔ id ∈ heads') :
    ((∃ e, Graph.load commits palette heads config = .error e ∧
        Graph.load commits palette heads' config = .error e) ∨
      ∃ g g', Graph.load commits palette heads config = .ok g ∧
        Graph.load commits palette heads' config = .ok g') ∧
    ∀ {g g'}, StateOf commits palette heads config g → StateOf commits palette heads' config g' →
      SameAnswers commits g g' := by
  refine ⟨load_heads commits palette heads heads' config, fun {g g'} hg hg' => ?_⟩
  have hag := agree_of_stateOf hheads hg hg'
  have hgraph := complete_of_stateOf hg
  have hgraph' := complete_of_stateOf hg'
  constructor
  · exact hag.allCommits hgraph hgraph'
  · exact children_of_heads hheads hg hg'
  · exact hag.containingHeads hgraph hgraph' hheads
  · exact hag.containment hgraph hgraph'
  · exact hag.sameLanes
  · exact hag.rebasedIds
  · exact sameView_of_heads hheads hg hg'
  · exact hag.node?

/-- The placeholders of a graph, parents before heads. -/
def slotNames (commits : List (Commit α)) (heads : List α) : Option (List α) :=
  (History.load commits .empty).toOption.map fun loaded =>
    (loaded.2.reserve (heads.filter fun head =>
      !(commits.map (·.id)).contains head)).commits.toList

theorem directory_of_slotNames {names : List α}
    (hload : Graph.load commits palette heads config = .ok g)
    (hnames : slotNames commits heads = some names) :
    g.directory = .ofCommits commits names := by
  obtain ⟨slots, hhistory, hdirectory, _⟩ := eq_of_load hload
  rw [slotNames, hhistory] at hnames
  simp only [hdirectory, Std.HashSet.contains_ofList]
  exact congrArg (Directory.ofCommits commits) (Option.some.inj hnames)

/-- Two heads that no commit mentions change places, and nothing but their
numbers changes. -/
theorem sameAnswers_of_heads_topic :
    ∃ g g', Graph.load topicCommits .standard ["ghost", "topic", "spirit"] {} = .ok g ∧
      Graph.load topicCommits .standard ["spirit", "topic", "ghost"] {} = .ok g' ∧
      SameAnswers topicCommits g g' ∧ g.directory.node? "ghost" = some (.missing 1) ∧
      g'.directory.node? "ghost" = some (.missing 2) := by
  have hheads : ∀ id, id ∈ ["ghost", "topic", "spirit"] ↔ id ∈ ["spirit", "topic", "ghost"] := by
    intro id
    exact (List.reverse_perm ["ghost", "topic", "spirit"]).symm.mem_iff
  obtain ⟨_, hsame⟩ := sameAnswers_of_heads topicCommits .standard {} hheads
  have hcommits : (History.load topicCommits .empty).toOption.isSome = true := by cbv
  obtain ⟨g, hload⟩ := exists_load_of_isSome hcommits .standard ["ghost", "topic", "spirit"] {}
  obtain ⟨g', hload'⟩ := exists_load_of_isSome hcommits .standard ["spirit", "topic", "ghost"] {}
  have hnames : slotNames topicCommits ["ghost", "topic", "spirit"] =
      some ["gone", "ghost", "spirit"] := by
    cbv
  have hnames' : slotNames topicCommits ["spirit", "topic", "ghost"] =
      some ["gone", "spirit", "ghost"] := by
    cbv
  refine ⟨g, g', hload, hload', hsame (.loaded hload) (.loaded hload'), ?_, ?_⟩
  · rw [directory_of_slotNames hload hnames]
    cbv
  · rw [directory_of_slotNames hload' hnames']
    cbv

/-! ## the command line -/

/-- Views that show the same commits are reported alike. -/
theorem SameView.report {v v' : View String} (hv : SameView v v') (hsort : v'.sort = v.sort) :
    v'.report = v.report := by
  have hlinks : ∀ row, (v'.edges row .down).map v'.link = (v.edges row .down).map v.link := by
    intro row
    rw [hv.edges]
    refine List.map_congr_left fun e he => ?_
    have hend := hv.placeholder e he
    unfold View.link
    unfold Edge.placeholder? at hend
    cases hdown : e.down with
    | row r s => rfl
    | missing slot =>
        rw [hdown] at hend
        obtain ⟨id, hid, hid'⟩ := hend (.missing slot) rfl
        show Link.missing _ = Link.missing _
        rw [hid, hid']
  unfold View.report View.rowReport?
  simp only [hsort, hv.layers, hv.size, hv.info?, hv.color?, hlinks]

theorem answer_of_heads {g g' : Graph String} {commits : List (Commit String)}
    {palette : Palette String} {heads heads' : List String}
    (hheads : ∀ id, id ∈ heads ↔ id ∈ heads') (hg : StateOf commits palette heads config g)
    (hg' : StateOf commits palette heads' config g') (c : Command) :
    g'.answer c = g.answer c := by
  have hag := agree_of_stateOf hheads hg hg'
  have hgraph := complete_of_stateOf hg
  have hgraph' := complete_of_stateOf hg'
  cases c with
  | list => rw [Graph.answer, Graph.answer, hag.allCommits hgraph hgraph']
  | children commit => rw [Graph.answer, Graph.answer, children_of_heads hheads hg hg']
  | branches commit =>
      rw [Graph.answer, Graph.answer, hag.containingHeads hgraph hgraph' hheads]
  | contains ids asked =>
      rw [Graph.answer, Graph.answer]
      cases hag.containment hgraph hgraph' ids with
      | inl herror =>
          obtain ⟨e, he, he'⟩ := herror
          rw [he, he']
      | inr hok =>
          obtain ⟨k, k', hk, hk', _, hsame⟩ := hok
          rw [hk, hk']
          simp only [Except.map, hsame]
  | view sort visible matching =>
      have hview := sameView_of_heads hheads hg hg' (sort.getD g.config.defaultSort)
        (limit? visible) (limit? matching) []
      have hreport := hview.report rfl
      rw [Graph.answer, Graph.answer, hag.config]
      exact congrArg (fun report => Except.ok (Answer.view report)) hreport

end Graph

/-- The answer to an invocation does not depend on the order in which the heads
are declared. -/
theorem Invocation.answerWith_congr {i i' : Invocation} (l : Libraries)
    (hheads : ∀ id, id ∈ i.heads ↔ id ∈ i'.heads) (hconfig : i'.config = i.config)
    (hcommand : i'.command = i.command) (input : String) :
    i'.answerWith l input = i.answerWith l input := by
  have hsettings : i'.settingsWith? l = i.settingsWith? l := by
    unfold Invocation.settingsWith?
    rw [hconfig]
  unfold Invocation.answerWith
  rw [hsettings, hcommand]
  cases i.settingsWith? l with
  | none => rfl
  | some config =>
      cases CommitList.read input with
      | error fault => rfl
      | ok commits =>
          cases Graph.load_heads commits (.ofHash l.hash) i.heads i'.heads config with
          | inl herror =>
              obtain ⟨e, he, he'⟩ := herror
              simp only [he, he']
          | inr hok =>
              obtain ⟨g, g', hg, hg'⟩ := hok
              simp only [hg, hg', Graph.answer_of_heads hheads (.loaded hg) (.loaded hg')]

end Lineage
