import Lineage.Proofs.Agreement.Views
import Lineage.Proofs.Rows.Shown

/-!
# Lineage.Proofs.Shown

Which commits a view shows, and in which order.  The options of a view select
commits; it shows these, but may fold plain ones, and it keeps them in the
order that its sort gives to the whole commit list.

* `Selected`, `Plain` — the commits that options select, and those that folding
  may hide.
* `Graph.rows_view` — the layers of a view.
* `View.Shown`, `Graph.shown_view` — what a view shows.
-/

namespace Lineage

variable {α : Type} [BEq α] [Hashable α]

/-! ## selected commits -/

/-- The listed commits that a search shows, if there is one, and that are in
the history of the visible heads, if there are any. -/
def Selected (commits : List (Commit α)) (heads matching : Option (List α)) (c : α) : Prop :=
  c ∈ commits.map (·.id) ∧ Matches matching c ∧ ∀ ids ∈ heads, InHistory commits ids c

/-- A commit that is no declared head, has one child in the history of some
heads, and one parent, which is listed. -/
structure Plain (commits : List (Commit α)) (declared heads : List α) (c : α) : Prop where
  undeclared : c ∉ declared
  child : ∃ d, ∀ e, InHistory commits heads e ∧ HasParent commits e c ↔ e = d
  parent : ∃ p ∈ commits.map (·.id), ∀ q, HasParent commits c q ↔ q = p

namespace Graph

variable {g : Graph α} {commits : List (Commit α)} {declared : List α} {sort : SortKind}
  {heads matching : Option (List α)} {n : Nat} {c : α}

/-- The nodes of the commits that options select. -/
def Selects (g : Graph α) (heads matching : Option (List α)) (n : Nat) : Prop :=
  (∀ ids ∈ matching, among (g.directory.nodesOf ids) (.loaded n) = true) ∧
    ∀ ids ∈ heads, g.historyOf ids (.loaded n) = true

theorem Sound.selected_iff (hg : g.Sound commits) (hc : g.Stands c n) :
    Selected commits heads matching c ↔ g.Selects heads matching n := by
  have hlisted : c ∈ commits.map (·.id) := List.mem_of_getElem? (hg.stands_iff.mp hc)
  simp only [Selected, Selects, Matches, and_iff_right hlisted, among_eq_true_iff,
    hg.mem_nodesOf hc, hg.historyOf_iff hc]

/-! ## the layers of a view -/

/-- The rows of all commits in the order of a sort. -/
def wholeRows (g : Graph α) (sort : SortKind) : Rows := (g.sorted sort).1.rows g.history

theorem Sound.consistent_wholeRows (hg : g.Sound commits) (sort : SortKind) :
    (g.wholeRows sort).Consistent := by
  cases sort with
  | normal => exact Rows.consistent_ofHistory hg.history hg.history.topological
  | bek => exact Rows.consistent_ofHistory hg.history hg.rebaseOrder.1
  | linearBek =>
      exact Rows.consistent_straightened (Rows.consistent_ofHistory hg.history hg.rebaseOrder.1) _

theorem Sound.shows_wholeRows (hg : g.Sound commits) (sort : SortKind) :
    (g.wholeRows sort).Shows n ↔ n < g.history.size := by
  cases sort with
  | normal => exact Rows.shows_ofHistory hg.history.topological
  | bek => exact Rows.shows_ofHistory hg.rebaseOrder.1
  | linearBek =>
      have hbase := Rows.consistent_ofHistory hg.history hg.rebaseOrder.1
      exact (Rows.shows_straightened hbase _).trans (Rows.shows_ofHistory hg.rebaseOrder.1)

/-- Unless lines are straightened, all rows are those of a base layer. -/
theorem Sound.exists_wholeRows (hg : g.Sound commits) (hsort : sort ≠ .linearBek) :
    ∃ order, order.Topological g.history ∧
      g.wholeRows sort = Rows.ofHistory g.history order := by
  cases sort with
  | normal => exact ⟨_, hg.history.topological, rfl⟩
  | bek => exact ⟨_, hg.rebaseOrder.1, rfl⟩
  | linearBek => contradiction

theorem exists_sorted_snd (g : Graph α) (sort : SortKind) :
    ∃ rebased, (g.sorted sort).2 = { g with rebased } := by
  cases sort with
  | normal => exact ⟨g.rebased, rfl⟩
  | bek => exact ⟨_, rebaseOrder_snd g⟩
  | linearBek => exact ⟨_, rebaseOrder_snd g⟩

/-- The layers of a view over the rows of its sort. -/
theorem rows_view (g : Graph α) (sort : SortKind) (heads matching : Option (List α)) :
    (g.view sort heads matching).1.rows =
      match matching, heads with
      | some commits, some ids =>
        ((g.wholeRows sort).commitsOnly (among (g.directory.nodesOf commits))).historyOnly
          (g.historyOf ids)
      | some commits, none => (g.wholeRows sort).commitsOnly (among (g.directory.nodesOf commits))
      | none, some ids =>
        if sort = .linearBek then (g.wholeRows sort).historyOnly (g.historyOf ids)
        else ((g.wholeRows sort).historyOnly (g.historyOf ids)).collapsed (among g.heads)
          g.config.minRunLength
      | none, none => if sort = .linearBek then g.wholeRows sort else (g.wholeRows sort).redrawn := by
  obtain ⟨rebased, hgraph⟩ := exists_sorted_snd g sort
  unfold view compose wholeRows draw
  generalize g.sorted sort = p at *
  obtain ⟨base, g'⟩ := p
  obtain rfl := hgraph
  cases matching with
  | some commits => cases heads <;> rfl
  | none =>
      cases heads with
      | some ids =>
          by_cases hsort : sort = .linearBek
          · simp only [if_pos hsort, Option.map_some]; rfl
          · simp only [if_neg hsort, Option.map_some]; rfl
      | none =>
          by_cases hsort : sort = .linearBek
          · simp only [if_pos hsort, Option.map_none]
          · simp only [if_neg hsort, Option.map_none]; rfl

/-- No layer over the rows of a sort moves a node. -/
theorem nodes_view_sublist (g : Graph α) (sort : SortKind) (heads matching : Option (List α)) :
    (g.view sort heads matching).1.rows.nodes.toList.Sublist (g.wholeRows sort).nodes.toList := by
  have hcommits : ∀ (t : Rows) keep, (t.commitsOnly keep).nodes.toList.Sublist t.nodes.toList :=
    fun t keep => t.nodes_projected_sublist _ _
  have hhistory : ∀ (t : Rows) keep, (t.historyOnly keep).nodes.toList.Sublist t.nodes.toList :=
    fun t keep => t.nodes_projected_sublist _ _
  cases matching with
  | some commits =>
      cases heads with
      | some ids =>
          rw [rows_view]
          exact (hhistory _ _).trans (hcommits _ _)
      | none =>
          rw [rows_view]
          exact hcommits _ _
  | none =>
      cases heads with
      | some ids =>
          by_cases hsort : sort = .linearBek
          · simp only [rows_view, if_pos hsort]
            exact hhistory _ _
          · simp only [rows_view, if_neg hsort]
            exact (Rows.nodes_projected_sublist _ _ _).trans (hhistory _ _)
      | none =>
          by_cases hsort : sort = .linearBek
          · simp only [rows_view, if_pos hsort]
            exact List.Sublist.refl _
          · simp only [rows_view, if_neg hsort]
            exact Rows.nodes_projected_sublist _ _ _

/-- A view without options shows the whole commit list. -/
theorem nodes_view_whole (g : Graph α) (sort : SortKind) :
    (g.view sort none none).1.rows.nodes.toList = (g.wholeRows sort).nodes.toList := by
  by_cases hsort : sort = .linearBek
  · simp only [rows_view, if_pos hsort]
  · simp only [rows_view, if_neg hsort, Rows.nodes_redrawn]

/-! ## the nodes of a view -/

/-- The options of a view that is not folded: with a search, under the
straightened sort, or without visible heads. -/
def Unfolded (sort : SortKind) (heads matching : Option (List α)) : Prop :=
  matching.isSome = true ∨ sort = .linearBek ∨ heads = none

omit [BEq α] [Hashable α] in
/-- Any other view has visible heads only. -/
theorem exists_of_not_unfolded (hfolded : ¬ Unfolded sort heads matching) :
    ∃ ids, heads = some ids ∧ matching = none ∧ sort ≠ .linearBek := by
  cases matching <;> cases heads <;> simp_all [Unfolded]

/-- A view that is not folded shows the nodes that its options select. -/
theorem Sound.shows_view_iff (hg : g.Sound commits) (hunfolded : Unfolded sort heads matching) :
    (g.view sort heads matching).1.rows.Shows n ↔
      n < g.history.size ∧ g.Selects heads matching n := by
  have hwhole := hg.shows_wholeRows (n := n) sort
  cases matching with
  | some ids =>
      cases heads with
      | some hs =>
          simp [rows_view, Rows.shows_historyOnly, Rows.shows_commitsOnly, hwhole, Selects,
            and_assoc]
      | none => simp [rows_view, Rows.shows_commitsOnly, hwhole, Selects]
  | none =>
      cases heads with
      | some hs =>
          have hsort : sort = .linearBek := by simpa [Unfolded] using hunfolded
          simp only [rows_view, if_pos hsort, Rows.shows_historyOnly, hwhole]
          simp [Selects]
      | none =>
          by_cases hsort : sort = .linearBek
          · simp [rows_view, if_pos hsort, hwhole, Selects]
          · simp [rows_view, if_neg hsort, hwhole, Selects]

/-- The rows of the history of some heads in the order of a sort. -/
def historyRows (g : Graph α) (sort : SortKind) (ids : List α) : Rows :=
  (g.wholeRows sort).historyOnly (g.historyOf ids)

theorem Sound.shows_historyRows (hg : g.Sound commits) (sort : SortKind) (ids : List α) :
    (g.historyRows sort ids).Shows n ↔ n < g.history.size ∧ g.historyOf ids (.loaded n) = true := by
  rw [historyRows, Rows.shows_historyOnly, hg.shows_wholeRows]

theorem Sound.exact_historyRows (hg : g.Sound commits) (hsort : sort ≠ .linearBek)
    (ids : List α) : (g.historyRows sort ids).Exact g.history := by
  obtain ⟨order, horder, hrows⟩ := hg.exists_wholeRows hsort
  rw [historyRows, hrows]
  exact (Rows.exact_ofHistory hg.history horder).historyOnly hg.historyOf_of_parent

/-- A view of a history is that history, folded. -/
theorem rows_view_history (g : Graph α) (hsort : sort ≠ .linearBek) (ids : List α) :
    (g.view sort (some ids) none).1.rows =
      (g.historyRows sort ids).collapsed (among g.heads) g.config.minRunLength := by
  simp only [rows_view, if_neg hsort]
  rfl

/-! ## plain commits -/

/-- The parents a commit names are the parents of its node. -/
theorem Complete.hasParent_iff (hg : g.Complete commits declared) (hc : g.Stands c n) {q : α}
    {x : NodeId} (hq : g.directory.node? q = some x) :
    HasParent commits c q ↔ x ∈ g.history.parentsOf n := by
  rw [hg.parentLink_iff hc hq]
  simp [History.ParentLink]

/-- A plain row among those of the history of some heads shows a plain
commit. -/
theorem Complete.plain_of_isPlain (hg : g.Complete commits declared) (hsort : sort ≠ .linearBek)
    {ids : List α} {r : Nat} (hc : g.Stands c n) (hr : (g.historyRows sort ids).node? r = some n)
    (hplain : (g.historyRows sort ids).isPlain (among g.heads) r = true) :
    Plain commits declared ids c := by
  have hsound := hg.sound
  have ht := hsound.exact_historyRows hsort ids
  have hshows : ∀ {k}, (g.historyRows sort ids).Shows k ↔
      k < g.history.size ∧ g.historyOf ids (.loaded k) = true := hsound.shows_historyRows sort ids
  constructor
  · have hkeeps := (Rows.isPlain_iff.mp hplain).2.2
    rwa [Rows.keeps_iff hr, ← Bool.not_eq_true, among_eq_true_iff, hg.mem_heads hc] at hkeeps
  · obtain ⟨m, hm⟩ := ht.child_of_isPlain hr hplain
    obtain ⟨d, hd⟩ := hsound.exists_stands (hshows.mp ((hm m).mpr rfl).1).1
    refine ⟨d, fun e => ⟨fun ⟨he, hparent⟩ => ?_, ?_⟩⟩
    · obtain ⟨k, hk⟩ := hsound.stands_of_mem hparent.listed
      have hlink := History.mem_loadedParents.mpr ((hg.hasParent_iff hk hc).mp hparent)
      have hshown := hshows.mpr ⟨hsound.lt_size hk, (hsound.historyOf_iff hk).mpr he⟩
      obtain rfl := (hm k).mp ⟨hshown, hlink⟩
      exact hsound.stands_inj hk hd
    · rintro rfl
      obtain ⟨hshown, hlink⟩ := (hm m).mpr rfl
      exact ⟨(hsound.historyOf_iff hd).mp (hshows.mp hshown).2,
        (hg.hasParent_iff hd hc).mpr (History.mem_loadedParents.mp hlink)⟩
  · have hclosed : ∀ {k}, g.history.IsParent n k → (g.historyRows sort ids).Shows k := fun hparent =>
      hshows.mpr ⟨hsound.history.linked.parent_lt hparent,
        hsound.historyOf_of_parent (hshows.mp ⟨r, hr⟩).2 hparent⟩
    obtain ⟨⟨m, hm⟩, hlisted⟩ := ht.parent_of_isPlain hr hplain hclosed
    have hlink := (hm m).mpr rfl
    obtain ⟨p, hp⟩ := hsound.exists_stands (hsound.history.linked.parent_lt hlink)
    refine ⟨p, List.mem_of_getElem? (hsound.stands_iff.mp hp), fun q => ⟨fun hparent => ?_, ?_⟩⟩
    · obtain ⟨x, hx⟩ := hg.known_iff.mp hparent.known
      have hmem := (hg.hasParent_iff hc hx).mp hparent
      rcases hsound.node?_iff.mp hx with ⟨k, _, rfl⟩ | ⟨s, _, rfl⟩
      · obtain rfl := (hm k).mp (History.mem_loadedParents.mpr hmem)
        exact hsound.stands_inj hx hp
      · exact absurd hmem (hlisted s)
    · rintro rfl
      exact (hg.hasParent_iff hc hp).mpr (History.mem_loadedParents.mp hlink)

end Graph

/-! ## the commits of a view -/

namespace View

variable {v : View α} {commits : List (Commit α)} {declared : List α} {c : α}

theorem mem_commits (hg : v.graph.Complete commits declared) :
    c ∈ v.commits ↔ ∃ n, v.graph.Stands c n ∧ v.rows.Shows n := by
  simp only [View.commits, hg.mem_idsOf, List.mem_map, Rows.mem_nodes]
  constructor
  · rintro ⟨_, ⟨n, hshown, rfl⟩, hc⟩
    exact ⟨n, hc, hshown⟩
  · rintro ⟨n, hc, hshown⟩
    exact ⟨_, ⟨n, hshown, rfl⟩, hc⟩

/-- Every node that is shown has a commit. -/
theorem map_some_commits (hg : v.graph.Complete commits declared)
    (hlt : ∀ {n}, v.rows.Shows n → n < v.graph.history.size) : v.commits.map some =
      v.rows.nodes.toList.map fun n => v.graph.directory.id? (.loaded n) := by
  rw [View.commits, Directory.idsOf, List.filterMap_map]
  refine map_some_filterMap fun n hn => ?_
  obtain ⟨c, hc⟩ := hg.sound.exists_stands (hlt (Rows.mem_nodes.mp hn))
  exact Option.isSome_iff_exists.mpr ⟨c, hg.id?_iff.mpr hc⟩

/-- The commits of a view are those of its rows, from top to bottom. -/
theorem commitAt?_eq (hg : v.graph.Complete commits declared)
    (hlt : ∀ {n}, v.rows.Shows n → n < v.graph.history.size) (i : Nat) :
    v.commitAt? i = v.commits[i]? := by
  have hget := congrArg (·[i]?) (map_some_commits hg hlt)
  simp only [List.getElem?_map, Array.getElem?_toList] at hget
  rw [commitAt?, Rows.node?]
  cases hi : v.rows.nodes[i]? with
  | none => simpa [hi, eq_comm] using hget
  | some n =>
      cases hc : v.commits[i]? with
      | none => simp [hi, hc] at hget
      | some c => simpa [hi, hc, eq_comm] using hget

/-- What a view shows, next to `whole`, the view of the same sort without
options. -/
structure Shown (v whole : View α) (commits : List (Commit α)) (declared : List α)
    (sort : SortKind) (heads matching : Option (List α)) : Prop where
  /-- The commits are those of the rows, from top to bottom, each once. -/
  commitAt? : ∀ i, v.commitAt? i = v.commits[i]?
  length_eq : v.commits.length = v.size
  nodup : v.commits.Nodup
  selected : ∀ c ∈ v.commits, Selected commits heads matching c
  /-- With a search, under the straightened sort, and without visible heads,
  every selected commit is shown. -/
  complete : Graph.Unfolded sort heads matching →
    ∀ c, Selected commits heads matching c → c ∈ v.commits
  /-- Otherwise those that are not shown are plain in the visible history. -/
  plain : ∀ ids ∈ heads, ∀ c, Selected commits heads matching c → c ∉ v.commits →
    Plain commits declared ids c
  /-- They stand in the order of the view without options. -/
  sublist : v.commits.Sublist whole.commits

end View

namespace Graph

variable {g : Graph α} {commits : List (Commit α)} {palette : Palette α} {declared : List α}
  {config : Config} {sort : SortKind} {heads matching : Option (List α)} {n : Nat} {c : α}

/-- A view is made from the graph that remembers its order. -/
theorem exists_view_graph (g : Graph α) (sort : SortKind) (heads matching : Option (List α)) :
    ∃ rebased, (g.view sort heads matching).1.graph = { g with rebased } :=
  exists_sorted_snd g sort

theorem Sound.lt_size_of_shows_view (hg : g.Sound commits)
    (hn : (g.view sort heads matching).1.rows.Shows n) : n < g.history.size := by
  have hwhole := (nodes_view_sublist g sort heads matching).subset (Rows.mem_nodes.mpr hn)
  exact (hg.shows_wholeRows sort).mp (Rows.mem_nodes.mp hwhole)

theorem Sound.nodup_nodes_view (hg : g.Sound commits) (sort : SortKind)
    (heads matching : Option (List α)) :
    (g.view sort heads matching).1.rows.nodes.toList.Nodup :=
  (nodes_view_sublist g sort heads matching).nodup (hg.consistent_wholeRows sort).nodup_nodes

/-- Whatever the options, a view shows selected nodes only. -/
theorem Sound.selects_of_shows (hg : g.Sound commits)
    (hn : (g.view sort heads matching).1.rows.Shows n) : g.Selects heads matching n := by
  by_cases hunfolded : Unfolded sort heads matching
  · exact ((hg.shows_view_iff hunfolded).mp hn).2
  · obtain ⟨ids, rfl, rfl, hsort⟩ := exists_of_not_unfolded hunfolded
    rw [rows_view_history g hsort] at hn
    obtain ⟨_, hkeep⟩ := (hg.shows_historyRows sort ids).mp (Rows.shows_of_collapsed hn)
    simpa [Selects] using hkeep

section State

variable [LawfulBEq α] (hg : StateOf commits palette declared config g)

include hg

theorem mem_commits_view : c ∈ (g.view sort heads matching).1.commits ↔
    ∃ n, g.Stands c n ∧ (g.view sort heads matching).1.rows.Shows n := by
  have hview : (g.view sort heads matching).1.graph.Complete commits declared :=
    complete_of_stateOf (stateOf_sorted hg sort)
  obtain ⟨rebased, hgraph⟩ := exists_view_graph g sort heads matching
  rw [View.mem_commits hview, hgraph]
  rfl

/-- A selected commit that a view with visible heads does not show is plain in
their history. -/
theorem plain_of_hidden {ids : List α} (hids : heads = some ids)
    (hc : Selected commits heads matching c)
    (hhidden : c ∉ (g.view sort heads matching).1.commits) : Plain commits declared ids c := by
  have hcomplete := complete_of_stateOf hg
  have hsound := hcomplete.sound
  obtain ⟨n, hn⟩ := hsound.stands_of_mem hc.1
  have hselects := (hsound.selected_iff hn).mp hc
  have hnot : ¬ (g.view sort heads matching).1.rows.Shows n := fun hshown =>
    hhidden ((mem_commits_view hg).mpr ⟨n, hn, hshown⟩)
  by_cases hunfolded : Unfolded sort heads matching
  · exact absurd ((hsound.shows_view_iff hunfolded).mpr ⟨hsound.lt_size hn, hselects⟩) hnot
  · obtain ⟨_, rfl, rfl, hsort⟩ := exists_of_not_unfolded hunfolded
    obtain rfl := Option.some.inj hids
    rw [rows_view_history g hsort] at hnot
    obtain ⟨r, hr⟩ :=
      (hsound.shows_historyRows sort _).mpr ⟨hsound.lt_size hn, hselects.2 _ rfl⟩
    exact hcomplete.plain_of_isPlain hsort hn hr (Rows.isPlain_of_hidden hr hnot)

/-- What a view of a commit list shows: the commits that its options select,
in the order of the view without options, except that plain commits may be
folded if the options are visible heads alone. -/
theorem shown_view (sort : SortKind) (heads matching : Option (List α)) :
    (g.view sort heads matching).1.Shown (g.view sort none none).1 commits declared sort heads
      matching := by
  have hsound := sound_of_stateOf hg
  have hview : (g.view sort heads matching).1.graph.Complete commits declared :=
    complete_of_stateOf (stateOf_sorted hg sort)
  have hloaded : ∀ {n}, (g.view sort heads matching).1.rows.Shows n →
      n < (g.view sort heads matching).1.graph.history.size := by
    obtain ⟨rebased, hgraph⟩ := exists_view_graph g sort heads matching
    rw [hgraph]
    exact hsound.lt_size_of_shows_view
  constructor
  · exact View.commitAt?_eq hview hloaded
  · have hlength := congrArg List.length (View.map_some_commits hview hloaded)
    simpa [View.size, Rows.size] using hlength
  · have hnodes := hsound.nodup_nodes_view sort heads matching
    exact hview.nodup_idsOf (hnodes.map fun _ _ => NodeId.loaded.inj)
  · intro c hc
    obtain ⟨n, hn, hshown⟩ := (mem_commits_view hg).mp hc
    exact (hsound.selected_iff hn).mpr (hsound.selects_of_shows hshown)
  · intro hunfolded c hc
    obtain ⟨n, hn⟩ := hsound.stands_of_mem hc.1
    have hselects := (hsound.selected_iff hn).mp hc
    have hshown := (hsound.shows_view_iff hunfolded).mpr ⟨hsound.lt_size hn, hselects⟩
    exact (mem_commits_view hg).mpr ⟨n, hn, hshown⟩
  · intro ids hids c hc hhidden
    exact plain_of_hidden hg hids hc hhidden
  · have hnodes := nodes_view_sublist g sort heads matching
    rw [← nodes_view_whole] at hnodes
    exact (hnodes.map NodeId.loaded).filterMap _

end State

/-- The history of a merge in the rebase order. -/
theorem shown_view_merge : ∃ g, StateOf History.mergeCommits .standard ["merge"] {} g ∧
    (g.view .bek (some ["merge"]) none).1.Shown (g.view .bek none none).1 History.mergeCommits
      ["merge"] .bek (some ["merge"]) none := by
  obtain ⟨h, slots, hload⟩ := History.load_mergeCommits
  obtain ⟨g, hg, _⟩ := exists_load hload
  exact ⟨g, .loaded hg, shown_view (.loaded hg) _ _ _⟩

end Graph

end Lineage
