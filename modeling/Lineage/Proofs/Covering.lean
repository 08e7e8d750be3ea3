import Lineage.Proofs.LinearView
import Lineage.Proofs.Rows.Runs
import Lineage.Proofs.Shown
import Lineage.Proofs.Translation

/-!
# Lineage.Proofs.Covering

Visible heads whose history is the whole commit list.  A view of them is the
view without options, folded; but the history filter has drawn every edge
once, so a commit that repeats a parent, or that a child repeats, can be
folded in the one and not in the other.

* `Rows.nodup_downOf_ofHistory`, `Rows.nodup_upOf_ofHistory` — repeated edges of
  a base layer.
* `View.SameRows`, `Graph.sameRows_iff` — when the two views are the same.
-/

namespace Lineage

/-! ## repeated edges -/

/-- A map that drops nothing and keeps elements apart keeps repetitions. -/
theorem nodup_filterMap_iff {β γ : Type} {f : β → Option γ} {xs : List β}
    (hsome : ∀ x ∈ xs, (f x).isSome = true) (hinj : ∀ x ∈ xs, ∀ y ∈ xs, f x = f y → x = y) :
    (xs.filterMap f).Nodup ↔ xs.Nodup := by
  have hmap : (xs.filterMap f).map some = xs.map f := by
    rw [List.map_filterMap, ← List.filterMap_eq_map]
    refine List.filterMap_congr fun x hx => ?_
    obtain ⟨y, hy⟩ := Option.isSome_iff_exists.mp (hsome x hx)
    simp [hy]
  constructor
  · intro hnodup
    have hfmap := hnodup.map (Option.some_injective γ)
    rw [hmap] at hfmap
    exact hfmap.of_map _
  · intro hnodup
    have hfmap := hnodup.map_on hinj
    rw [← hmap] at hfmap
    exact hfmap.of_map _

namespace Rows

variable {h : History} {o : RowOrder} {r n : Nat}

theorem nodup_downOf_ofHistory (hs : h.Sound) (ho : o.Topological h)
    (hn : (ofHistory h o).node? r = some n) (hnone : .none ∉ h.parentsOf n) :
    ((ofHistory h o).downOf r).Nodup ↔ (h.parentsOf n).Nodup := by
  obtain ⟨hlt, rfl⟩ := (node?_ofHistory_eq_some_iff ho).mp hn
  rw [downOf_ofHistory, if_pos (ho.rowOf_lt hlt), ho.nodeAt_rowOf hlt]
  refine nodup_filterMap_iff (fun x hx => ?_) fun x hx y hy heq => ?_
  · cases x with
    | none => contradiction
    | loaded p => rfl
    | missing m => rfl
  · cases x with
    | none => contradiction
    | missing m => cases y <;> simp_all [downTo]
    | loaded p =>
        cases y with
        | none => contradiction
        | missing m => simp [downTo] at heq
        | loaded q =>
            have hrow : o.rowOf p = o.rowOf q := by simpa [downTo] using heq
            have hp := hs.linked.parent_lt (History.mem_loadedParents.mpr hx)
            have hq := hs.linked.parent_lt (History.mem_loadedParents.mpr hy)
            rw [← ho.nodeAt_rowOf hp, ← ho.nodeAt_rowOf hq, hrow]

theorem nodup_upOf_ofHistory (hs : h.Sound) (ho : o.Topological h)
    (hn : (ofHistory h o).node? r = some n) :
    ((ofHistory h o).upOf r).Nodup ↔ (h.loadedChildren n).Nodup := by
  obtain ⟨hlt, rfl⟩ := (node?_ofHistory_eq_some_iff ho).mp hn
  rw [upOf_ofHistory, if_pos (ho.rowOf_lt hlt), ho.nodeAt_rowOf hlt]
  refine ⟨fun hnodup => hnodup.of_map _, fun hnodup => hnodup.map_on fun c hc d hd heq => ?_⟩
  have hc' := hs.linked.child_lt (hs.linked.mem_children.mp hc)
  have hd' := hs.linked.child_lt (hs.linked.mem_children.mp hd)
  rw [← ho.nodeAt_rowOf hc', ← ho.nodeAt_rowOf hd', (Up.mk.inj heq).1]

end Rows

namespace Graph

variable {α : Type} [BEq α] [Hashable α] [LawfulBEq α] {g : Graph α} {commits : List (Commit α)}
  {declared : List α}

namespace Complete

variable (hg : g.Complete commits declared) {n : Nat} {c : Commit α}

include hg

omit [LawfulBEq α] in
theorem none_notMem_parentsOf (hc : commits[n]? = some c) : .none ∉ g.history.parentsOf n := by
  intro hmem
  obtain ⟨p, _, hp⟩ := (hg.sound.mem_parentsOf hc).mp hmem
  rcases hg.sound.node?_iff.mp hp with ⟨_, _, heq⟩ | ⟨_, _, heq⟩
  · contradiction
  · contradiction

omit [LawfulBEq α] in
/-- A commit repeats a parent when its node does. -/
theorem nodup_parentsOf (hc : commits[n]? = some c) :
    (g.history.parentsOf n).Nodup ↔ c.parents.Nodup := by
  have hmap := hg.sound.parents hc
  constructor
  · intro hnodup
    have hsome := hnodup.map (Option.some_injective _)
    rw [hmap] at hsome
    exact hsome.of_map _
  · intro hnodup
    have hnodes : (c.parents.map g.directory.node?).Nodup := by
      refine hnodup.map_on fun p hp q _ heq => ?_
      obtain ⟨x, hx⟩ := hg.known_iff.mp (HasParent.known ⟨c, List.mem_of_getElem? hc, rfl, hp⟩)
      exact hg.mirrors.inj hx (heq ▸ hx)
    rw [← hmap] at hnodes
    exact hnodes.of_map _

/-- A child repeats a commit when its node does. -/
theorem nodup_loadedChildren (hc : commits[n]? = some c) :
    (g.history.loadedChildren n).Nodup ↔ ∀ d ∈ commits, d.parents.count c.id ≤ 1 := by
  have hstands : g.Stands c.id n := hg.sound.stands_iff.mpr (by simp [hc])
  rw [List.nodup_iff_count_le_one]
  simp only [hg.sound.history.linked.count_children, History.loadedParents, count_loadedNodes]
  constructor
  · intro hcount d hd
    obtain ⟨m, hm⟩ := List.mem_iff_getElem?.mp hd
    rw [← hg.count_parentsOf hm hstands]
    exact hcount m
  · intro hcount m
    rcases Nat.lt_or_ge m commits.length with hm | hm
    · rw [hg.count_parentsOf (List.getElem?_eq_getElem hm) hstands]
      exact hcount _ (List.getElem_mem hm)
    · rw [← hg.sound.size_eq] at hm
      rw [List.count_eq_zero_of_not_mem fun hmem =>
        absurd (History.lt_size_of_mem_parentsOf hmem) (Nat.not_lt.mpr hm)]
      exact Nat.zero_le 1

end Complete

/-! ## two views -/

end Graph

namespace View

variable {α : Type} [BEq α] [Hashable α]

/-- Two views that show the same commits in the same rows, with the same edges
toward parents and toward children. -/
structure SameRows (v v' : View α) : Prop where
  size : v'.size = v.size
  commitAt? : ∀ row, v'.commitAt? row = v.commitAt? row
  rowOf? : ∀ id, v'.rowOf? id = v.rowOf? id
  edges : ∀ row direction, v'.edges row direction = v.edges row direction

end View

namespace Graph

variable {α : Type} [BEq α] [Hashable α] [LawfulBEq α] {g : Graph α} {commits : List (Commit α)}
  {palette : Palette α} {declared : List α} {config : Config} {sort : SortKind} {ids : List α}

omit [LawfulBEq α] in
/-- The view without options, folded. -/
theorem rows_foldedView_whole (g : Graph α) (hsort : sort ≠ .linearBek) :
    (g.foldedView sort none none [true]).rows =
      (g.wholeRows sort).collapsed (among g.heads) g.config.minRunLength := by
  obtain ⟨rebased, hgraph⟩ := exists_sorted_snd g sort
  unfold foldedView compose wholeRows draw
  generalize g.sorted sort = p at *
  obtain ⟨base, g'⟩ := p
  obtain rfl := hgraph
  simp only [if_neg hsort, Option.map_none]
  rfl

/-- A commit that repeats no parent and that no child repeats. -/
def MentionedOnce (commits : List (Commit α)) (c : Commit α) : Prop :=
  c.parents.Nodup ∧ ∀ d ∈ commits, d.parents.count c.id ≤ 1

omit [LawfulBEq α] in
/-- A history that holds all commits is a copy of the base. -/
theorem Sound.historyRows_eq_redrawn (hg : g.Sound commits) (sort : SortKind)
    (hall : ∀ c ∈ commits, InHistory commits ids c.id) :
    g.historyRows sort ids = (g.wholeRows sort).redrawn := by
  refine Rows.historyOnly_eq_redrawn (hg.consistent_wholeRows sort) fun {n} hn => ?_
  obtain ⟨a, ha⟩ := hg.exists_stands ((hg.shows_wholeRows sort).mp hn)
  obtain ⟨c, hc, rfl⟩ := hg.exists_commit ha
  exact (hg.historyOf_iff ha).mpr (hall c (List.mem_of_getElem? hc))

/-- What is plain in a copy of the base is plain in the base unless edges are
repeated. -/
theorem Complete.isPlain_iff_mentionedOnce (hg : g.Complete commits declared)
    (hsort : sort ≠ .linearBek) {r n : Nat} {c : Commit α} (hc : commits[n]? = some c)
    (hr : (g.wholeRows sort).node? r = some n)
    (hplain : (g.wholeRows sort).redrawn.isPlain (among g.heads) r = true) :
    (g.wholeRows sort).isPlain (among g.heads) r = true ↔ MentionedOnce commits c := by
  have ht := hg.sound.consistent_wholeRows sort
  obtain ⟨order, horder, hrows⟩ := hg.sound.exists_wholeRows hsort
  rw [hrows] at ht hr hplain ⊢
  have husual : ∀ {r d s}, .row d s ∈ (Rows.ofHistory g.history order).downOf r → s = .usual :=
    fun hd => (Rows.mem_downOf_ofHistory.mp hd).2.1
  rw [Rows.isPlain_iff_of_redrawn ht husual hplain,
    Rows.nodup_upOf_ofHistory hg.sound.history horder hr,
    Rows.nodup_downOf_ofHistory hg.sound.history horder hr (hg.none_notMem_parentsOf hc),
    hg.nodup_loadedChildren hc, hg.nodup_parentsOf hc, and_comm, MentionedOnce]

section Views

variable (hg : StateOf commits palette declared config g) (hsort : sort ≠ .linearBek)

include hg hsort

/-- A commit that the folded view hides is mentioned once. -/
theorem mentionedOnce_of_hidden {c : Commit α} (hc : c ∈ commits)
    (hnone : (g.foldedView sort none none [true]).rowOf? c.id = none) :
    MentionedOnce commits c := by
  have hcomplete := complete_of_stateOf hg
  have hsound := hcomplete.sound
  have ht := hsound.consistent_wholeRows sort
  obtain ⟨n, hn⟩ := hsound.stands_of_mem (List.mem_map_of_mem hc)
  obtain ⟨r, hr⟩ := (hsound.shows_wholeRows sort).mpr (hsound.lt_size hn)
  obtain ⟨rebased, hstate⟩ := exists_view_graph g sort none none
  have hstands : (g.foldedView sort none none [true]).graph.Stands c.id n := by
    show (g.view sort none none).1.graph.Stands c.id n
    rwa [hstate]
  have hhidden : ¬ (g.foldedView sort none none [true]).rows.Shows n := by
    refine (View.rowOf?_eq_none_iff ?_ hstands).mp hnone
    rw [rows_foldedView_whole g hsort]
    exact Rows.consistent_collapsed ht _ _
  rw [rows_foldedView_whole g hsort] at hhidden
  have hplain := Rows.isPlain_of_hidden hr hhidden
  exact (hcomplete.isPlain_iff_mentionedOnce hsort (hsound.getElem?_of_stands hc hn) hr
    (Rows.isPlain_redrawn ht hplain)).mp hplain

variable (hall : ∀ c ∈ commits, InHistory commits ids c.id)

include hall

/-- A view of heads whose history is the whole commit list is folded over a
copy of the base. -/
theorem rows_view_covering : (g.view sort (some ids) none).1.rows =
    (g.wholeRows sort).redrawn.collapsed (among g.heads) g.config.minRunLength := by
  rw [rows_view_history g hsort, (sound_of_stateOf hg).historyRows_eq_redrawn sort hall]

/-- If the commits it leaves out are mentioned once, it has the rows of the
view without options, folded. -/
theorem rows_view_eq_of_mentionedOnce
    (honce : ∀ c ∈ commits, c.id ∉ (g.view sort (some ids) none).1.commits →
      MentionedOnce commits c) :
    (g.foldedView sort none none [true]).rows = (g.view sort (some ids) none).1.rows := by
  have hcomplete := complete_of_stateOf hg
  have hsound := hcomplete.sound
  rw [rows_view_covering hg hsort hall, rows_foldedView_whole g hsort]
  refine (Rows.collapsed_redrawn (hsound.consistent_wholeRows sort) fun {r n} hr hhidden => ?_).symm
  obtain ⟨a, ha⟩ := hsound.exists_stands ((hsound.shows_wholeRows sort).mp ⟨r, hr⟩)
  obtain ⟨c, hc, rfl⟩ := hsound.exists_commit ha
  have hplain := Rows.isPlain_of_hidden ((Rows.node?_redrawn _ _).trans hr) hhidden
  refine (hcomplete.isPlain_iff_mentionedOnce hsort hc hr hplain).mpr
    (honce c (List.mem_of_getElem? hc) fun hmem => hhidden ?_)
  obtain ⟨m, hm, hshown⟩ := (mem_commits_view hg).mp hmem
  rwa [stands_unique hm ha, rows_view_covering hg hsort hall] at hshown

/-- A view of heads whose history is the whole commit list is the view without
options, folded, exactly when every commit that it leaves out is mentioned
once. -/
theorem sameRows_iff : (g.view sort (some ids) none).1.SameRows (g.foldedView sort none none [true]) ↔
    ∀ c ∈ commits, c.id ∉ (g.view sort (some ids) none).1.commits → MentionedOnce commits c := by
  have ht := ((sound_of_stateOf hg).tidy_foldedView hsort (some ids) none []).2.exact_.consistent
  constructor
  · intro hsame c hc hhidden
    refine mentionedOnce_of_hidden hg hsort hc ?_
    rw [hsame.rowOf?, Option.eq_none_iff_forall_ne_some]
    intro row hrow
    obtain ⟨n, hn, hshown⟩ := (View.rowOf?_iff ht).mp hrow
    exact hhidden ((View.mem_commits (complete_of_stateOf (stateOf_sorted hg sort))).mpr
      ⟨n, hn, row, hshown⟩)
  · intro honce
    have hrows := rows_view_eq_of_mentionedOnce hg hsort hall honce
    have hgraph : (g.foldedView sort none none [true]).graph =
        (g.view sort (some ids) none).1.graph := rfl
    constructor
    · rw [View.size, View.size, hrows]
    · intro row
      rw [View.commitAt?, View.commitAt?, hrows, hgraph]
    · intro id
      rw [View.rowOf?, View.rowOf?, hrows, hgraph]
    · intro row direction
      rw [View.edges, View.edges, hrows]

end Views

/-! ## repeated parents -/

/-- Nothing in the history of a merge is repeated. -/
theorem sameRows_iff_fork : ∃ g, Graph.load forkCommits .standard ["merge"] {} = .ok g ∧
    (∀ c ∈ forkCommits, InHistory forkCommits ["merge"] c.id) ∧
    (g.view .bek (some ["merge"]) none).1.SameRows (g.foldedView .bek none none [true]) := by
  have hpath : ParentOf forkCommits "merge" "path" := ⟨⟨"merge", ["path", "side"], 4⟩, by decide⟩
  have hside : ParentOf forkCommits "merge" "side" := ⟨⟨"merge", ["path", "side"], 4⟩, by decide⟩
  have hall : ∀ c ∈ forkCommits, InHistory forkCommits ["merge"] c.id := by
    intro c hc
    refine ⟨"merge", by simp, ?_⟩
    simp only [forkCommits, List.mem_cons, List.not_mem_nil, or_false] at hc
    rcases hc with rfl | rfl | rfl | rfl
    · exact .refl
    · exact .single hpath
    · exact .single hside
    · exact .tail (.single hside) parentOf_fork
  have honce : ∀ c ∈ forkCommits, MentionedOnce forkCommits c := by
    unfold MentionedOnce
    decide
  exact ⟨fork, load_fork, hall, (sameRows_iff (.loaded load_fork) (by decide) hall).mpr
    fun c hc _ => honce c hc⟩

/-- A commit that names its parent twice. -/
def doubleCommits : List (Commit String) :=
  [⟨"top", ["middle"], 3⟩, ⟨"middle", ["base", "base"], 2⟩, ⟨"base", [], 1⟩]

/-- The graph of these commits. -/
def double : Graph String :=
  let history : History :=
    { parents := #[[.loaded 1], [.loaded 2, .loaded 2], []]
      children := #[[], [0], [1, 1]]
      missingChildren := #[]
      order := .ofList [0, 1, 2] }
  let directory := Directory.ofCommits doubleCommits []
  { history
    directory
    lanes := Lanes.ofHistory history (compareNodes directory .standard)
    heads := directory.nodesOf ["top"]
    palette := .standard
    config := {}
    rebased := none }

theorem load_double : Graph.load doubleCommits .standard ["top"] {} = .ok double := by
  have hhistory : History.load doubleCommits .empty = .ok (double.history, .empty) := by
    cbv
  rw [Graph.load, hhistory]
  simp [double, doubleCommits, Placeholders.reserve, Placeholders.empty]

/-- Redrawn, the commit in the middle has one edge down. -/
theorem redrawn_double : (double.wholeRows .normal).redrawn =
    { nodes := #[0, 1, 2]
      places := #[some 0, some 1, some 2]
      down := #[[.row 1 .usual], [.row 2 .usual], []]
      up := #[[], [⟨0, .usual⟩], [⟨1, .usual⟩]] } := by
  cbv

theorem heads_double : double.heads = [.loaded 0] := by
  cbv

/-- The view of the history of the top hides the commit in the middle, and the
folded view of all commits does not. -/
theorem not_sameRows_double : ∃ g, Graph.load doubleCommits .standard ["top"] {} = .ok g ∧
    (∀ c ∈ doubleCommits, InHistory doubleCommits ["top"] c.id) ∧
    (g.view .normal (some ["top"]) none).1.size = 2 ∧
    (g.foldedView .normal none none [true]).size = 3 ∧
    ¬ (g.view .normal (some ["top"]) none).1.SameRows (g.foldedView .normal none none [true]) := by
  have hall : ∀ c ∈ doubleCommits, InHistory doubleCommits ["top"] c.id := by
    have htop : ParentOf doubleCommits "top" "middle" := ⟨⟨"top", ["middle"], 3⟩, by decide⟩
    have hmiddle : ParentOf doubleCommits "middle" "base" :=
      ⟨⟨"middle", ["base", "base"], 2⟩, by decide⟩
    intro c hc
    refine ⟨"top", by simp, ?_⟩
    simp only [doubleCommits, List.mem_cons, List.not_mem_nil, or_false] at hc
    rcases hc with rfl | rfl | rfl
    · exact .refl
    · exact .single htop
    · exact .tail (.single htop) hmiddle
  have hamong : ∀ nodes : List NodeId, among nodes = fun node => nodes.contains node := by
    intro nodes
    funext node
    simp [among]
  have hsize : (double.view .normal (some ["top"]) none).1.size = 2 := by
    rw [View.size, rows_view_covering (.loaded load_double) (by decide) hall, hamong,
      redrawn_double, heads_double]
    cbv
  have hfolded : (double.foldedView .normal none none [true]).size = 3 := by
    rw [View.size, rows_foldedView_whole _ (by decide), hamong, heads_double]
    cbv
  refine ⟨double, load_double, hall, hsize, hfolded, fun hsame => ?_⟩
  have := hsame.size
  omega

end Graph

end Lineage
