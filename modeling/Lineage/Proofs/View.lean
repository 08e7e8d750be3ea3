import Lineage.Proofs.Rows.Exact
import Lineage.Proofs.Selection

/-!
# Lineage.Proofs.View

What the edges of a view say about the commit list.  Under the normal and the
rebase sort every layer of a view is exact, whichever layers the options ask
for and however they are folded; translated to identifiers, an edge is a chain
of parents through commits that are not shown.

* `Graph.Sound.tidy_foldedView` — the layers of a view.
* `View.Faithful`, `Graph.faithful_foldedView` — the edges of a view.
-/

namespace Lineage

variable {α : Type} [BEq α] [Hashable α]

namespace Graph

variable {g : Graph α} {commits : List (Commit α)}

/-! ## the layers of a view -/

/-- What the layers of a view keep: the edges are exact, and no two edges of a
row end at the same place. -/
structure Tidy (h : History) (t : Rows) : Prop where
  exact_ : t.Exact h
  nodup : ∀ i, ((t.downOf i).map Down.ending).Nodup

theorem tidy_collapsible {h : History} {s : Stack} (hs : (s.rows h).Exact h)
    (isBranch : NodeId → Bool) (least : Nat) (folded : Bool) :
    Tidy h ((Stack.collapsible isBranch least folded s).rows h) := by
  cases folded with
  | true =>
      exact ⟨hs.collapsed isBranch least, Rows.nodup_ending_drawn⟩
  | false => exact ⟨hs.redrawn, Rows.nodup_ending_drawn⟩

/-- Under the normal and the rebase sort, the base of a view shows every node
in a topological order. -/
theorem Sound.sorted (hg : g.Sound commits) {sort : SortKind} (hsort : sort ≠ .linearBek) :
    ∃ order, (g.sorted sort).1 = .base order ∧
      order.Topological (g.sorted sort).2.history ∧ (g.sorted sort).2.Sound commits := by
  cases sort with
  | normal => exact ⟨_, rfl, hg.history.topological, hg⟩
  | bek =>
      refine ⟨_, rfl, ?_, hg.rebaseOrder.2⟩
      rw [show (g.sorted .bek).2 = g.rebaseOrder.2 from rfl, rebaseOrder_snd]
      exact hg.rebaseOrder.1
  | linearBek => contradiction

theorem foldl_setFolded_collapsible (isBranch : NodeId → Bool) (least : Nat) (folded : Bool)
    (s : Stack) (folds : List Bool) : ∃ last,
      folds.foldl (fun s folded => s.setFolded folded) (.collapsible isBranch least folded s) =
        Stack.collapsible isBranch least last s := by
  induction folds generalizing folded with
  | nil => exact ⟨folded, rfl⟩
  | cons next folds ih => exact ih next

theorem foldl_setFolded_of_fixed {s : Stack} (hs : ∀ folded, s.setFolded folded = s)
    (folds : List Bool) : folds.foldl (fun s folded => s.setFolded folded) s = s := by
  induction folds with
  | nil => rfl
  | cons next folds ih => rw [List.foldl_cons, hs, ih]

/-- The view of a graph with its topmost layer folded and unfolded in turn. -/
def foldedView (g : Graph α) (sort : SortKind) (heads matching : Option (List α))
    (folds : List Bool) : View α :=
  let (stack, g) := g.compose sort heads matching
  g.draw sort (folds.foldl (fun s folded => s.setFolded folded) stack)

/-- The layers of a view under the normal or the rebase sort. -/
theorem Sound.tidy_foldedView (hg : g.Sound commits) {sort : SortKind} (hsort : sort ≠ .linearBek)
    (heads matching : Option (List α)) (folds : List Bool) :
    (g.foldedView sort heads matching folds).graph.Sound commits ∧
      Tidy (g.foldedView sort heads matching folds).graph.history
        (g.foldedView sort heads matching folds).rows := by
  obtain ⟨order, hbase, horder, hsound⟩ := hg.sorted hsort
  simp only [foldedView, compose]
  generalize g.sorted sort = p at *
  obtain ⟨base, g'⟩ := p
  obtain rfl := hbase
  have hexact : ((Stack.base order).rows g'.history).Exact g'.history :=
    Rows.exact_ofHistory hsound.history horder
  refine ⟨hsound, ?_⟩
  cases matching with
  | some ids =>
      have hcommits := hexact.commitsOnly (among (g'.directory.nodesOf ids))
      cases heads with
      | some heads =>
          rw [draw, foldl_setFolded_of_fixed fun _ => rfl]
          exact ⟨hcommits.historyOnly hsound.historyOf_of_parent, Rows.nodup_ending_drawn⟩
      | none =>
          rw [draw, foldl_setFolded_of_fixed fun _ => rfl]
          exact ⟨hcommits, Rows.nodup_ending_drawn⟩
  | none =>
      cases heads with
      | some heads =>
          have hhistory : ((Stack.historyOnly (g'.historyOf heads) (.base order)).rows
              g'.history).Exact g'.history := hexact.historyOnly hsound.historyOf_of_parent
          obtain ⟨last, hlast⟩ := foldl_setFolded_collapsible (among g'.heads)
            g'.config.minRunLength true (.historyOnly (g'.historyOf heads) (.base order)) folds
          simp only [Option.map_some, if_neg hsort, collapsible, draw, hlast]
          exact tidy_collapsible hhistory _ _ _
      | none =>
          obtain ⟨last, hlast⟩ := foldl_setFolded_collapsible (among g'.heads)
            g'.config.minRunLength false (.base order) folds
          simp only [Option.map_none, if_neg hsort, collapsible, draw, hlast]
          exact tidy_collapsible hexact _ _ _

end Graph

/-! ## edges between commits -/

/-- The placeholder an edge ends at, if it does not end at a row. -/
def Edge.placeholder? (e : Edge) : Option NodeId :=
  match e.down with
  | .row .. => none
  | .missing slot => some (.missing slot)

namespace View

/-- An edge leads from a row of a view down to another one. -/
def Below (v : View α) (i j : Nat) : Prop := ∃ s, ⟨i, .row j s⟩ ∈ v.edges i .down

/-- A view whose edges say what the commit list says. -/
structure Faithful (v : View α) (commits : List (Commit α)) : Prop where
  /-- An edge between two rows is a chain of parents through commits that have
  no row. -/
  edge_iff : ∀ {a b i j}, v.rowOf? a = some i → v.rowOf? b = some j →
    (v.Below i j ↔ Via (ParentOf commits) (fun c => v.rowOf? c = none) a b)
  /-- No two edges lead from one row to the same other row. -/
  at_most_one : ∀ i j, ((v.edges i .down).filter (·.down.row? = some j)).length ≤ 1
  /-- The usual edges are the listed parents. -/
  usual_iff : ∀ {a b i j s}, v.rowOf? a = some i → v.rowOf? b = some j →
    ⟨i, .row j s⟩ ∈ v.edges i .down → (s = .usual ↔ ParentOf commits a b)
  /-- The other edges lead to the placeholders of the parents that are not
  listed, one for each of these. -/
  missing_perm : ∀ {c i}, c ∈ commits → v.rowOf? c.id = some i →
    (((v.edges i .down).filterMap Edge.placeholder?).map some).Perm
      ((c.parents.filter fun p => !(commits.map (·.id)).contains p).eraseDups.map
        v.graph.directory.node?)
  /-- Following edges down leads to the ancestors that have a row. -/
  ancestor_iff : ∀ {a b i j}, v.rowOf? a = some i → v.rowOf? b = some j →
    (Relation.TransGen v.Below i j ↔ Relation.TransGen (ParentOf commits) a b)

variable {v : View α} {commits : List (Commit α)}

theorem mem_edges_row {i j : Nat} {s : Stroke} :
    ⟨i, .row j s⟩ ∈ v.edges i .down ↔ .row j s ∈ v.rows.downOf i := by
  rw [edges, Rows.mem_edges_down, and_iff_right rfl]

theorem below_eq (v : View α) : v.Below = v.rows.Below := by
  funext i j
  simp only [Below, mem_edges_row, Rows.Below]

/-- The row of a commit shows its node. -/
theorem rowOf?_iff (ht : v.rows.Consistent) {a : α} {i : Nat} : v.rowOf? a = some i ↔
    ∃ n, v.graph.Stands a n ∧ v.rows.node? i = some n := by
  rw [rowOf?, Option.bind_eq_some_iff]
  constructor
  · rintro ⟨node, hnode, hrow⟩
    cases node with
    | loaded n => exact ⟨n, hnode, ht.rowOf?_iff.mp hrow⟩
    | none => contradiction
    | missing s => contradiction
  · rintro ⟨n, hn, hrow⟩
    exact ⟨.loaded n, hn, ht.rowOf?_iff.mpr hrow⟩

/-- A commit has no row when no row shows its node. -/
theorem rowOf?_eq_none_iff (ht : v.rows.Consistent) {a : α} {n : Nat} (ha : v.graph.Stands a n) :
    v.rowOf? a = none ↔ ¬ v.rows.Shows n := by
  rw [Option.eq_none_iff_forall_ne_some, Rows.Shows, not_exists]
  refine forall_congr' fun i => not_congr ?_
  rw [rowOf?_iff ht]
  constructor
  · rintro ⟨m, hm, hrow⟩
    rwa [Graph.stands_unique ha hm]
  · exact fun hrow => ⟨n, ha, hrow⟩

/-- The placeholders at the ends of the edges of a row. -/
theorem mem_placeholders {i : Nat} {node : NodeId} :
    node ∈ (v.edges i .down).filterMap Edge.placeholder? ↔
      ∃ m, node = .missing m ∧ .missing m ∈ v.rows.downOf i := by
  rw [List.mem_filterMap]
  constructor
  · rintro ⟨⟨u, d⟩, he, hnode⟩
    have hd := (Rows.mem_edges_down.mp he).2
    cases d with
    | row r s => contradiction
    | missing m => exact ⟨m, (Option.some.inj hnode).symm, hd⟩
  · rintro ⟨m, rfl, hm⟩
    exact ⟨⟨i, .missing m⟩, Rows.mem_edges_down.mpr ⟨rfl, hm⟩, rfl⟩

/-- No placeholder is the end of two edges of a row. -/
theorem nodup_placeholders {i : Nat} (hnodup : ((v.rows.downOf i).map Down.ending).Nodup) :
    ((v.edges i .down).filterMap Edge.placeholder?).Nodup := by
  rw [edges, Rows.edges, List.filterMap_map]
  refine (hnodup.of_map _).filterMap fun d d' node hd hd' => ?_
  cases d with
  | row r s => contradiction
  | missing m =>
      cases d' with
      | row r s => contradiction
      | missing m' =>
          have heq := (Option.some.inj hd).trans (Option.some.inj hd').symm
          rw [NodeId.missing.inj heq]

/-- The parents of a commit that are not listed have placeholders of their
own. -/
theorem missing_perm_of_exact [LawfulBEq α] (hg : v.graph.Sound commits)
    (ht : v.rows.Exact v.graph.history)
    (hnodup : ∀ i, ((v.rows.downOf i).map Down.ending).Nodup) {c : Commit α} {i : Nat}
    (hc : c ∈ commits) (hi : v.rowOf? c.id = some i) :
    (((v.edges i .down).filterMap Edge.placeholder?).map some).Perm
      ((c.parents.filter fun p => !(commits.map (·.id)).contains p).eraseDups.map
        v.graph.directory.node?) := by
  obtain ⟨u, hu, hrow⟩ := (rowOf?_iff ht.consistent).mp hi
  have hget := hg.getElem?_of_stands hc hu
  have hnew : ∀ {p}, p ∈ (c.parents.filter fun p => !(commits.map (·.id)).contains p).eraseDups ↔
      p ∈ c.parents ∧ p ∉ commits.map (·.id) := by
    intro p
    rw [List.mem_eraseDups, List.mem_filter, Bool.not_eq_true', ← Bool.not_eq_true,
      List.contains_iff_mem]
  have hinj : ∀ p ∈ (c.parents.filter fun p => !(commits.map (·.id)).contains p).eraseDups,
      ∀ q ∈ (c.parents.filter fun p => !(commits.map (·.id)).contains p).eraseDups,
      v.graph.directory.node? p = v.graph.directory.node? q → p = q := by
    intro p hp q hq heq
    obtain ⟨s, hs, hps⟩ := hg.exists_missing hget (hnew.mp hp).1 (hnew.mp hp).2
    obtain ⟨k, hk, hqk⟩ := hg.exists_missing hget (hnew.mp hq).1 (hnew.mp hq).2
    obtain rfl : s = k := NodeId.missing.inj (Option.some.inj (hs.symm.trans (heq.trans hk)))
    exact Option.some.inj (hps.symm.trans hqk)
  have hplaces := (nodup_placeholders (hnodup i)).map fun _ _ => Option.some.inj
  refine (List.perm_ext_iff_of_nodup hplaces ((nodup_eraseDups _).map_on hinj)).mpr fun node => ?_
  rw [List.mem_map, List.mem_map]
  simp only [mem_placeholders, hnew]
  constructor
  · rintro ⟨_, ⟨m, rfl, hm⟩, rfl⟩
    obtain ⟨p, hp, hnode⟩ := (hg.mem_parentsOf hget).mp (ht.lacks_iff.mp ⟨i, hrow, hm⟩).2
    refine ⟨p, ⟨hp, fun hlisted => ?_⟩, hnode⟩
    obtain ⟨n, hn⟩ := List.mem_iff_getElem?.mp hlisted
    exact absurd ((hg.stands_iff.mpr hn).symm.trans hnode) (by simp)
  · rintro ⟨p, ⟨hp, hunlisted⟩, rfl⟩
    obtain ⟨m, hm, _⟩ := hg.exists_missing hget hp hunlisted
    have hparent := (hg.mem_parentsOf hget).mpr ⟨p, hp, hm⟩
    obtain ⟨i', hrow', hmem⟩ := ht.lacks_iff.mpr ⟨⟨i, hrow⟩, hparent⟩
    rw [ht.consistent.node?_inj hrow' hrow] at hmem
    exact ⟨_, ⟨m, rfl, hmem⟩, hm.symm⟩

/-- The edges of a view whose layers are exact. -/
theorem faithful_of_exact [LawfulBEq α] (hg : v.graph.Sound commits)
    (ht : v.rows.Exact v.graph.history)
    (hnodup : ∀ i, ((v.rows.downOf i).map Down.ending).Nodup) : v.Faithful commits where
  edge_iff {a b i j} hi hj := by
    obtain ⟨u, hu, hrow⟩ := (rowOf?_iff ht.consistent).mp hi
    obtain ⟨w, hw, hrow'⟩ := (rowOf?_iff ht.consistent).mp hj
    rw [hg.mirrors.via_iff (fun hc => rowOf?_eq_none_iff ht.consistent hc) hu hw,
      ← ht.below_iff hrow hrow', below_eq]
  at_most_one i j := by
    rw [edges, Rows.edges, List.filter_map, List.length_map]
    refine length_filter_le_one (hnodup i) (c := .inl j) fun d hd => ?_
    cases d with
    | row r s => simpa [Down.row?, Down.ending] using hd
    | missing m => simp [Down.row?] at hd
  usual_iff {a b i j s} hi hj he := by
    obtain ⟨u, hu, hrow⟩ := (rowOf?_iff ht.consistent).mp hi
    obtain ⟨w, hw, hrow'⟩ := (rowOf?_iff ht.consistent).mp hj
    rw [hg.parentOf_iff hu hw]
    exact (ht.joins_iff.mp ⟨i, j, hrow, hrow', mem_edges_row.mp he⟩).2.2.2
  missing_perm hc hi := missing_perm_of_exact hg ht hnodup hc hi
  ancestor_iff {a b i j} hi hj := by
    obtain ⟨u, hu, hrow⟩ := (rowOf?_iff ht.consistent).mp hi
    obtain ⟨w, hw, hrow'⟩ := (rowOf?_iff ht.consistent).mp hj
    rw [hg.mirrors.transGen_iff hu hw, ← ht.transGen_below_iff hrow hrow',
      below_eq]

end View

namespace Graph

/-- Under the normal and the rebase sort the edges of a view say what the
commit list says, for all options and however the view is folded. -/
theorem faithful_foldedView [LawfulBEq α] {commits : List (Commit α)} {palette : Palette α}
    {declared : List α} {config : Config} {g : Graph α}
    (hg : StateOf commits palette declared config g) {sort : SortKind}
    (hsort : sort ≠ .linearBek) (heads matching : Option (List α)) (folds : List Bool) :
    (g.foldedView sort heads matching folds).Faithful commits := by
  obtain ⟨hsound, htidy⟩ := (sound_of_stateOf hg).tidy_foldedView hsort heads matching folds
  exact View.faithful_of_exact hsound htidy.exact_ htidy.nodup

/-- The view of a merge in the rebase order, with a search for two commits. -/
theorem faithful_foldedView_merge : ∃ g,
    StateOf History.mergeCommits .standard ["merge", "topic"] {} g ∧
    (g.foldedView .bek (some ["merge"]) (some ["merge", "base"]) [true, false]).Faithful
      History.mergeCommits := by
  obtain ⟨h, slots, hload⟩ := History.load_mergeCommits
  obtain ⟨g, hg, _⟩ := exists_load hload
  exact ⟨g, .loaded hg, faithful_foldedView (.loaded hg) (by decide) _ _ _⟩

end Graph

end Lineage
