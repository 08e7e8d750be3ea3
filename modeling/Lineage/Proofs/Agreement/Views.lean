import Lineage.Proofs.Agreement
import Lineage.Proofs.Stack.Choices
import Lineage.Proofs.View

/-!
# Lineage.Proofs.Agreement.Views

Graphs that agree have the same views.  Their layers choose the same loaded
nodes, and the edges of a layer end at rows or at parents.

* `Graph.SameView` — views that show the same commits; `Graph.Agree.sameView`.
* `Graph.alike_compose` — the layers of a view.
-/

namespace Lineage

namespace Graph

variable {α : Type} [BEq α] [Hashable α] {g g' : Graph α} {commits : List (Commit α)}
  {palette : Palette α} {heads heads' : List α} {config : Config}

/-! ## what a view shows -/

/-- Two views that show the same commits, connected and colored alike. -/
structure SameView (v v' : View α) : Prop where
  layers : v'.stack.names = v.stack.names
  folded? : v'.stack.folded? = v.stack.folded?
  size : v'.size = v.size
  commits : v'.commits = v.commits
  rowOf? : ∀ id, v'.rowOf? id = v.rowOf? id
  info? : ∀ row, v'.info? row = v.info? row
  color? : ∀ row, v'.color? row = v.color? row
  edges : ∀ row direction, v'.edges row direction = v.edges row direction
  /-- The commits at the ends of edges that have no row. -/
  placeholder : ∀ {row}, ∀ e ∈ v.edges row .down, ∀ x ∈ e.placeholder?,
    ∃ id, v.graph.directory.id? x = some id ∧ v'.graph.directory.id? x = some id

theorem bind_rowOf? (g : Graph α) (t : Rows) (id : α) :
    (g.directory.node? id).bind t.rowOf? = (g.nodeOf? id).bind fun n => t.rowOf? (.loaded n) := by
  unfold nodeOf?
  cases g.directory.node? id with
  | none => rfl
  | some x => cases x <;> rfl

/-- Graphs that agree and layers that choose the same nodes make the same
view. -/
theorem Agree.sameView {v v' : View α} (hag : Agree commits v.graph v'.graph)
    (hg : v.graph.Complete commits heads) (hg' : v'.graph.Complete commits heads')
    (hstack : Stack.Alike v.stack v'.stack) (hrows : v.rows = v.stack.rows v.graph.history)
    (hrows' : v'.rows = v'.stack.rows v'.graph.history) : SameView v v' := by
  have hsame : v'.rows = v.rows := by rw [hrows, hrows', hag.history, hstack.rows_eq]
  constructor
  · exact hstack.names_eq
  · exact hstack.folded?_eq
  · rw [View.size, View.size, hsame]
  · rw [View.commits, View.commits, hsame, hag.idsOf_loaded]
  · intro id
    rw [View.rowOf?, View.rowOf?, bind_rowOf?, bind_rowOf?, hsame, hag.nodeOf?]
  · intro row
    unfold View.info?
    simp only [hsame, hag.lanes, hag.id?]
  · intro row
    unfold View.color?
    simp only [hsame, hag.lanes, hag.id?, hag.palette]
  · intro row direction
    rw [View.edges, View.edges, hsame]
  · intro row e he x hx
    obtain ⟨m, rfl, hm⟩ := View.mem_placeholders.mp (List.mem_filterMap.mpr ⟨e, he, hx⟩)
    rw [hrows] at hm
    obtain ⟨n, hn⟩ := Stack.exists_parent_of_missing hm
    exact hag.exists_id_of_mem_parentsOf hg hg' hn

/-! ## layers -/

/-- A graph that has been asked for the base of a view. -/
theorem stateOf_sorted (hg : StateOf commits palette heads config g) (sort : SortKind) :
    StateOf commits palette heads config (g.sorted sort).2 := by
  cases sort with
  | normal => exact hg
  | bek => exact hg.asked
  | linearBek => exact hg.asked

namespace Agree

variable (hag : Agree commits g g')

include hag

theorem sorted (sort : SortKind) : (g'.sorted sort).1 = (g.sorted sort).1 := by
  cases sort with
  | normal => exact congrArg (fun h => Stack.base h.order) hag.history
  | bek => exact congrArg Stack.base hag.order
  | linearBek =>
      show Stack.straightened g'.rebaseOrder.2.config.maxBlockSize (.base g'.rebaseOrder.1) =
        .straightened g.rebaseOrder.2.config.maxBlockSize (.base g.rebaseOrder.1)
      rw [rebaseOrder_snd, rebaseOrder_snd, hag.order, hag.config]

/-- A search chooses the same nodes. -/
theorem among_nodesOf (ids : List α) (n : Nat) :
    among (g'.directory.nodesOf ids) (.loaded n) = among (g.directory.nodesOf ids) (.loaded n) := by
  rw [Bool.eq_iff_iff, among_eq_true_iff, among_eq_true_iff, mem_nodesOf_loaded,
    mem_nodesOf_loaded]
  simp only [hag.stands]

theorem among_heads (n : Nat) : among g'.heads (.loaded n) = among g.heads (.loaded n) := by
  rw [Bool.eq_iff_iff, among_eq_true_iff, among_eq_true_iff, hag.heads]

/-- The history of some heads is made of the same nodes. -/
theorem historyOf (hsound : g.history.Sound) (ids : List α) (n : Nat) :
    g'.historyOf ids (.loaded n) = g.historyOf ids (.loaded n) := by
  rw [Bool.eq_iff_iff, historyOf_loaded, historyOf_loaded, hag.history,
    History.mem_reachableFrom hsound, History.mem_reachableFrom hsound]
  simp only [mem_nodesOf_loaded, hag.stands]

/-- Layers that fold choose the same nodes. -/
theorem collapsible (folded : Bool) {s s' : Stack} (hs : Stack.Alike s s') :
    Stack.Alike (g.collapsible folded s) (g'.collapsible folded s') := by
  unfold Graph.collapsible
  rw [hag.config]
  exact .collapsible _ folded hag.among_heads hs

end Agree

/-- The layers that the options of a view ask for choose the same nodes. -/
theorem alike_compose {sort : SortKind} (hag : Agree commits (g.sorted sort).2 (g'.sorted sort).2)
    (hbase : (g'.sorted sort).1 = (g.sorted sort).1) (hsound : (g.sorted sort).2.history.Sound)
    (heads matching : Option (List α)) :
    Stack.Alike (g.compose sort heads matching).1 (g'.compose sort heads matching).1 := by
  unfold compose
  generalize g.sorted sort = p at *
  generalize g'.sorted sort = p' at *
  obtain ⟨base, g⟩ := p
  obtain ⟨base', g'⟩ := p'
  obtain rfl : base' = base := hbase
  have hrefl := Stack.Alike.refl base'
  cases matching with
  | some ids =>
      have hcommits := Stack.Alike.commitsOnly (hag.among_nodesOf ids) hrefl
      cases heads with
      | some heads => exact .historyOnly (hag.historyOf hsound heads) hcommits
      | none => exact hcommits
  | none =>
      cases heads with
      | some heads =>
          have hhistory := Stack.Alike.historyOnly (hag.historyOf hsound heads) hrefl
          by_cases hsort : sort = .linearBek
          · simpa only [Option.map_some, if_pos hsort] using hhistory
          · simpa only [Option.map_some, if_neg hsort] using hag.collapsible true hhistory
      | none =>
          by_cases hsort : sort = .linearBek
          · simpa only [Option.map_none, if_pos hsort] using hrefl
          · simpa only [Option.map_none, if_neg hsort] using hag.collapsible false hrefl

end Graph

end Lineage
