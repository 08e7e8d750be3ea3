import Lineage.Proofs.LinearView
import Lineage.Proofs.Rows.LongestRuns
import Lineage.Proofs.Stack

/-!
# Lineage.Proofs.Stack.Hiding

The layers that hide rows, on any stack of layers over a history that loads.
Both draw a path through hidden rows as one edge.

* `Stack.condenses_commitsOnly` — a commit filter.
* `Stack.folds_collapsible` — a folded layer.
-/

namespace Lineage

namespace Stack

variable {α : Type} [BEq α] [Hashable α] [EquivBEq α] [LawfulHashable α]
  {commits : List (Commit α)} {slots slots' : Placeholders α} {h : History}

/-- The order of the history and its rebase orders are topological. -/
theorem topological_of_load (hload : History.load commits slots = .ok (h, slots'))
    {order : RowOrder} (hbase : order = h.order ∨ ∃ compare timestamp,
      order = h.rebaseOrder (Lanes.ofHistory h compare) timestamp) : order.Topological h := by
  have hs := History.sound_of_load hload
  rcases hbase with rfl | ⟨compare, timestamp, rfl⟩
  · exact hs.topological
  · exact hs.rebaseOrder _ timestamp

theorem consistent_of_load (hload : History.load commits slots = .ok (h, slots')) (s : Stack)
    (hbase : s.baseOrder = h.order ∨ ∃ compare timestamp,
      s.baseOrder = h.rebaseOrder (Lanes.ofHistory h compare) timestamp) :
    (s.rows h).Consistent :=
  consistent_rows (History.sound_of_load hload) s (topological_of_load hload hbase)

/-- A commit filter shows the rows whose nodes it keeps, in their order, and
draws the paths between them whose inner rows it does not show as one edge. -/
theorem condenses_commitsOnly (hload : History.load commits slots = .ok (h, slots')) (s : Stack)
    (hbase : s.baseOrder = h.order ∨ ∃ compare timestamp,
      s.baseOrder = h.rebaseOrder (Lanes.ofHistory h compare) timestamp) (keep : NodeId → Bool) :
    ∃ shown, ((Stack.commitsOnly keep s).rows h).Condenses (s.rows h) ((s.rows h).Drops keep)
      (Via (s.rows h).Below ((s.rows h).Drops keep)) shown :=
  Rows.exists_condenses_commitsOnly (consistent_of_load hload s hbase) keep

/-- A merge and its base, without the two commits between them. -/
theorem condenses_commitsOnly_fork :
    History.load Graph.forkCommits .empty = .ok (Graph.fork.history, .empty) ∧
    ∃ shown, ((Stack.commitsOnly (fun id => id != .loaded 1 && id != .loaded 2)
        (.base Graph.fork.history.order)).rows Graph.fork.history).Condenses
      (Rows.ofHistory Graph.fork.history Graph.fork.history.order)
      ((Rows.ofHistory Graph.fork.history Graph.fork.history.order).Drops
        fun id => id != .loaded 1 && id != .loaded 2)
      (Via (Rows.ofHistory Graph.fork.history Graph.fork.history.order).Below
        ((Rows.ofHistory Graph.fork.history Graph.fork.history.order).Drops
          fun id => id != .loaded 1 && id != .loaded 2)) shown :=
  ⟨Graph.load_history_fork,
    condenses_commitsOnly Graph.load_history_fork (.base Graph.fork.history.order) (Or.inl rfl) _⟩

/-- Both ways around are hidden, and one edge is drawn for the two. -/
example : ((Stack.commitsOnly (fun id => id != .loaded 1 && id != .loaded 2)
    (.base Graph.fork.history.order)).rows Graph.fork.history).edges 0 .down =
      [⟨0, .row 1 .dotted⟩] := by
  cbv

/-- A folded layer hides the longest runs of plain rows that are long enough,
and draws each as one edge. -/
theorem folds_collapsible (hload : History.load commits slots = .ok (h, slots')) (s : Stack)
    (hbase : s.baseOrder = h.order ∨ ∃ compare timestamp,
      s.baseOrder = h.rebaseOrder (Lanes.ofHistory h compare) timestamp)
    (isBranch : NodeId → Bool) (least : Nat) :
    ((Stack.collapsible isBranch least true s).rows h).Folds (s.rows h) isBranch least :=
  Rows.folds_collapsed (consistent_of_load hload s hbase) isBranch least

/-- Both sides of a merge are runs, and one of them is a branch head. -/
theorem folds_collapsible_fork :
    History.load Graph.forkCommits .empty = .ok (Graph.fork.history, .empty) ∧
    ((Stack.collapsible (· == .loaded 2) 1 true
        (.base Graph.fork.history.order)).rows Graph.fork.history).Folds
      (Rows.ofHistory Graph.fork.history Graph.fork.history.order) (· == .loaded 2) 1 :=
  ⟨Graph.load_history_fork,
    folds_collapsible Graph.load_history_fork (.base Graph.fork.history.order) (Or.inl rfl) _ 1⟩

/-- The other one is the run that is hidden, with the base below it. -/
example : (Rows.ofHistory Graph.fork.history Graph.fork.history.order).foldedRuns
    (· == .loaded 2) 1 = [([1], 3)] := by
  cbv

end Stack

end Lineage
