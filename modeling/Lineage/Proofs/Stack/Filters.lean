import Lineage.Proofs.Rows.Commuting
import Lineage.Proofs.Rows.Intersection
import Lineage.Proofs.Stack.Hiding

/-!
# Lineage.Proofs.Stack.Filters

One filter over another.  The history of some starts holds the parents of its
nodes, so on the base of a stack it does not matter whether the filter for it
comes first or a commit filter.  Two commit filters on any stack are one, except
for the order of edges.

* `Stack.filters_comm` — the two orders draw the same rows.
* `Stack.filters_inter` — two commit filters as one.
-/

namespace Lineage

namespace Stack

variable {α : Type} [BEq α] [Hashable α] [EquivBEq α] [LawfulHashable α]
  {commits : List (Commit α)} {slots slots' : Placeholders α} {h : History}

/-- On the order of a history that loads, or on a rebase order of it, the filter
for the history of some starts and the one for chosen commits may change places:
the rows are the same, with the same nodes and the same edges both ways. -/
theorem filters_comm (hload : History.load commits slots = .ok (h, slots')) {order : RowOrder}
    (hbase : order = h.order ∨ ∃ compare timestamp,
      order = h.rebaseOrder (Lanes.ofHistory h compare) timestamp)
    (keep : NodeId → Bool) (starts : List NodeId) :
    (Stack.historyOnly (Graph.among ((h.reachableFrom starts).map .loaded))
        (.commitsOnly keep (.base order))).rows h =
      (Stack.commitsOnly keep (.historyOnly
        (Graph.among ((h.reachableFrom starts).map .loaded)) (.base order))).rows h := by
  have hs := History.sound_of_load hload
  have hexact : (Rows.ofHistory h order).Exact h :=
    Rows.exact_ofHistory hs (topological_of_load hload hbase)
  have hclosed : ∀ {u v},
      Graph.among ((h.reachableFrom starts).map .loaded) (.loaded u) = true → h.IsParent u v →
        Graph.among ((h.reachableFrom starts).map .loaded) (.loaded v) = true := by
    simp only [Graph.among_eq_true_iff, List.mem_map, NodeId.loaded.injEq, exists_eq_right]
    exact fun hu hv => History.mem_reachableFrom_of_parent hs hu hv
  exact Rows.historyOnly_commitsOnly hexact.consistent (hexact.keeps_of_below hclosed)

/-- The history of both sides of a merge without one of them. -/
theorem filters_comm_fork :
    History.load Graph.forkCommits .empty = .ok (Graph.fork.history, .empty) ∧
    (Stack.historyOnly (Graph.among
        ((Graph.fork.history.reachableFrom [.loaded 1, .loaded 2]).map .loaded))
        (.commitsOnly (· != .loaded 1) (.base Graph.fork.history.order))).rows Graph.fork.history =
      (Stack.commitsOnly (· != .loaded 1) (.historyOnly (Graph.among
        ((Graph.fork.history.reachableFrom [.loaded 1, .loaded 2]).map .loaded))
        (.base Graph.fork.history.order))).rows Graph.fork.history :=
  ⟨Graph.load_history_fork, filters_comm Graph.load_history_fork (Or.inl rfl) _ _⟩

/-- On any stack of layers over a history that loads, one commit filter over
another shows what one filter for the commits of both shows: the same nodes at
the same rows, and the same edges both ways. -/
theorem filters_inter (hload : History.load commits slots = .ok (h, slots')) (s : Stack)
    (hbase : s.baseOrder = h.order ∨ ∃ compare timestamp,
      s.baseOrder = h.rebaseOrder (Lanes.ofHistory h compare) timestamp)
    (first second : NodeId → Bool) :
    ((Stack.commitsOnly second (.commitsOnly first s)).rows h).Copies
      ((Stack.commitsOnly (fun id => first id && second id) s).rows h) :=
  Rows.copies_commitsOnly_commitsOnly (consistent_of_load hload s hbase) first second

/-- A commit over a merge whose sides end in different commits. -/
def splitCommits : List (Commit String) :=
  [⟨"top", ["merge"], 5⟩, ⟨"merge", ["main", "side"], 4⟩, ⟨"main", ["root"], 3⟩,
    ⟨"side", [], 2⟩, ⟨"root", [], 1⟩]

/-- The history of these commits. -/
def split : History where
  parents := #[[.loaded 1], [.loaded 2, .loaded 3], [.loaded 4], [], []]
  children := #[[], [0], [1], [1], [2]]
  missingChildren := #[]
  order := .ofList [0, 1, 2, 3, 4]

theorem load_split : History.load splitCommits .empty = .ok (split, .empty) := by
  cbv

/-- The merge is hidden first, and then its first parent. -/
theorem filters_inter_split : History.load splitCommits .empty = .ok (split, .empty) ∧
    ((Stack.commitsOnly (· != .loaded 2) (.commitsOnly (· != .loaded 1)
        (.base split.order))).rows split).Copies
      ((Stack.commitsOnly (fun id => id != .loaded 1 && id != .loaded 2)
        (.base split.order)).rows split) :=
  ⟨load_split, filters_inter load_split (.base split.order) (Or.inl rfl) _ _⟩

/-- The edges of the top to the two ends come in another order: the first parent
of the merge stood above its second one when the first filter drew them. -/
example :
    ((Stack.commitsOnly (· != .loaded 2) (.commitsOnly (· != .loaded 1)
        (.base split.order))).rows split).edges 0 .down =
      [⟨0, .row 2 .dotted⟩, ⟨0, .row 1 .dotted⟩] ∧
    ((Stack.commitsOnly (fun id => id != .loaded 1 && id != .loaded 2)
        (.base split.order)).rows split).edges 0 .down =
      [⟨0, .row 1 .dotted⟩, ⟨0, .row 2 .dotted⟩] := by
  constructor <;> cbv

end Stack

end Lineage
