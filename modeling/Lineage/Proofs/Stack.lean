import Lineage.Proofs.Interleave
import Lineage.Proofs.Rows.Collapse
import Lineage.Proofs.Rows.Straighten
import Lineage.Stack

/-!
# Lineage.Proofs.Stack

Every stack of layers is consistent: its base is, and each layer keeps what
it is put on.  Which layers there are, in which order, with which settings and
folded or not, makes no difference.

* `Stack.consistent_rows` — the induction over the layers.
* `Stack.contract_rows` — what the queries of a stack answer.
-/

namespace Lineage

namespace Stack

/-! ## all layers -/

/-- The order of the base of a stack. -/
def baseOrder : Stack → RowOrder
  | .base order => order
  | .straightened _ s | .commitsOnly _ s | .historyOnly _ s | .collapsible _ _ _ s => s.baseOrder

/-- Every layer keeps what it is put on consistent. -/
theorem consistent_rows {h : History} (hs : h.Sound) (s : Stack)
    (hbase : s.baseOrder.Topological h) : (s.rows h).Consistent := by
  induction s with
  | base order => exact Rows.consistent_ofHistory hs hbase
  | straightened most s ih => exact Rows.consistent_straightened (ih hbase) most
  | commitsOnly keep s ih => exact Rows.consistent_commitsOnly (ih hbase) keep
  | historyOnly keep s ih => exact Rows.consistent_historyOnly (ih hbase) keep
  | collapsible isBranch least folded s ih =>
      cases folded with
      | true => exact Rows.consistent_collapsed (ih hbase) isBranch least
      | false => exact Rows.consistent_redrawn (ih hbase)

variable {α : Type} [BEq α] [Hashable α] [EquivBEq α] [LawfulHashable α]
  {commits : List (Commit α)} {slots slots' : Placeholders α} {h : History}

/-- Every stack of layers over a history that loads keeps its promises, on
the order of the history or a rebase order of it.  The layers may be folded or
not, so folding and unfolding them is covered too. -/
theorem contract_rows (hload : History.load commits slots = .ok (h, slots')) (s : Stack)
    (hbase : s.baseOrder = h.order ∨ ∃ compare timestamp,
      s.baseOrder = h.rebaseOrder (Lanes.ofHistory h compare) timestamp) :
    (s.rows h).Contract := by
  have hs := History.sound_of_load hload
  refine (consistent_rows hs s ?_).contract
  rcases hbase with hbase | ⟨compare, timestamp, hbase⟩
  · rw [hbase]
    exact hs.topological
  · rw [hbase]
    exact hs.rebaseOrder _ timestamp

/-- A folded layer over a straightened one over a commit filter, on the
rebase order of a merge. -/
theorem contract_rows_merge : ∃ h slots,
    History.load History.mergeCommits .empty = .ok (h, slots) ∧
    ((Stack.collapsible (· == .loaded 1) 1 true <| .straightened 5 <|
      .commitsOnly (· != .loaded 2) <|
      .base (h.rebaseOrder (Lanes.ofHistory h compare) fun n => -n)).rows h).Contract := by
  obtain ⟨h, slots, hload⟩ := History.load_mergeCommits
  exact ⟨h, slots, hload, contract_rows hload _ (Or.inr ⟨compare, fun n => -n, rfl⟩)⟩

end Stack

end Lineage
