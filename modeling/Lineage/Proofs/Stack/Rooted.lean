import Lineage.Proofs.Shown
import Lineage.Proofs.Stack
import Lineage.Proofs.View

/-!
# Lineage.Proofs.Stack.Rooted

Where the rows of a stack come from.  Whatever the layers, a row shows a node of
the history, and a placeholder below it is a parent of that node: layers hide
rows and connect them anew, but they add none.

* `Rows.Rooted`, `Stack.rooted_rows` — rows of a history, and those of a stack.
* `Graph.Sound.rooted_foldedView` — the rows of a view, however it is folded.
-/

namespace Lineage

/-! ## rows and their history -/

namespace Rows

variable {t : Rows} {h : History} {u m : Nat}

/-- Rows that show nodes of a history, and placeholders only below the nodes
that have them as parents. -/
structure Rooted (t : Rows) (h : History) : Prop where
  lt_size : ∀ {n}, t.Shows n → n < h.size
  parent : ∀ {u m}, t.Lacks u m → .missing m ∈ h.parentsOf u

theorem lacks_straightened (ht : t.Consistent) (most : Nat) :
    (t.straightened most).Lacks u m ↔ t.Lacks u m := by
  have hbs := areBubbles_bubbles t most
  rw [straightened_eq_drawLines, drawLines_eq_drawn, lacks_drawn (hbs.showable_lineOrder ht)]
  simp only [mem_missing_lineTargets, Lacks, hbs.mem_lineOrder ht]
  refine exists_congr fun r => and_congr_left fun _ => and_iff_left_of_imp lt_size_of_node?

theorem rooted_ofHistory {o : RowOrder} (ho : o.Topological h) : (ofHistory h o).Rooted h :=
  ⟨(shows_ofHistory ho).mp, fun hlacks => ((lacks_ofHistory ho).mp hlacks).2⟩

namespace Rooted

theorem straightened (hroot : t.Rooted h) (ht : t.Consistent) (most : Nat) :
    (t.straightened most).Rooted h :=
  ⟨fun hshows => hroot.lt_size ((shows_straightened ht most).mp hshows),
    fun hlacks => hroot.parent ((lacks_straightened ht most).mp hlacks)⟩

theorem projected (hroot : t.Rooted h) (visible : Nat → Bool) (bridges : Nat → List Nat) :
    (t.projected visible bridges).Rooted h := by
  constructor
  · intro n hshows
    obtain ⟨r, hr, _⟩ := shows_projected.mp hshows
    exact hroot.lt_size ⟨r, hr⟩
  · intro u m hlacks
    obtain ⟨r, ⟨hr, _⟩, hm⟩ := lacks_projected.mp hlacks
    exact hroot.parent ⟨r, hr, hm⟩

end Rooted

end Rows

namespace Stack

/-- No layer moves a placeholder to another node. -/
theorem rooted_rows {h : History} (hs : h.Sound) (s : Stack)
    (hbase : s.baseOrder.Topological h) : (s.rows h).Rooted h := by
  induction s with
  | base order => exact Rows.rooted_ofHistory hbase
  | straightened most s ih => exact (ih hbase).straightened (consistent_rows hs s hbase) most
  | commitsOnly keep s ih => exact (ih hbase).projected _ _
  | historyOnly keep s ih => exact (ih hbase).projected _ _
  | collapsible isBranch least folded s ih =>
      cases folded with
      | true => exact (ih hbase).projected _ _
      | false => exact (ih hbase).projected _ _

/-- Folding leaves the base as it is. -/
theorem baseOrder_foldl_setFolded (s : Stack) (folds : List Bool) :
    (folds.foldl (fun s folded => s.setFolded folded) s).baseOrder = s.baseOrder := by
  induction folds generalizing s with
  | nil => rfl
  | cons folded folds ih =>
      rw [List.foldl_cons, ih]
      cases s <;> rfl

end Stack

namespace Graph

variable {α : Type} [BEq α] [Hashable α] {g : Graph α} {commits : List (Commit α)}

/-! ## the rows of a view -/

/-- The layers of a view are put on those of its sort. -/
theorem baseOrder_compose (g : Graph α) (sort : SortKind) (visible matching : Option (List α)) :
    (g.compose sort visible matching).1.baseOrder = (g.sorted sort).1.baseOrder := by
  unfold compose
  generalize g.sorted sort = p
  obtain ⟨base, g'⟩ := p
  cases matching with
  | some ids => cases visible <;> rfl
  | none =>
      cases visible with
      | some ids =>
          simp only [Option.map_some]
          split <;> rfl
      | none =>
          simp only [Option.map_none]
          split <;> rfl

/-- The base of a view shows every node in a topological order. -/
theorem Sound.topological_baseOrder (hg : g.Sound commits) (sort : SortKind)
    (visible matching : Option (List α)) :
    (g.compose sort visible matching).1.baseOrder.Topological g.history := by
  rw [baseOrder_compose]
  cases sort with
  | normal => exact hg.history.topological
  | bek => exact hg.rebaseOrder.1
  | linearBek => exact hg.rebaseOrder.1

/-- The rows of a view come from the history, however it is folded. -/
theorem Sound.rooted_foldedView (hg : g.Sound commits) (sort : SortKind)
    (visible matching : Option (List α)) (folds : List Bool) :
    (g.foldedView sort visible matching folds).rows.Rooted g.history := by
  obtain ⟨rebased, hgraph⟩ : ∃ rebased, (g.compose sort visible matching).2 = { g with rebased } :=
    exists_sorted_snd g sort
  have hrows : (g.foldedView sort visible matching folds).rows =
      (folds.foldl (fun s folded => s.setFolded folded)
        (g.compose sort visible matching).1).rows (g.compose sort visible matching).2.history := rfl
  rw [hrows, hgraph]
  refine Stack.rooted_rows hg.history _ ?_
  rw [Stack.baseOrder_foldl_setFolded]
  exact hg.topological_baseOrder sort visible matching

end Graph

end Lineage
