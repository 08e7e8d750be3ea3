import Lineage.Proofs.Rows.Exact
import Lineage.Proofs.Rows.Straighten
import Lineage.Stack

/-!
# Lineage.Proofs.Stack.Choices

What a stack of layers reads of its choices and of its history.  Rows show
loaded nodes, so a layer asks about loaded nodes only; and no layer makes up a
placeholder, so those that edges end at are parents in the history.

* `Stack.Alike` — stacks that choose the same loaded nodes;
  `Stack.Alike.rows_eq` — they have the same rows.
* `Stack.exists_parent_of_missing` — the placeholders that edges end at.
-/

namespace Lineage

namespace Rows

variable {t inner : Rows} {keep keep' : NodeId → Bool} {shown : List Nat}
  {targets : Nat → List Down} {m : Nat}

/-! ## choices -/

/-- A row is kept for the loaded node it shows. -/
theorem keeps_eq (hkeep : ∀ n, keep' (.loaded n) = keep (.loaded n)) : t.keeps keep' = t.keeps keep := by
  funext row
  simp only [keeps, hkeep]

theorem commitsOnly_eq (hkeep : ∀ n, keep' (.loaded n) = keep (.loaded n)) :
    t.commitsOnly keep' = t.commitsOnly keep := by
  unfold commitsOnly
  rw [keeps_eq hkeep]

theorem historyOnly_eq (hkeep : ∀ n, keep' (.loaded n) = keep (.loaded n)) :
    t.historyOnly keep' = t.historyOnly keep := by
  unfold historyOnly
  rw [keeps_eq hkeep]

theorem collapsed_eq (hkeep : ∀ n, keep' (.loaded n) = keep (.loaded n)) (least : Nat) :
    t.collapsed keep' least = t.collapsed keep least := by
  have hplain : t.isPlain keep' = t.isPlain keep := by
    funext row
    unfold isPlain
    rw [keeps_eq hkeep]
  unfold collapsed
  rw [hplain]

/-! ## placeholders -/

/-- A placeholder at the end of a drawn edge is one of the targets. -/
theorem exists_target_of_missing {i : Nat} (hm : .missing m ∈ (inner.drawn shown targets).downOf i) :
    ∃ r, .missing m ∈ targets r := by
  obtain ⟨r, hr⟩ := exists_shown_of_mem_downOf hm
  exact ⟨r, (mem_missing_downOf_drawn hr).mp hm⟩

theorem exists_of_missing_projected {visible : Nat → Bool} {bridges : Nat → List Nat} {i : Nat}
    (hm : .missing m ∈ (t.projected visible bridges).downOf i) : ∃ r, .missing m ∈ t.downOf r := by
  rw [projected_eq_drawn] at hm
  obtain ⟨r, hr⟩ := exists_target_of_missing hm
  exact ⟨r, mem_missing_targetsOf.mp hr⟩

theorem exists_of_missing_straightened {most i : Nat}
    (hm : .missing m ∈ (t.straightened most).downOf i) : ∃ r, .missing m ∈ t.downOf r := by
  rw [straightened] at hm
  split at hm
  · exact exists_of_missing_projected hm
  · rw [drawLines_eq_drawn] at hm
    obtain ⟨r, hr⟩ := exists_target_of_missing hm
    exact ⟨r, mem_missing_lineTargets.mp hr⟩

end Rows

namespace Stack

/-! ## stacks -/

/-- Stacks of the same layers that choose the same loaded nodes. -/
inductive Alike : Stack → Stack → Prop where
  | base (order : RowOrder) : Alike (.base order) (.base order)
  | straightened (most : Nat) {s s' : Stack} : Alike s s' →
      Alike (.straightened most s) (.straightened most s')
  | commitsOnly {keep keep' : NodeId → Bool} {s s' : Stack} :
      (∀ n, keep' (.loaded n) = keep (.loaded n)) → Alike s s' →
      Alike (.commitsOnly keep s) (.commitsOnly keep' s')
  | historyOnly {keep keep' : NodeId → Bool} {s s' : Stack} :
      (∀ n, keep' (.loaded n) = keep (.loaded n)) → Alike s s' →
      Alike (.historyOnly keep s) (.historyOnly keep' s')
  | collapsible {isBranch isBranch' : NodeId → Bool} (least : Nat) (folded : Bool)
      {s s' : Stack} : (∀ n, isBranch' (.loaded n) = isBranch (.loaded n)) → Alike s s' →
      Alike (.collapsible isBranch least folded s) (.collapsible isBranch' least folded s')

namespace Alike

variable {s s' : Stack}

theorem refl (s : Stack) : Alike s s := by
  induction s with
  | base order => exact .base order
  | straightened most s ih => exact .straightened most ih
  | commitsOnly keep s ih => exact .commitsOnly (fun _ => rfl) ih
  | historyOnly keep s ih => exact .historyOnly (fun _ => rfl) ih
  | collapsible isBranch least folded s ih => exact .collapsible least folded (fun _ => rfl) ih

theorem setFolded (hs : Alike s s') (folded : Bool) :
    Alike (s.setFolded folded) (s'.setFolded folded) := by
  cases hs with
  | collapsible least _ hbranch hs => exact .collapsible least folded hbranch hs
  | base order => exact .base order
  | straightened most hs => exact .straightened most hs
  | commitsOnly hkeep hs => exact .commitsOnly hkeep hs
  | historyOnly hkeep hs => exact .historyOnly hkeep hs

/-- Stacks stay alike while they are folded and unfolded. -/
theorem foldl_setFolded (hs : Alike s s') (folds : List Bool) :
    Alike (folds.foldl (fun s folded => s.setFolded folded) s)
      (folds.foldl (fun s folded => s.setFolded folded) s') := by
  induction folds generalizing s s' with
  | nil => exact hs
  | cons folded folds ih => exact ih (hs.setFolded folded)

theorem names_eq (hs : Alike s s') : s'.names = s.names := by
  induction hs with
  | base order => rfl
  | straightened most _ ih => simp only [names, name, ih]
  | commitsOnly _ _ ih => simp only [names, name, ih]
  | historyOnly _ _ ih => simp only [names, name, ih]
  | collapsible least folded _ _ ih => simp only [names, name, ih]

theorem folded?_eq (hs : Alike s s') : s'.folded? = s.folded? := by
  cases hs <;> rfl

/-- Stacks that are alike have the same rows. -/
theorem rows_eq (hs : Alike s s') (h : History) : s'.rows h = s.rows h := by
  induction hs with
  | base order => rfl
  | straightened most _ ih => rw [rows, rows, ih]
  | commitsOnly hkeep _ ih => rw [rows, rows, ih, Rows.commitsOnly_eq hkeep]
  | historyOnly hkeep _ ih => rw [rows, rows, ih, Rows.historyOnly_eq hkeep]
  | collapsible least folded hbranch _ ih =>
      cases folded with
      | true => rw [rows, rows, ih, Rows.collapsed_eq hbranch]
      | false => rw [rows, rows, ih]

end Alike

/-- A placeholder at the end of an edge is a parent in the history, whatever
the layers. -/
theorem exists_parent_of_missing {h : History} {s : Stack} {i m : Nat}
    (hm : .missing m ∈ (s.rows h).downOf i) : ∃ n, .missing m ∈ h.parentsOf n := by
  induction s generalizing i with
  | base order =>
      rw [rows, Rows.downOf_ofHistory] at hm
      split at hm
      · exact ⟨order.nodeAt i, Rows.missing_mem_filterMap_downTo.mp hm⟩
      · contradiction
  | straightened most s ih =>
      obtain ⟨r, hr⟩ := Rows.exists_of_missing_straightened hm
      exact ih hr
  | commitsOnly keep s ih =>
      obtain ⟨r, hr⟩ := Rows.exists_of_missing_projected hm
      exact ih hr
  | historyOnly keep s ih =>
      obtain ⟨r, hr⟩ := Rows.exists_of_missing_projected hm
      exact ih hr
  | collapsible isBranch least folded s ih =>
      cases folded with
      | true =>
          obtain ⟨r, hr⟩ := Rows.exists_of_missing_projected hm
          exact ih hr
      | false =>
          obtain ⟨r, hr⟩ := Rows.exists_of_missing_projected hm
          exact ih hr

end Stack

end Lineage
