import Lineage.Folding
import Lineage.Proofs.Rows.Copies
import Lineage.Proofs.Stack.Hiding
import Lineage.Proofs.Straightening
import Lineage.Proofs.Translation

/-!
# Lineage.Proofs.Stack.Folding

A layer that is folded and unfolded in place shows at any time what its last
call asked for, drawn from the rows it is put on, whatever the calls before it
were.  That is also what a stack says of the layer, which knows only whether it
is folded.

* `Folding.UpToDate` — the rows that are shown are those of the present state.
* `Folding.UpToDate.foldl_setFolded` — any calls are the last one of them.
* `Folding.KeepsLast`, `Stack.folding_keepsLast` — a layer on any stack.
-/

namespace Lineage

namespace Folding

variable {f : Folding} {folded folded' : Bool}

/-- The rows that are shown are the ones to show in the present state. -/
def UpToDate (f : Folding) : Prop := f.rows = f.draw f.folded

theorem upToDate_above (inner : Rows) (isBranch : NodeId → Bool) (least : Nat) :
    (above inner isBranch least).UpToDate := rfl

/-- A layer that need not be drawn anew comes out as if it were. -/
theorem UpToDate.setFolded_eq (hf : f.UpToDate) (folded : Bool) :
    f.setFolded folded = { f with folded, rows := f.draw folded } := by
  unfold setFolded
  split
  · next heq =>
      subst heq
      rw [← hf]
  · rfl

@[simp] theorem folded_setFolded (f : Folding) (folded : Bool) :
    (f.setFolded folded).folded = folded := by
  unfold setFolded
  split
  · next heq => exact heq
  · rfl

theorem UpToDate.rows_setFolded (hf : f.UpToDate) (folded : Bool) :
    (f.setFolded folded).rows = f.draw folded := by
  rw [hf.setFolded_eq]

theorem UpToDate.setFolded (hf : f.UpToDate) (folded : Bool) : (f.setFolded folded).UpToDate := by
  rw [hf.setFolded_eq]
  cases folded <;> rfl

/-- A call undoes the one before it. -/
theorem UpToDate.setFolded_setFolded (hf : f.UpToDate) (folded folded' : Bool) :
    (f.setFolded folded).setFolded folded' = f.setFolded folded' := by
  rw [(hf.setFolded folded).setFolded_eq, hf.setFolded_eq folded, hf.setFolded_eq folded']
  cases folded' <;> rfl

/-- Of any calls the last one counts. -/
theorem UpToDate.foldl_setFolded (hf : f.UpToDate) (calls : List Bool) :
    calls.foldl Folding.setFolded f = f.setFolded (calls.getLast?.getD f.folded) := by
  induction calls generalizing f with
  | nil =>
      rw [hf.setFolded_eq]
      exact congrArg (fun rows => { f with rows }) hf
  | cons folded calls ih =>
      rw [List.foldl_cons, ih (hf.setFolded folded), hf.setFolded_setFolded, List.getLast?_cons,
        hf.setFolded_eq folded]
      rfl

/-- What calls leave of a layer: what the last one asked for, and nothing of
those before it. -/
structure KeepsLast (fresh : Folding) (calls : List Bool) (f : Folding) : Prop where
  folded_iff : f.folded = true ↔ calls.getLast? = some true
  rows_folded : f.folded = true → f.rows = (fresh.setFolded true).rows
  rows_unfolded : f.folded = false → f.rows = fresh.rows
  /-- Unfolded, the layer shows what is below it. -/
  copies : f.folded = false → f.rows.Copies fresh.inner

theorem keepsLast_above {inner : Rows} (hinner : inner.Consistent) (hone : inner.OneStroke)
    (isBranch : NodeId → Bool) (least : Nat) (calls : List Bool) :
    (above inner isBranch least).KeepsLast calls
      (calls.foldl Folding.setFolded (above inner isBranch least)) := by
  have hfresh := upToDate_above inner isBranch least
  rw [hfresh.foldl_setFolded]
  refine ⟨?_, fun hfolded => ?_, fun hfolded => ?_, fun hfolded => ?_⟩
  · rw [folded_setFolded]
    cases calls.getLast? <;> simp [above]
  · rw [folded_setFolded] at hfolded
    rw [hfolded]
  · rw [folded_setFolded] at hfolded
    rw [hfolded, hfresh.rows_setFolded]
    rfl
  · rw [folded_setFolded] at hfolded
    rw [hfolded, hfresh.rows_setFolded]
    exact Rows.copies_redrawn hinner hone

end Folding

namespace Stack

/-- A stack draws its topmost layer as it was left. -/
theorem rows_collapsible (h : History) (s : Stack) (isBranch : NodeId → Bool) (least : Nat)
    (folded : Bool) : (Stack.collapsible isBranch least folded s).rows h =
      ((Folding.above (s.rows h) isBranch least).setFolded folded).rows := by
  rw [(Folding.upToDate_above _ _ _).rows_setFolded]
  cases folded <;> rfl

variable {α : Type} [BEq α] [Hashable α] [EquivBEq α] [LawfulHashable α]
  {commits : List (Commit α)} {slots slots' : Placeholders α} {h : History}

/-- On any stack of layers over a history that loads, a layer that is folded and
unfolded any number of times is left as its last call says, as is the layer of
the stack; and unfolded it copies the stack. -/
theorem folding_keepsLast (hload : History.load commits slots = .ok (h, slots')) (s : Stack)
    (hbase : s.baseOrder = h.order ∨ ∃ compare timestamp,
      s.baseOrder = h.rebaseOrder (Lanes.ofHistory h compare) timestamp)
    (isBranch : NodeId → Bool) (least : Nat) (calls : List Bool) :
    let f := calls.foldl Folding.setFolded (Folding.above (s.rows h) isBranch least)
    (Folding.above (s.rows h) isBranch least).KeepsLast calls f ∧
      (Stack.collapsible isBranch least f.folded s).rows h = f.rows := by
  intro f
  have hlast : f = (Folding.above (s.rows h) isBranch least).setFolded (calls.getLast?.getD false) :=
    (Folding.upToDate_above _ _ _).foldl_setFolded calls
  refine ⟨Folding.keepsLast_above (consistent_of_load hload s hbase) (oneStroke_rows h s) isBranch
    least calls, ?_⟩
  rw [rows_collapsible, hlast, Folding.folded_setFolded]

/-- A merge that names a side twice, folded twice and then unfolded. -/
theorem folding_keepsLast_repeated : ∃ h slots',
    History.load Graph.repeatedCommits .empty = .ok (h, slots') ∧
    let f := [true, true, false].foldl Folding.setFolded
      (Folding.above ((Stack.base h.order).rows h) (· == .loaded 1) 1)
    (Folding.above ((Stack.base h.order).rows h) (· == .loaded 1) 1).KeepsLast
        [true, true, false] f ∧
      (Stack.collapsible (· == .loaded 1) 1 f.folded (.base h.order)).rows h = f.rows := by
  have hsome : (History.load Graph.repeatedCommits .empty).toOption.isSome = true := by cbv
  cases hload : History.load Graph.repeatedCommits .empty with
  | error fault => simp [hload, Except.toOption] at hsome
  | ok loaded =>
      exact ⟨loaded.1, loaded.2, rfl, folding_keepsLast hload (.base loaded.1.order) (Or.inl rfl)
        (· == .loaded 1) 1 [true, true, false]⟩

end Stack

end Lineage
