import Lineage.CommitList
import Lineage.Proofs.Text

/-!
# Lineage.Proofs.CommitList

Commit lists that are put together.  Where a text ends its last line, another
one after it is read on its own, only that its lines have later numbers; and
whatever is wrong in the first text is found before the second one is looked
at.

* `CommitList.readLines_append` — one list of lines after another.
* `CommitList.read_append` — one text after another.
-/

namespace Lineage

namespace CommitList

/-- The fault with as many lines in front of its text. -/
def Fault.after (lines : Nat) (f : Fault) : Fault := { f with line := f.line + lines }

/-- Only the numbers of faults depend on where lines are counted from. -/
theorem readLines_add (number count : Nat) (lines : List (List Char)) :
    readLines (number + count) lines = (readLines number lines).mapError (Fault.after count) := by
  induction lines generalizing number with
  | nil => rfl
  | cons line lines ih =>
      have hrest := ih (number + 1)
      rw [Nat.add_right_comm] at hrest
      rw [readLines, readLines, hrest]
      cases readLine line with
      | error fault => rfl
      | ok commit =>
          cases readLines (number + 1) lines <;> rfl

/-- Lines are read from the first one on, up to the first fault. -/
theorem readLines_append (number : Nat) (before after : List (List Char)) :
    readLines number (before ++ after) = do
      let commits ← readLines number before
      let rest ← readLines (number + before.length) after
      return commits ++ rest := by
  induction before generalizing number with
  | nil =>
      rw [List.nil_append, List.length_nil, Nat.add_zero]
      cases readLines number after <;> rfl
  | cons line before ih =>
      rw [List.cons_append, readLines, readLines, ih, List.length_cons, Nat.add_right_comm,
        Nat.add_assoc]
      cases readLine line with
      | error fault => rfl
      | ok commit =>
          cases readLines (number + 1) before with
          | error fault => rfl
          | ok commits =>
              cases readLines (number + (before.length + 1)) after with
              | error fault => rfl
              | ok rest => exact congrArg Except.ok (List.append_assoc _ _ _).symm

/-- A text that is empty or ends its last line, and any text after it: a fault of
the first one is the fault of both; else one of the second one is, as many lines
further down as the first one has line feeds; else the commits of both follow
each other. -/
theorem read_append {a : String} (ha : Text.Ended a.toList) (b : String) :
    read (a ++ b) = do
      let commits ← read a
      let rest ← (read b).mapError (Fault.after (a.toList.count '\n'))
      return commits ++ rest := by
  rw [read, String.toList_append, Text.lines_append ha, readLines_append, Text.length_lines ha,
    readLines_add]
  rfl

/-- Comments and blank lines count, and the line that is wrong is the fourth. -/
theorem read_append_comment :
    Text.Ended "# heads\r\n\nD 4 B\n".toList ∧
    read ("# heads\r\n\nD 4 B\n" ++ "B soon A") = do
      let commits ← read "# heads\r\n\nD 4 B\n"
      let rest ← (read "B soon A").mapError
        (Fault.after ("# heads\r\n\nD 4 B\n".toList.count '\n'))
      return commits ++ rest :=
  have hended : Text.Ended "# heads\r\n\nD 4 B\n".toList := by
    intro c hc
    exact (Option.some.inj (Option.mem_def.mp hc)).symm
  ⟨hended, read_append hended "B soon A"⟩

example : read ("# heads\r\n\nD 4 B\n" ++ "B soon A") = .error ⟨4, .badTimestamp "soon"⟩ := by
  rfl

end CommitList

end Lineage
