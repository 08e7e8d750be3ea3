/-!
# Lineage.Ready

What the two emissions of a history share: children go out before parents,
so each node counts the mentions by children that are still to come, and
becomes ready when the last of them is out.  Ready nodes wait in an agenda
that is kept sorted, the next one first.

* `mem_insertSorted` — inserting adds the value and nothing else.
-/

namespace Lineage

/-- A value put into a sorted agenda, behind those that go before it. -/
def insertSorted {β : Type} (before : β → β → Bool) (b : β) : List β → List β
  | [] => [b]
  | c :: cs => if before c b then c :: insertSorted before b cs else b :: c :: cs

theorem mem_insertSorted {β : Type} {before : β → β → Bool} {b x : β} {cs : List β} :
    x ∈ insertSorted before b cs ↔ x = b ∨ x ∈ cs := by
  induction cs with
  | nil => simp [insertSorted]
  | cons c cs ih =>
    by_cases h : before c b = true
    · simp [insertSorted, h, ih]; grind
    · simp [insertSorted, h]

/-- An agenda with several values more. -/
def insertAllSorted {β : Type} (before : β → β → Bool) (bs : List β) (agenda : List β) : List β :=
  bs.foldl (fun agenda b => insertSorted before b agenda) agenda

/-- Settles one mention of each node of a list: its count goes down by one.
Gives the counts that remain and the nodes whose last mention this was. -/
def settle (waiting : Array Nat) : List Nat → Array Nat × List Nat
  | [] => (waiting, [])
  | p :: ps =>
    match waiting.getD p 0 with
    | 0 => settle waiting ps
    | left + 1 =>
      let (remaining, freed) := settle (waiting.setIfInBounds p left) ps
      (remaining, if left = 0 then p :: freed else freed)

end Lineage
