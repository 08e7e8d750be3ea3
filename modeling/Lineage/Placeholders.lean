import Std.Data.HashMap
import Lineage.Node

/-!
# Lineage.Placeholders

Slots for commits that are mentioned but not loaded.  The first distinct
commit gets slot `0`, the next slot `1`, and so on; a commit asked for again
keeps its slot.
-/

namespace Lineage

/-- The placeholder slots handed out so far. -/
structure Placeholders (α : Type) [BEq α] [Hashable α] where
  /-- The commits in slot order. -/
  commits : Array α
  slots : Std.HashMap α Nat

namespace Placeholders

variable {α : Type} [BEq α] [Hashable α]

/-- No slot is taken. -/
def empty : Placeholders α := ⟨#[], ∅⟩

/-- Number of slots taken. -/
def size (p : Placeholders α) : Nat := p.commits.size

/-- The slot of `commit`, taken now if it has none yet. -/
def slotFor (p : Placeholders α) (commit : α) : Nat × Placeholders α :=
  match p.slots[commit]? with
  | some slot => (slot, p)
  | none => (p.size, ⟨p.commits.push commit, p.slots.insert commit p.size⟩)

/-- The placeholders after asking for each commit of a list. -/
def reserve (p : Placeholders α) (commits : List α) : Placeholders α :=
  commits.foldl (fun q commit => (q.slotFor commit).2) p

end Placeholders

end Lineage
