/-!
# Lineage.Node

The numbers a history gives to its commits.  A loaded commit has its position
in the commit list; a commit that is only mentioned has a placeholder slot.
Both kinds share one numbering by integers: positions from `0` up, slots from
`-2` down, and `-1` for no commit at all.

* `NodeId.ofInt_toInt`, `NodeId.toInt_ofInt` — the numbering is a bijection.
-/

namespace Lineage

/-- The identity of a node inside a history. -/
inductive NodeId where
  /-- The loaded commit at a position of the commit list. -/
  | loaded (node : Nat)
  /-- No commit. -/
  | none
  /-- A commit that is mentioned but not loaded, by its placeholder slot. -/
  | missing (slot : Nat)
deriving DecidableEq, Hashable, Repr, Inhabited

namespace NodeId

/-- The integer of a node id. -/
def toInt : NodeId → Int
  | .loaded n => n
  | .none => -1
  | .missing s => -2 - s

/-- The node id of an integer. -/
def ofInt : Int → NodeId
  | .ofNat n => .loaded n
  | .negSucc 0 => .none
  | .negSucc (s + 1) => .missing s

@[simp] theorem ofInt_toInt (n : NodeId) : ofInt n.toInt = n := by
  cases n with
  | loaded n => rfl
  | none => rfl
  | missing s =>
    have : (-2 - (s : Int)) = Int.negSucc (s + 1) := by omega
    simp [toInt, this, ofInt]

@[simp] theorem toInt_ofInt (i : Int) : (ofInt i).toInt = i := by
  match i with
  | .ofNat n => rfl
  | .negSucc 0 => rfl
  | .negSucc (s + 1) => simp only [ofInt, toInt]; omega

/-- Whether a node id is a placeholder. -/
def isMissing : NodeId → Bool
  | .missing _ => true
  | _ => false

/-- The position of a loaded node. -/
def loaded? : NodeId → Option Nat
  | .loaded n => some n
  | _ => Option.none

/-- Placeholders are exactly the integers from `-2` down. -/
theorem isMissing_ofInt (i : Int) : (ofInt i).isMissing = true ↔ i ≤ -2 := by
  match i with
  | .ofNat n => simp [ofInt, isMissing]; omega
  | .negSucc 0 => simp [ofInt, isMissing]
  | .negSucc (s + 1) => simp [ofInt, isMissing]; omega

end NodeId

/-- The positions of the loaded nodes of a list, in order. -/
def loadedNodes (ids : List NodeId) : List Nat := ids.filterMap NodeId.loaded?

end Lineage
