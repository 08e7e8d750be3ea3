import Lineage.Rows.Drawing

/-!
# Lineage.Rows.Straighten

Straightening simple merges.  A bubble is a merge with two parents whose
second parent starts a plain chain of rows, and whose first parent starts a
plain path, down to one base row where both meet.  It is drawn as one line:
the chain moves directly under the merge, the edge from the merge to its
first parent is hidden, and the last row of the chain is linked by a dotted
edge to the first parent in place of the base.
-/

namespace Lineage

/-- A bubble. -/
structure Bubble where
  merge : Nat
  firstParent : Nat
  /-- The rows from the second parent down to the last one above the base. -/
  chain : List Nat
  /-- The rows from the first parent down to the last one above the base. -/
  path : List Nat
  base : Nat
deriving DecidableEq, Repr

namespace Bubble

/-- The rows that no other bubble may have. -/
def rows (b : Bubble) : List Nat := b.merge :: (b.chain ++ b.path)

end Bubble

namespace Rows

/-! ## bubbles -/

/-- The row below a row that has one edge down, if that edge is usual. -/
def onlyParent? (t : Rows) (row : Nat) : Option Nat :=
  match t.downOf row with
  | [.row below .usual] => some below
  | _ => none

/-- Whether a row may be inside a bubble: it is in none yet and has one edge
up. -/
def isInner (t : Rows) (used : Marks) (row : Nat) : Bool :=
  !used.has row && (t.upOf row).length == 1

/-- The chain from `row` down to the first row with several edges up, if it
has at most `most` rows.  Edges lead down the rows, so the search ends. -/
def chainFrom? (t : Rows) (used : Marks) (most : Nat) (row : Nat) : Option (List Nat × Nat) :=
  if t.isInner used row && 0 < most then
    match t.onlyParent? row with
    | none => none
    | some below =>
      if 2 ≤ (t.upOf below).length then some ([row], below)
      else if row < below ∧ below < t.size then
        (chainFrom? t used (most - 1) below).map fun (chain, base) => (row :: chain, base)
      else none
  else none
termination_by t.size - row

/-- The path from `row` down to `base`, which is not part of it, if it has at
most `most` rows. -/
def pathTo? (t : Rows) (used : Marks) (base most : Nat) (row : Nat) : Option (List Nat) :=
  if row = base then some []
  else if t.isInner used row && 0 < most then
    match t.onlyParent? row with
    | none => none
    | some below =>
      if row < below ∧ below < t.size then (pathTo? t used base (most - 1) below).map (row :: ·)
      else none
  else none
termination_by t.size - row

/-- The bubble of a merge row with both sides at most `most` rows long. -/
def bubbleAt? (t : Rows) (used : Marks) (most : Nat) (merge : Nat) : Option Bubble :=
  match t.downOf merge with
  | [.row first .usual, .row second .usual] =>
    if first = second then none
    else
      match t.chainFrom? used most second with
      | none => none
      | some (chain, base) =>
        if used.has base then none
        else
          (t.pathTo? used base most first).map fun path =>
            { merge, firstParent := first, chain, path, base }
  | _ => none

/-- The bubbles at the rows of a list, none of which shares a row with one
before it. -/
def bubblesAmong (t : Rows) (most : Nat) : Marks → List Nat → List Bubble
  | _, [] => []
  | used, row :: rows =>
    if used.has row then bubblesAmong t most used rows
    else
      match t.bubbleAt? used most row with
      | none => bubblesAmong t most used rows
      | some b => b :: bubblesAmong t most (used.markAll b.rows) rows

/-- The bubbles of a layer, from the top. -/
def bubbles (t : Rows) (most : Nat) : List Bubble :=
  t.bubblesAmong most (Marks.blank t.size) (List.range t.size)

/-! ## drawing bubbles as lines -/

/-- What becomes of the edges of the rows that a bubble changes. -/
structure Rewiring where
  /-- For a merge row, the row to which its edge is hidden. -/
  hidden : Array (List Nat)
  /-- For the last row of a chain, its base and the row that replaces it. -/
  redirected : Array (List (Nat × Nat))

/-- The rewiring for a list of bubbles in `size` rows.  A bubble whose first
parent is its base has no edge to redirect. -/
def Rewiring.ofBubbles (size : Nat) (bs : List Bubble) : Rewiring :=
  { hidden := gather size (bs.map fun b => (b.merge, b.firstParent))
    redirected := gather size <| bs.filterMap fun b =>
      if b.firstParent = b.base then none
      else b.chain.getLast?.map (·, b.base, b.firstParent) }

/-- An edge of a row after rewiring. -/
def Rewiring.apply (w : Rewiring) (row : Nat) : Down → Option Down
  | .missing s => some (.missing s)
  | .row below stroke =>
    if (w.hidden.getD row []).contains below then none
    else
      match (w.redirected.getD row []).find? (·.1 == below) with
      | some (_, firstParent) => some (.row firstParent .dotted)
      | none => some (.row below stroke)

/-- The rows in their order, except that the chain of each bubble stands
directly under its merge. -/
def lineOrder (size : Nat) (bs : List Bubble) : List Nat :=
  let moved := (Marks.blank size).markAll (bs.flatMap (·.chain))
  let chains := gather size (bs.flatMap fun b => b.chain.map (b.merge, ·))
  (List.range size).flatMap fun row =>
    if moved.has row then [] else row :: chains.getD row []

/-- The rows with the given bubbles drawn as lines. -/
def drawLines (t : Rows) (bs : List Bubble) : Rows :=
  let shown := lineOrder t.size bs
  let places := positions t.size shown
  let wiring := Rewiring.ofBubbles t.size bs
  (Drawing.ofTargets shown t.size <| shown.map fun row =>
    ((t.downOf row).filterMap (wiring.apply row)).filterMap (Down.moved places)).rowsOn t

/-- The rows with every bubble whose sides have at most `most` rows drawn as
a line. -/
def straightened (t : Rows) (most : Nat) : Rows :=
  match t.bubbles most with
  | [] => t.redrawn
  | bs => t.drawLines bs

end Rows

end Lineage
