import Lineage.History.Load

/-!
# Lineage.History.Store

A history in flat tables of words.  The parents of all nodes stand one after
the other in one table, the children in another, each beside a table of the
offsets at which the nodes begin.  Children come to their places by counting:
how many each node has, where each node begins, and then, child by child, the
next free place of every parent.

Node numbers are signed words and offsets unsigned ones, 32 bits either.  A
number that does not fit its word ends the construction, and so does an index
outside its table; neither is cut off.

* `Store.build` — the store of a commit list.
* `Store.history` — the history that it holds.
-/

namespace Lineage

/-- Why there is no store of a commit list. -/
inductive StoreFault (α : Type) where
  /-- There are more commits than node numbers. -/
  | tooMany (count : Nat)
  /-- The commit list is no history. -/
  | malformed (fault : LoadFault α)
  /-- A number does not fit its word. -/
  | overflow
  /-- An index lies outside its table. -/
  | outside
deriving DecidableEq, Repr

/-- The parents and children of the nodes of a history in flat tables. -/
structure Store where
  /-- Where the parents of each node begin, and where the last ones end. -/
  downOffsets : Array UInt32
  /-- The parents of all nodes, node by node. -/
  downTargets : Array Int32
  /-- Where the children of each node begin, and where the last ones end. -/
  upOffsets : Array UInt32
  /-- The children of all nodes, node by node. -/
  upSources : Array UInt32
  /-- The children of each placeholder. -/
  missingUp : Array (Array UInt32)
  order : RowOrder

namespace Store

variable {α : Type}

/-! ## words and tables -/

/-- The word of a natural number below `2 ^ 32`. -/
def word (n : Nat) : Except (StoreFault α) UInt32 :=
  if n < 4294967296 then .ok (.ofNat n) else .error .overflow

/-- The word of a node id, from `-2 ^ 31` on and below `2 ^ 31`. -/
def number (node : NodeId) : Except (StoreFault α) Int32 :=
  if -2147483648 ≤ node.toInt ∧ node.toInt < 2147483648 then .ok (.ofInt node.toInt)
  else .error .overflow

/-- The node id of a word. -/
def nodeOf (target : Int32) : NodeId := .ofInt target.toInt

/-- The entry of a table at an index. -/
def read {β : Type} (table : Array β) (i : Nat) : Except (StoreFault α) β :=
  match table[i]? with
  | some b => .ok b
  | none => .error .outside

/-- A table with another entry at an index. -/
def write {β : Type} (table : Array β) (i : Nat) (b : β) : Except (StoreFault α) (Array β) :=
  if i < table.size then .ok (table.setIfInBounds i b) else .error .outside

/-- A table of words with one more at an index. -/
def bump (counts : Array UInt32) (i : Nat) : Except (StoreFault α) (Array UInt32) := do
  let count ← read counts i
  let count ← word (count.toNat + 1)
  write counts i count

/-- The entries of a flat table that stand under an index. -/
def slice {β : Type} (offsets : Array UInt32) (table : Array β) (i : Nat) : List β :=
  (table.extract (offsets.getD i 0).toNat (offsets.getD (i + 1) 0).toNat).toList

/-! ## the parents -/

/-- What is known of a commit list after some of its commits. -/
structure Scan (α : Type) [BEq α] [Hashable α] where
  downOffsets : Array UInt32
  downTargets : Array Int32
  /-- How often each node is mentioned as a parent. -/
  upCounts : Array UInt32
  /-- How many mentions are of a parent that is listed before its child. -/
  early : Nat
  slots : Placeholders α

namespace Scan

variable [BEq α] [Hashable α]

/-- Nothing is known yet of a list of `count` commits. -/
def start (count : Nat) (slots : Placeholders α) : Scan α :=
  { downOffsets := #[0]
    downTargets := #[]
    upCounts := Array.replicate count 0
    early := 0
    slots }

/-- A table of words with one more at a loaded node. -/
def countUp (counts : Array UInt32) : NodeId → Except (StoreFault α) (Array UInt32)
  | .loaded node => bump counts node
  | _ => .ok counts

/-- Takes up one parent of the commit `id`, which stands at `child`. -/
def mention (index : Std.HashMap α Nat) (child : Nat) (id : α) (s : Scan α) (parent : α) :
    Except (StoreFault α) (Scan α) :=
  if parent == id then .error (.malformed (.ownParent id))
  else do
    let (node, slots) := History.resolve index s.slots parent
    let upCounts ← countUp s.upCounts node
    let target ← number node
    .ok { s with
      downTargets := s.downTargets.push target
      upCounts
      early := if node.loaded?.any (· < child) then s.early + 1 else s.early
      slots }

/-- Takes up a commit and the position at which it stands. -/
def commit (index : Std.HashMap α Nat) (s : Scan α) (line : Commit α × Nat) :
    Except (StoreFault α) (Scan α) := do
  let s ← line.1.parents.foldlM (mention index line.2 line.1.id) s
  let offset ← word s.downTargets.size
  .ok { s with downOffsets := s.downOffsets.push offset }

/-- All that is known of a commit list. -/
def ofCommits (commits : List (Commit α)) (slots : Placeholders α) :
    Except (StoreFault α) (Scan α) :=
  commits.zipIdx.foldlM (commit (History.indexOf commits)) (start commits.length slots)

/-- The loaded parents of a node. -/
def loadedTargets (s : Scan α) (node : Nat) : List Nat :=
  loadedNodes ((slice s.downOffsets s.downTargets node).map nodeOf)

/-- The order of the nodes.  The list itself is one unless a parent is listed
before a child of it; otherwise the nodes go out once their children are. -/
def order (s : Scan α) : Except (StoreFault α) RowOrder :=
  let count := s.upCounts.size
  if 0 < s.early then
    let waiting := s.upCounts.map UInt32.toNat
    let ready := (List.range count).filter fun n => waiting.getD n 0 = 0
    let nodes := History.emitLeast s.loadedTargets count ready waiting
    if nodes.length = count then .ok (.ofList nodes) else .error (.malformed .cycle)
  else .ok (.identity count)

end Scan

/-! ## the children -/

/-- Where each index begins if so many entries stand under each, and where the
last one ends. -/
def offsetsOf (counts : Array UInt32) : Except (StoreFault α) (Array UInt32) :=
  counts.toList.foldlM (fun offsets count => do
    let next ← word ((offsets.getD (offsets.size - 1) 0).toNat + count.toNat)
    .ok (offsets.push next)) #[0]

/-- The tables of children while they are filled. -/
structure Filling where
  /-- Where the next child of each node goes. -/
  fill : Array UInt32
  upSources : Array UInt32
  missingUp : Array (Array UInt32)

/-- Puts a child in place under one of its parents. -/
def Filling.put (f : Filling) (entry : Nat × Int32) : Except (StoreFault α) Filling := do
  let child ← word entry.1
  match nodeOf entry.2 with
  | .missing slot =>
    let children ← read f.missingUp slot
    let missingUp ← write f.missingUp slot (children.push child)
    .ok { f with missingUp }
  | .loaded parent =>
    let place ← read f.fill parent
    let upSources ← write f.upSources place.toNat child
    let fill ← bump f.fill parent
    .ok { f with fill, upSources }
  | .none => .error .outside

/-- Every child with each parent that it mentions. -/
def Scan.entries [BEq α] [Hashable α] (s : Scan α) : List (Nat × Int32) :=
  (List.range s.upCounts.size).flatMap fun child =>
    (slice s.downOffsets s.downTargets child).map (child, ·)

/-- The tables of children.  There is room for as many as there are mentions,
those of placeholders included. -/
def Scan.fill [BEq α] [Hashable α] (s : Scan α) (upOffsets : Array UInt32) :
    Except (StoreFault α) Filling :=
  s.entries.foldlM Filling.put
    { fill := upOffsets.extract 0 s.upCounts.size
      upSources := Array.replicate s.downTargets.size 0
      missingUp := Array.replicate s.slots.size #[] }

/-! ## the store of a commit list -/

/-- The store of tables that are filled.  The places that are left at the end
of the children are cut off. -/
def ofTables [BEq α] [Hashable α] (s : Scan α) (order : RowOrder) (upOffsets : Array UInt32)
    (f : Filling) : Store where
  downOffsets := s.downOffsets
  downTargets := s.downTargets
  upOffsets := upOffsets
  upSources := f.upSources.extract 0 (upOffsets.getD s.upCounts.size 0).toNat
  missingUp := f.missingUp
  order := order

/-- The store of a commit list, with the placeholders taken in it on top of
those in `slots`. -/
def build [BEq α] [Hashable α] (commits : List (Commit α)) (slots : Placeholders α) :
    Except (StoreFault α) (Store × Placeholders α) :=
  if 2147483647 < commits.length then .error (.tooMany commits.length)
  else
    match History.firstRepeated ∅ (commits.map (·.id)) with
    | some id => .error (.malformed (.repeated id))
    | none => do
      let s ← Scan.ofCommits commits slots
      let order ← s.order
      let upOffsets ← offsetsOf s.upCounts
      let f ← s.fill upOffsets
      .ok (ofTables s order upOffsets f, s.slots)

/-! ## queries -/

/-- Number of loaded nodes. -/
def nodeCount (t : Store) : Nat := t.downOffsets.size - 1

/-- Number of parent mentions, those of placeholders included. -/
def edgeCount (t : Store) : Nat := t.downTargets.size

/-- The parents of a node by their words, placeholders included. -/
def targets (t : Store) (node : Nat) : List Int32 := slice t.downOffsets t.downTargets node

/-- The loaded parents of a node.  A placeholder leads nowhere. -/
def downNodes (t : Store) (node : Nat) : List Nat := loadedNodes ((t.targets node).map nodeOf)

/-- Whether a word is the number of a loaded node. -/
def isLoaded (t : Store) (node : Int32) : Bool := 0 ≤ node.toInt && node.toInt < t.nodeCount

/-- The children of the node of a word, which may be a placeholder; others
have none. -/
def upNodes (t : Store) (node : Int32) : List Nat :=
  let sources :=
    if t.isLoaded node then slice t.upOffsets t.upSources node.toInt.toNat
    else
      match nodeOf node with
      | .missing slot => (t.missingUp.getD slot #[]).toList
      | _ => []
  sources.map UInt32.toNat

/-- The history that a store holds. -/
def history (t : Store) : History where
  parents := ((List.range t.nodeCount).map fun n => (t.targets n).map nodeOf).toArray
  children := ((List.range t.nodeCount).map fun n =>
    (slice t.upOffsets t.upSources n).map UInt32.toNat).toArray
  missingChildren := t.missingUp.map fun children => children.toList.map UInt32.toNat
  order := t.order

end Store

end Lineage
