import Lineage.Proofs.Renumbering
import Lineage.Proofs.Strands
import Lineage.Rebase.Interleave
import Lineage.Ancestry

/-!
# Lineage.Proofs.LoadedEdges

What is computed from the edges between loaded nodes alone.  Lanes, strands, the
rebase order and the walks from loaded nodes never look at a parent that is not
loaded, so histories with the same such edges have them in common.

* `SameEdges` — histories with the same edges between loaded nodes, with one
  lemma for each computation.
* `SameLayout`, `SameEdges.sameLayout` — what they have in common.
-/

namespace Lineage

namespace History

/-- Whatever is reached from a loaded node is loaded. -/
theorem exists_loaded_of_mem_reached {n : Nat} {x : NodeId} {reached : List Nat}
    (hx : x ∈ NodeId.loaded n :: (reached.map NodeId.loaded).filter (· ≠ .loaded n)) :
    ∃ m, x = .loaded m := by
  rw [List.mem_cons, List.mem_filter, List.mem_map] at hx
  cases hx with
  | inl heq => exact ⟨n, heq⟩
  | inr hreached =>
      obtain ⟨m, _, hm⟩ := hreached.1
      exact ⟨m, hm.symm⟩

/-- Histories with the same loaded nodes and the same edges between them. -/
structure SameEdges (h h' : History) : Prop where
  size_eq : h'.size = h.size
  parents_eq : ∀ n, h'.loadedParents n = h.loadedParents n
  children_eq : ∀ n, h'.childrenOf (.loaded n) = h.childrenOf (.loaded n)

/-- Histories that are drawn alike, however heads are ranked and nodes are dated,
and that are walked alike from loaded nodes. -/
structure SameLayout (h h' : History) : Prop where
  order : h'.order = h.order
  lanes : ∀ compare, Lanes.ofHistory h' compare = Lanes.ofHistory h compare
  strands : ∀ lanes, Strands.ofHistory h' lanes = Strands.ofHistory h lanes
  rebaseOrder : ∀ lanes timestamp, h'.rebaseOrder lanes timestamp = h.rebaseOrder lanes timestamp
  walk : ∀ starts, (∀ x ∈ starts, h.isLoaded x = true) →
    ∀ direction, h'.walk starts direction = h.walk starts direction

namespace SameEdges

variable {h h' : History} (hs : SameEdges h h')
include hs

/-! ## lanes -/

theorem headsOf : Lanes.headsOf h' = Lanes.headsOf h := by
  unfold Lanes.headsOf
  simp only [hs.size_eq, hs.children_eq]

theorem descend (p : Painting) (stack : List Nat) (arrived : Bool) :
    p.descend h' stack arrived = p.descend h stack arrived := by
  fun_induction Painting.descend h p stack arrived with
  | case1 p arrived => rw [Painting.descend]
  | case2 p arrived node rest parent hfound ih =>
      rw [← hs.parents_eq] at hfound
      rw [Painting.descend_push hfound, ih]
  | case3 p arrived node rest hnone ih =>
      rw [← hs.parents_eq] at hnone
      rw [Painting.descend_pop hnone, ih]

theorem paintAll (p : Painting) (heads : List Nat) : p.paintAll h' heads = p.paintAll h heads := by
  induction heads generalizing p with
  | nil => rfl
  | cons head heads ih => simp only [Painting.paintAll, Painting.paint, hs.descend, ih]

theorem lanes_ofHistory (compare : Nat → Nat → Ordering) :
    Lanes.ofHistory h' compare = Lanes.ofHistory h compare := by
  unfold Lanes.ofHistory
  rw [hs.headsOf, hs.size_eq]
  simp only [hs.paintAll]

/-! ## strands -/

theorem strandParent? (lane : Nat → Nat) (taken : Marks) (node : Nat) :
    h'.strandParent? lane taken node = h.strandParent? lane taken node := by
  unfold History.strandParent?
  simp only [hs.parents_eq, hs.children_eq]

theorem grow (lane : Nat → Nat) (taken : Marks) (node : Nat) :
    h'.grow lane taken node = h.grow lane taken node := by
  fun_induction History.grow h lane taken node with
  | case1 taken node hnone =>
      rw [← hs.strandParent?] at hnone
      exact grow_none hnone
  | case2 taken node parent hsome rest taken' hgrow ih =>
      rw [← hs.strandParent?] at hsome
      rw [grow_some hsome, ih, hgrow]

theorem growAll (lane : Nat → Nat) (taken : Marks) (nodes : List Nat) :
    h'.growAll lane taken nodes = h.growAll lane taken nodes := by
  induction nodes generalizing taken with
  | nil => rfl
  | cons node nodes ih => simp only [History.growAll, hs.grow, ih]

theorem strands_ofHistory (lanes : Lanes) :
    Strands.ofHistory h' lanes = Strands.ofHistory h lanes := by
  unfold Strands.ofHistory Strands.byLane
  simp only [hs.size_eq, hs.growAll]

/-! ## the rebase order -/

theorem emit (rank : Nat → Rank) (m : Merge) (node : Nat) (agenda : List Rank) :
    m.emit h' rank node agenda = m.emit h rank node agenda := by
  unfold Merge.emit
  rw [hs.parents_eq]

theorem run (s : Strands) (rank : Nat → Rank) (rounds : Nat) (m : Merge) :
    Merge.run h' s rank rounds m = Merge.run h s rank rounds m := by
  induction rounds generalizing m with
  | zero => rfl
  | succ rounds ih => simp only [Merge.run, hs.emit, ih]

theorem start (rank : Nat → Rank) : Merge.start h' rank = Merge.start h rank := by
  unfold Merge.start
  simp only [hs.size_eq, hs.children_eq]

theorem rebaseOrder (lanes : Lanes) (timestamp : Nat → Int) :
    h'.rebaseOrder lanes timestamp = h.rebaseOrder lanes timestamp := by
  unfold History.rebaseOrder History.interleave
  simp only [hs.strands_ofHistory, hs.start, hs.run, hs.size_eq]

/-! ## walks -/

theorem next (direction : Direction) : h'.next direction = h.next direction := by
  funext n
  cases direction with
  | down => exact hs.parents_eq n
  | up => exact hs.children_eq n

theorem isLoaded (x : NodeId) : h'.isLoaded x = h.isLoaded x := by
  cases x with
  | loaded n => simp only [History.isLoaded, hs.size_eq]
  | missing s => rfl
  | none => rfl

/-- A walk from loaded nodes.  One from a placeholder starts at its children,
which need not be the same. -/
theorem walk {starts : List NodeId} (hstarts : ∀ x ∈ starts, h.isLoaded x = true)
    (direction : Direction) : h'.walk starts direction = h.walk starts direction := by
  have hlevel : starts.flatMap (h'.startsOf direction) = starts.flatMap (h.startsOf direction) := by
    refine List.flatMap_congr fun x hx => ?_
    have hloaded := hstarts x hx
    unfold startsOf
    rw [hs.isLoaded, if_pos hloaded, if_pos hloaded]
  unfold History.walk
  rw [hlevel, hs.size_eq, hs.next]

/-- The heads that contain a loaded node, where the same loaded nodes are
heads. -/
theorem containing {n : Nat} (hn : n < h.size) {isHead isHead' : NodeId → Bool}
    (hheads : ∀ m, isHead' (.loaded m) = isHead (.loaded m)) :
    h'.containing (.loaded n) isHead' = h.containing (.loaded n) isHead := by
  have hstart : ∀ x ∈ [NodeId.loaded n], h.isLoaded x = true := by
    simpa [History.isLoaded] using hn
  unfold History.containing
  rw [hs.walk hstart]
  refine List.filter_congr fun x hx => ?_
  obtain ⟨m, rfl⟩ := exists_loaded_of_mem_reached hx
  exact hheads m

/-- Parents that are not loaded do not show in a layout. -/
theorem sameLayout (horder : h'.order = h.order) : SameLayout h h' where
  order := horder
  lanes := hs.lanes_ofHistory
  strands := hs.strands_ofHistory
  rebaseOrder := hs.rebaseOrder
  walk _ := hs.walk

end SameEdges

end History

end Lineage
