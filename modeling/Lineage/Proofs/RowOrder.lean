import Lineage.History
import Lineage.Proofs.Ready

/-!
# Lineage.Proofs.RowOrder

Orders of the nodes of a history that show every node once and every child
above its parents.

* `Topological.perm_range` — such an order lists the nodes.
* `topological_ofList` — a ready order of all nodes is one.
-/

namespace Lineage

/-- An order that shows each node of a history in one row, children above
their loaded parents. -/
structure RowOrder.Topological (o : RowOrder) (h : History) : Prop where
  size_eq : o.size = h.size
  rowOf_lt : ∀ {n}, n < h.size → o.rowOf n < h.size
  nodeAt_lt : ∀ {r}, r < h.size → o.nodeAt r < h.size
  nodeAt_rowOf : ∀ {n}, n < h.size → o.nodeAt (o.rowOf n) = n
  rowOf_nodeAt : ∀ {r}, r < h.size → o.rowOf (o.nodeAt r) = r
  rowOf_lt_rowOf : ∀ {n p}, n < h.size → p ∈ h.loadedParents n → o.rowOf n < o.rowOf p

namespace RowOrder

/-- Such an order shows every node once. -/
theorem Topological.perm_range {o : RowOrder} {h : History} (ho : o.Topological h) :
    o.nodes.toList.Perm (List.range h.size) := by
  have hnodes : o.nodes.toList = (List.range h.size).map o.nodeAt := by
    refine List.ext_getElem? fun r => ?_
    have hsize := ho.size_eq
    rw [size] at hsize
    by_cases hr : r < h.size
    · simp [nodeAt, Array.getD_eq_getD_getElem?, hsize, hr]
    · simp [hsize, hr]
  have hinj : ∀ r ∈ List.range h.size, ∀ s ∈ List.range h.size, o.nodeAt r = o.nodeAt s → r = s := by
    intro r hr s hs heq
    rw [← ho.rowOf_nodeAt (List.mem_range.mp hr), heq, ho.rowOf_nodeAt (List.mem_range.mp hs)]
  rw [hnodes]
  refine (List.perm_ext_iff_of_nodup (List.Nodup.map_on hinj List.nodup_range)
    List.nodup_range).mpr fun n => ?_
  simp only [List.mem_map, List.mem_range]
  constructor
  · rintro ⟨r, hr, rfl⟩
    exact ho.nodeAt_lt hr
  · exact fun hn => ⟨o.rowOf n, ho.rowOf_lt hn, ho.nodeAt_rowOf hn⟩

/-! ## orders from lists -/

theorem nodeAt_ofList {nodes : List Nat} {r : Nat} (hr : r < nodes.length) :
    nodes[r]? = some ((ofList nodes).nodeAt r) := by
  simp [ofList, nodeAt, Array.getD_eq_getD_getElem?, hr]

/-- The row of a node is its place in the list. -/
theorem getElem?_rowOf_ofList {nodes : List Nat} (hnodup : nodes.Nodup)
    (hlt : ∀ n ∈ nodes, n < nodes.length) {n : Nat} (hn : n ∈ nodes) :
    nodes[(ofList nodes).rowOf n]? = some n := by
  have hpos := positions_getD hnodup (hlt n hn)
  rw [if_pos hn] at hpos
  have hrow : (ofList nodes).rowOf n = nodes.idxOf n := by
    simp only [ofList, rowOf, hpos, Option.getD_some]
  rw [hrow]
  exact List.getElem?_idxOf hn

/-- A list of all nodes in which children stand before their parents, as an
order of rows. -/
theorem topological_ofList {h : History} {nodes : List Nat} (hnodup : nodes.Nodup)
    (hmem : ∀ n, n ∈ nodes ↔ n < h.size) (hlen : nodes.length = h.size)
    (hbefore : ∀ {n p}, n < h.size → p ∈ h.loadedParents n → [n, p].Sublist nodes) :
    (ofList nodes).Topological h := by
  have hlt : ∀ n ∈ nodes, n < nodes.length := fun n hn => hlen ▸ (hmem n).mp hn
  have hrow : ∀ {n}, n < h.size → nodes[(ofList nodes).rowOf n]? = some n := fun hn =>
    getElem?_rowOf_ofList hnodup hlt ((hmem _).mpr hn)
  have hnode : ∀ {r}, r < h.size → nodes[r]? = some ((ofList nodes).nodeAt r) := fun hr =>
    nodeAt_ofList (hlen ▸ hr)
  have hrowlt : ∀ {n}, n < h.size → (ofList nodes).rowOf n < h.size := fun hn =>
    hlen ▸ (List.getElem?_eq_some_iff.mp (hrow hn)).1
  have hnodelt : ∀ {r}, r < h.size → (ofList nodes).nodeAt r < h.size := fun hr =>
    (hmem _).mp (List.mem_of_getElem? (hnode hr))
  exact
    { size_eq := by simp [hlen]
      rowOf_lt := hrowlt
      nodeAt_lt := hnodelt
      nodeAt_rowOf := fun hn => by
        have hget := hnode (hrowlt hn)
        rw [hrow hn] at hget
        exact (Option.some.inj hget).symm
      rowOf_nodeAt := fun hr => by
        have hget := hrow (hnodelt hr)
        rw [← hnode hr] at hget
        exact (List.getElem?_inj (hlen ▸ hrowlt (hnodelt hr)) hnodup).mp hget
      rowOf_lt_rowOf := fun hn hp => by
        have hpair := hbefore hn hp
        have hp := (hmem _).mp (hpair.subset (List.mem_cons_of_mem _ List.mem_cons_self))
        exact lt_of_pair_sublist hnodup hpair (hrow hn) (hrow hp) }

/-- A ready order of all nodes, as an order of rows. -/
theorem topological_of_readyOrder {h : History} {children : Nat → List Nat} {nodes : List Nat}
    (hl : Linked h.size h.loadedParents children) (hready : ReadyOrder h.size children [] nodes)
    (hlen : nodes.length = h.size) : (ofList nodes).Topological h := by
  have hmem : ∀ n, n ∈ nodes ↔ n < h.size := fun n => hready.mem_iff hlen
  refine topological_ofList hready.nodup hmem hlen fun {n p} hn hp => ?_
  exact hready.child_before ((hmem p).mpr (hl.parent_lt hp)) (hl.mem_children.mpr hp) (by simp)

end RowOrder

end Lineage
