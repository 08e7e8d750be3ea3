import Lineage.Proofs.ChildrenFirst

/-!
# Lineage.Proofs.LeastOrder

The order of a history among all orders of its nodes that put children first.
Orders are compared place by place, so the least one keeps to the commit list
as far as it can.

* `History.Arrangement` — the orders that put children first.
* `History.StableOrder` — what is said of the order of a history.
* `History.stableOrder_of_load` — every history that loads has such an order.
-/

namespace Lineage

namespace History

/-- A sequence of all nodes of a history, each once, in which every child
stands before its loaded parents. -/
structure Arrangement (h : History) (nodes : List Nat) : Prop where
  perm : nodes.Perm (List.range h.size)
  child_before : ∀ {c p}, p ∈ h.loadedParents c → [c, p].Sublist nodes

/-- The order of a history is the least of its arrangements, place by place, and
its rows invert it.  Taking the least ready node each time yields it, and so
does the commit list as it stands where no parent is listed before a child. -/
structure StableOrder (h : History) : Prop where
  least : IsLeast {nodes | h.Arrangement nodes} ((List.range h.size).map h.order.nodeAt)
  nodeAt_rowOf : ∀ {n}, n < h.size →
    h.order.rowOf n < h.size ∧ h.order.nodeAt (h.order.rowOf n) = n
  rowOf_nodeAt : ∀ {r}, r < h.size →
    h.order.nodeAt r < h.size ∧ h.order.rowOf (h.order.nodeAt r) = r
  emitted : (List.range h.size).map h.order.nodeAt = childrenFirst h.parents h.children
  listed : (∀ c, ∀ p ∈ h.loadedParents c, c ≤ p) → ∀ {r}, r < h.size → h.order.nodeAt r = r

variable {h : History} {nodes : List Nat}

/-- In an arrangement every node is ready when its turn comes. -/
theorem Arrangement.readyOrder (hl : Linked h.size h.loadedParents h.loadedChildren)
    (ha : h.Arrangement nodes) : ReadyOrder h.size h.loadedChildren [] nodes := by
  have hnodup : nodes.Nodup := ha.perm.nodup_iff.mpr List.nodup_range
  have hmem : ∀ n ∈ nodes, n < h.size ∧ n ∉ [] := by
    simp [ha.perm.mem_iff]
  exact .of_sublist hnodup hmem fun p _ c hc => Or.inr (ha.child_before (hl.mem_children.mp hc))

/-- A ready order of all nodes is an arrangement. -/
theorem arrangement_of_readyOrder (hl : Linked h.size h.loadedParents h.loadedChildren)
    (hready : ReadyOrder h.size h.loadedChildren [] nodes) (hlen : nodes.length = h.size) :
    h.Arrangement nodes := by
  have hmem : ∀ n, n ∈ nodes ↔ n ∈ List.range h.size := by
    simp [hready.mem_iff hlen]
  refine ⟨(List.perm_ext_iff_of_nodup hready.nodup List.nodup_range).mpr hmem, ?_⟩
  intro c p hp
  have hpn : p ∈ nodes := (hready.mem_iff hlen).mpr (hl.parent_lt hp)
  exact hready.child_before hpn (hl.mem_children.mpr hp) List.not_mem_nil

/-- The nodes of an order from top to bottom. -/
theorem map_nodeAt_ofList (nodes : List Nat) :
    (List.range nodes.length).map (RowOrder.ofList nodes).nodeAt = nodes := by
  refine List.ext_getElem (by simp) fun r hr hr' => ?_
  have hnode := RowOrder.nodeAt_ofList hr'
  rw [List.getElem?_eq_getElem hr'] at hnode
  simpa using (Option.some.inj hnode).symm

variable {α : Type} [BEq α] [Hashable α] [EquivBEq α] [LawfulHashable α]
  {commits : List (Commit α)} {slots slots' : Placeholders α}

/-- The order of every history that loads is stable.  It is that of an emission
which takes the least ready node each time, also where it was not found in this
way. -/
theorem stableOrder_of_load (hload : load commits slots = .ok (h, slots')) : h.StableOrder := by
  have hs := sound_of_load hload
  have ho := hs.topological
  have hown : ∀ {n p}, p ∈ h.loadedParents n → n ≠ p := ne_of_mem_loadedParents hload
  obtain ⟨_, _, _, _, _, _, hfound⟩ := eq_of_load hload
  obtain ⟨nodes, horder, hlen, hleast⟩ := exists_least_of_orderOf? hs.linked hown hfound
  have hnodes : (List.range h.size).map h.order.nodeAt = nodes := by
    rw [horder, ← hlen, map_nodeAt_ofList]
  refine ⟨⟨?_, fun other hother => ?_⟩, fun hn => ⟨ho.rowOf_lt hn, ho.nodeAt_rowOf hn⟩,
    fun hr => ⟨ho.nodeAt_lt hr, ho.rowOf_nodeAt hr⟩, ?_, fun hfirst {r} hr => ?_⟩
  · rw [hnodes]
    exact arrangement_of_readyOrder hs.linked hleast.readyOrder hlen
  · rw [hnodes]
    have hother' : ReadyOrder h.size h.loadedChildren [] other := hother.readyOrder hs.linked
    have hlen' : nodes.length = other.length := by simp [hlen, hother.perm.length_eq]
    exact hleast.le hother' hlen'
  · have hemitted := length_childrenFirst hs.linked hs.wellFounded
    rw [hnodes]
    exact hleast.unique (least_childrenFirst hs.linked) (hlen.trans hemitted.symm)
  · have hrange : nodes = List.range h.size :=
      hleast.unique (least_range hs.linked hown hfirst) (by simp [hlen])
    have hrow : ((List.range h.size).map h.order.nodeAt)[r]? = (List.range h.size)[r]? := by
      rw [hnodes, hrange]
    simpa [hr] using hrow

/-- A merge that is listed after one of its parents comes first, and that
parent last. -/
theorem stableOrder_of_load_merge :
    ∃ slots, load mergeCommits .empty = .ok (mergeHistory, slots) ∧
      IsLeast {nodes | mergeHistory.Arrangement nodes} [1, 2, 0] := by
  obtain ⟨slots, hload⟩ := load_mergeHistory
  have hrows : (List.range mergeHistory.size).map mergeHistory.order.nodeAt = [1, 2, 0] := by
    decide
  have hleast := (stableOrder_of_load hload).least
  rw [hrows] at hleast
  exact ⟨slots, hload, hleast⟩

end History

end Lineage
