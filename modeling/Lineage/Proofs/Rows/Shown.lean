import Lineage.Proofs.Rows.Exact
import Lineage.Proofs.Rows.Straighten

/-!
# Lineage.Proofs.Rows.Shown

The nodes a layer shows, and in which order.  A projection leaves rows out and
moves none; a straightened layer moves rows and leaves none out; a folded
layer leaves out plain rows only.

* `Rows.nodes_projected_sublist` — the nodes of a projection.
* `Rows.straightened_eq_drawn`, `Rows.shows_straightened` — the nodes of a
  straightened layer.
* `Rows.isPlain_of_hidden` — the rows that folding hides.
* `Rows.Exact.child_of_isPlain`, `Rows.Exact.parent_of_isPlain` — what a plain
  row says of the history.
-/

namespace Lineage

namespace Rows

variable {t : Rows} {h : History} {n : Nat}

/-! ## nodes in order -/

theorem nodes_eq_filterMap (t : Rows) :
    t.nodes.toList = (List.range t.size).filterMap t.node? := by
  have hget : t.node? = fun r => t.nodes.toList[r]? := by
    funext r
    rw [node?, Array.getElem?_toList]
  rw [hget, size, ← Array.length_toList, filterMap_getElem?_range]

theorem mem_nodes : n ∈ t.nodes.toList ↔ t.Shows n := by
  simp [List.mem_iff_getElem?, Shows, node?]

/-- No node is shown twice. -/
theorem Consistent.nodup_nodes (ht : t.Consistent) : t.nodes.toList.Nodup := by
  rw [nodes_eq_filterMap]
  exact List.nodup_range.filterMap fun r r' n hr hr' => ht.node?_inj hr hr'

section Projected

variable (t) (visible : Nat → Bool) (bridges : Nat → List Nat)

theorem nodes_projected : (t.projected visible bridges).nodes.toList =
    ((List.range t.size).filter visible).filterMap t.node? := by
  simp [projected, projection, Drawing.rowsOn, Drawing.ofTargets]

/-- A projection leaves nodes out and keeps the others in their order. -/
theorem nodes_projected_sublist :
    (t.projected visible bridges).nodes.toList.Sublist t.nodes.toList := by
  rw [nodes_projected, nodes_eq_filterMap]
  exact List.filter_sublist.filterMap _

end Projected

@[simp] theorem nodes_redrawn (t : Rows) : t.redrawn.nodes.toList = t.nodes.toList := by
  rw [redrawn, nodes_projected, nodes_eq_filterMap, List.filter_true]

@[simp] theorem shows_redrawn : t.redrawn.Shows n ↔ t.Shows n := by
  rw [← mem_nodes, ← mem_nodes, nodes_redrawn]

/-! ## straightened layers -/

theorem lineOrder_nil (size : Nat) : lineOrder size [] = List.range size := by
  have hstays : ∀ r ∈ List.range size, block size [] r = [r] := by
    intro r hr
    rw [block_of_stays (List.mem_range.mp hr) (by simp), gather_getD _ _ (List.mem_range.mp hr)]
    rfl
  rw [lineOrder_eq_flatMap_block, List.flatMap_congr hstays, List.flatMap_singleton']

/-- A layer drawn as it is. -/
theorem redrawn_eq_drawn (t : Rows) : t.redrawn = t.drawn (List.range t.size) t.downOf := by
  have hbridged : bridged (fun _ => true) (fun _ => []) = fun d => [d] := by
    funext d
    cases d <;> rfl
  have htargets : t.targetsOf (fun _ => true) (fun _ => []) = t.downOf := by
    funext r
    rw [targetsOf, hbridged, List.flatMap_singleton']
  rw [redrawn, projected_eq_drawn, List.filter_true, htargets]

theorem drawLines_nil (t : Rows) : t.drawLines [] = t.redrawn := by
  have htargets : t.lineTargets [] = t.downOf := by
    funext r
    have hhidden : (Rewiring.ofBubbles t.size []).hidden.getD r [] = [] :=
      List.eq_nil_iff_forall_not_mem.mpr fun x => by simp only [mem_hidden]; simp
    have hredirected : (Rewiring.ofBubbles t.size []).redirected.getD r [] = [] :=
      List.eq_nil_iff_forall_not_mem.mpr fun (d, x) => by simp only [mem_redirected]; simp
    have happly : (Rewiring.ofBubbles t.size []).apply r = some := by
      funext d
      cases d with
      | row x s => rw [Rewiring.apply, hhidden, hredirected]; rfl
      | missing m => rfl
    rw [lineTargets, happly, List.filterMap_some]
  rw [drawLines_eq_drawn, redrawn_eq_drawn, lineOrder_nil, htargets]

theorem straightened_eq_drawLines (t : Rows) (most : Nat) :
    t.straightened most = t.drawLines (t.bubbles most) := by
  rw [straightened]
  split
  · next hnone => rw [hnone, drawLines_nil]
  · rfl

/-- Straightening leaves no node out. -/
theorem shows_straightened (ht : t.Consistent) (most : Nat) :
    (t.straightened most).Shows n ↔ t.Shows n := by
  have hbs := areBubbles_bubbles t most
  rw [straightened_eq_drawLines, drawLines_eq_drawn, shows_drawn (hbs.showable_lineOrder ht)]
  refine exists_congr fun r => and_iff_left_of_imp fun hr => ?_
  exact (hbs.mem_lineOrder ht).mpr (lt_size_of_node? hr)

/-! ## folded layers -/

theorem shows_of_collapsed {isBranch : NodeId → Bool} {least : Nat}
    (hn : (t.collapsed isBranch least).Shows n) : t.Shows n := by
  rw [collapsed_eq_projected, shows_projected] at hn
  obtain ⟨r, hr, _⟩ := hn
  exact ⟨r, hr⟩

/-- Folding hides plain rows only. -/
theorem isPlain_of_hidden {isBranch : NodeId → Bool} {least r : Nat} (hr : t.node? r = some n)
    (hidden : ¬ (t.collapsed isBranch least).Shows n) : t.isPlain isBranch r = true := by
  have hhidden : ((t.runBridges (t.foldedRuns isBranch least)).getD r []).isEmpty = false := by
    rw [← Bool.not_eq_true]
    rw [collapsed_eq_projected, shows_projected, not_exists] at hidden
    exact fun hempty => hidden r ⟨hr, hempty⟩
  obtain ⟨below, hmem⟩ := List.isEmpty_eq_false_iff_exists_mem.mp hhidden
  obtain ⟨_, run, hrun, hrmem⟩ := mem_runBridges.mp hmem
  exact ((getD_flags _ _ _).mp ((run_of_mem_foldedRuns hrun).plain_of_mem hrmem)).2

section Plain

variable {isBranch : NodeId → Bool} {r : Nat}

/-- The node of a plain row is a parent of one of the nodes that are shown. -/
theorem Exact.child_of_isPlain (ht : t.Exact h) (hr : t.node? r = some n)
    (hplain : t.isPlain isBranch r = true) : ∃ m, ∀ k, t.Shows k ∧ h.IsParent k n ↔ k = m := by
  obtain ⟨⟨u, hup⟩, _, _⟩ := isPlain_iff.mp hplain
  have hedge : .row r .usual ∈ t.downOf u := ht.consistent.mem_upOf.mp (by simp [hup])
  obtain ⟨m, hm⟩ := exists_node? (ht.consistent.lt_size_of_mem_downOf hedge)
  refine ⟨m, fun k => ⟨?_, ?_⟩⟩
  · rintro ⟨⟨u', hk⟩, hparent⟩
    have hup' := ht.consistent.mem_upOf.mpr ((ht.usual_iff hk hr).mpr hparent)
    rw [hup, List.mem_singleton] at hup'
    obtain rfl : u' = u := congrArg Up.row hup'
    exact Option.some.inj (hk.symm.trans hm)
  · rintro rfl
    exact ⟨⟨u, hm⟩, (ht.usual_iff hm hr).mp hedge⟩

/-- If its parents are shown where they are loaded, the node of a plain row
has one parent, and that is loaded. -/
theorem Exact.parent_of_isPlain (ht : t.Exact h) (hr : t.node? r = some n)
    (hplain : t.isPlain isBranch r = true) (hclosed : ∀ {k}, h.IsParent n k → t.Shows k) :
    (∃ m, ∀ k, h.IsParent n k ↔ k = m) ∧ ∀ s, .missing s ∉ h.parentsOf n := by
  obtain ⟨_, ⟨d, hdown⟩, _⟩ := isPlain_iff.mp hplain
  have hedge : .row d .usual ∈ t.downOf r := by simp [hdown]
  obtain ⟨m, hm⟩ := exists_node? (ht.consistent.below hedge).2
  refine ⟨⟨m, fun k => ⟨fun hparent => ?_, ?_⟩⟩, fun s hs => ?_⟩
  · obtain ⟨d', hk⟩ := hclosed hparent
    have hedge' := (ht.usual_iff hr hk).mpr hparent
    rw [hdown, List.mem_singleton] at hedge'
    obtain ⟨rfl, _⟩ := Down.row.inj hedge'
    exact Option.some.inj (hk.symm.trans hm)
  · rintro rfl
    exact (ht.usual_iff hr hm).mp hedge
  · obtain ⟨r', hr', hmem⟩ := ht.lacks_iff.mpr ⟨⟨r, hr⟩, hs⟩
    rw [ht.consistent.node?_inj hr' hr, hdown] at hmem
    simp at hmem

end Plain

end Rows

end Lineage
