import Lineage.Proofs.Rows.Copies

/-!
# Lineage.Proofs.Rows.Intersection

One commit filter over another.  Together they keep the nodes that both keep.
A path through nodes that one of them hides is cut at the nodes that only the
second one hides: in between it passes through nodes that the first one hides,
and so is a path of edges of the first filter.

* `Rows.links_commitsOnly_commitsOnly` — the edges of both, without strokes.
* `Rows.copies_commitsOnly_commitsOnly` — both as one filter.
-/

namespace Lineage

namespace Rows

variable {t : Rows} {keep first second : NodeId → Bool} {u v m : Nat} {s : Stroke}

/-! ## one filter, node by node -/

theorem nodes_commitsOnly (t : Rows) (keep : NodeId → Bool) :
    (t.commitsOnly keep).nodes.toList = t.nodes.toList.filter fun n => keep (.loaded n) := by
  rw [commitsOnly, nodes_projected, nodes_eq_filterMap, List.filterMap_filter,
    List.filter_filterMap]
  refine List.filterMap_congr fun r _ => ?_
  cases hr : t.node? r with
  | none => simp
  | some n => rw [getD_keeps hr, Option.filter_some]

/-- An edge of a commit filter is usual where the layer has a usual one. -/
theorem joins_commitsOnly (ht : t.Consistent) (keep : NodeId → Bool) :
    (t.commitsOnly keep).Joins u v s ↔
      (t.commitsOnly keep).Links u v ∧ (s = .usual ↔ t.Joins u v .usual) := by
  rw [commitsOnly, joins_projected ht (bridges_bridgesOf ht _),
    links_projected ht (bridges_bridgesOf ht _)]
  constructor
  · rintro ⟨r, x, hr, hx, hvia, hstroke⟩
    rw [← ht.joins_iff_of_node? hr.1 hx.1] at hstroke
    exact ⟨⟨r, x, hr, hx, hvia⟩, hstroke⟩
  · rintro ⟨⟨r, x, hr, hx, hvia⟩, hstroke⟩
    rw [ht.joins_iff_of_node? hr.1 hx.1] at hstroke
    exact ⟨r, x, hr, hx, hvia, hstroke⟩

theorem lacks_commitsOnly :
    (t.commitsOnly keep).Lacks u m ↔ keep (.loaded u) = true ∧ t.Lacks u m := by
  rw [commitsOnly, lacks_projected]
  constructor
  · rintro ⟨r, ⟨hr, hkeep⟩, hm⟩
    rw [getD_keeps hr] at hkeep
    exact ⟨hkeep, r, hr, hm⟩
  · rintro ⟨hkeep, r, hr, hm⟩
    exact ⟨r, ⟨hr, by rwa [getD_keeps hr]⟩, hm⟩

/-! ## two filters -/

/-- A path through nodes that one of the filters hides is a path of paths. -/
theorem links_commitsOnly_commitsOnly (ht : t.Consistent) :
    ((t.commitsOnly first).commitsOnly second).Links u v ↔
      (t.commitsOnly fun id => first id && second id).Links u v := by
  rw [links_commitsOnly (consistent_commitsOnly ht first), links_commitsOnly ht]
  simp only [Bool.and_eq_true]
  constructor
  · rintro ⟨hu, hv, hvia⟩
    obtain ⟨⟨_, hfirst⟩, ⟨_, hlast⟩⟩ := hvia.ends
    refine ⟨⟨((links_commitsOnly ht first).mp hfirst).1, hu⟩,
      ⟨((links_commitsOnly ht first).mp hlast).2.1, hv⟩, ?_⟩
    have hpaths := hvia.mono (fun h => ((links_commitsOnly ht first).mp h).2.2) id
    exact hpaths.flatten (fun hx hboth => hx hboth.1) fun hx hboth => hx hboth.2
  · rintro ⟨⟨hu, hu'⟩, ⟨hv, hv'⟩, hvia⟩
    have hgroup := hvia.group (S := fun n => first (.loaded n) = true)
      (H := fun n => ¬ second (.loaded n) = true) (fun hx hfirst hsecond => hx ⟨hfirst, hsecond⟩)
      hu hv
    exact ⟨hu', hv', hgroup.mono (links_commitsOnly ht first).mpr id⟩

theorem joins_commitsOnly_commitsOnly (ht : t.Consistent) :
    ((t.commitsOnly first).commitsOnly second).Joins u v s ↔
      (t.commitsOnly fun id => first id && second id).Joins u v s := by
  rw [joins_commitsOnly (consistent_commitsOnly ht first), joins_commitsOnly ht first,
    joins_commitsOnly ht fun id => first id && second id, links_commitsOnly_commitsOnly ht]
  refine and_congr_right fun hlinks => iff_congr Iff.rfl ?_
  -- a usual edge between nodes that both filters keep is an edge of the first
  obtain ⟨hu, hv, _⟩ := (links_commitsOnly ht _).mp hlinks
  simp only [Bool.and_eq_true] at hu hv
  rw [iff_true_left rfl, and_iff_right_iff_imp, links_commitsOnly ht]
  exact fun hjoins => ⟨hu.1, hv.1, .single ⟨_, hjoins⟩⟩

theorem lacks_commitsOnly_commitsOnly :
    ((t.commitsOnly first).commitsOnly second).Lacks u m ↔
      (t.commitsOnly fun id => first id && second id).Lacks u m := by
  rw [lacks_commitsOnly, lacks_commitsOnly, lacks_commitsOnly, Bool.and_eq_true, and_left_comm,
    and_assoc]

/-- One commit filter over another is the filter that keeps what both keep. -/
theorem copies_commitsOnly_commitsOnly (ht : t.Consistent) (first second : NodeId → Bool) :
    ((t.commitsOnly first).commitsOnly second).Copies
      (t.commitsOnly fun id => first id && second id) := by
  have htwice := consistent_commitsOnly (consistent_commitsOnly ht first) second
  have honce := consistent_commitsOnly ht fun id => first id && second id
  have hnodes : ((t.commitsOnly first).commitsOnly second).nodes =
      (t.commitsOnly fun id => first id && second id).nodes := by
    rw [← Array.toList_inj, nodes_commitsOnly, nodes_commitsOnly, nodes_commitsOnly,
      List.filter_filter]
    simp only [Bool.and_comm]
  have hnode : ∀ r, ((t.commitsOnly first).commitsOnly second).node? r =
      (t.commitsOnly fun id => first id && second id).node? r := fun r => by
    rw [Rows.node?, hnodes, Rows.node?]
  refine htwice.copies honce hnode (fun r => ?_) fun {r d} => ?_
  · exact nodup_ending_drawn r
  · constructor
    · exact htwice.mem_downOf_of_joins honce hnode (joins_commitsOnly_commitsOnly ht).mp
        lacks_commitsOnly_commitsOnly.mp
    · exact honce.mem_downOf_of_joins htwice (fun r => (hnode r).symm)
        (joins_commitsOnly_commitsOnly ht).mpr lacks_commitsOnly_commitsOnly.mpr

end Rows

end Lineage
