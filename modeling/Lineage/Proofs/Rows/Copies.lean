import Lineage.Proofs.Rows.Redrawn

/-!
# Lineage.Proofs.Rows.Copies

Layers that show the same.  Their rows show the same nodes, and at each row the
one has the edges of the other, though perhaps in another order and not as
often.

* `Rows.Copies` — what it means to the queries of a layer.
* `Rows.Consistent.copies` — edges toward parents are enough, and
  `Rows.Consistent.mem_downOf_of_joins` — so is what they join.
* `Rows.copies_redrawn` — a layer that is drawn once more.
-/

namespace Lineage

namespace Rows

variable {t t' : Rows}

/-- The layer `t'` shows the nodes of `t` at their rows, and has its edges, each
of them once. -/
structure Copies (t' t : Rows) : Prop where
  size : t'.size = t.size
  node? : ∀ r, t'.node? r = t.node? r
  rowOf? : ∀ id, t'.rowOf? id = t.rowOf? id
  nodup : ∀ r direction, (t'.edges r direction).Nodup
  mem_iff : ∀ r direction e, e ∈ t'.edges r direction ↔ e ∈ t.edges r direction

/-! ## edges both ways -/

/-- No two edges of a row toward parents are equal if no two share an end. -/
theorem nodup_edges_down {r : Nat} (hends : ((t.downOf r).map Down.ending).Nodup) :
    (t.edges r .down).Nodup :=
  (hends.of_map _).map fun _ _ heq => (Edge.mk.inj heq).2

/-- Then no two toward children are. -/
theorem Consistent.nodup_edges_up (ht : t.Consistent)
    (hends : ∀ r, ((t.downOf r).map Down.ending).Nodup) (r : Nat) : (t.edges r .up).Nodup := by
  rw [List.nodup_iff_count_le_one]
  intro e
  by_cases he : e ∈ t.edges r .up
  · obtain ⟨s, hs, _⟩ := mem_edges_up.mp he
    obtain ⟨u, d⟩ := e
    obtain rfl : d = .row r s := hs
    rw [count_edges_up, ht.mirror]
    exact List.nodup_iff_count_le_one.mp ((hends u).of_map _) _
  · rw [List.count_eq_zero_of_not_mem he]
    exact Nat.zero_le 1

/-- A layer whose rows have the edges of another layer toward parents, and no two
of them with one end, copies it. -/
theorem Consistent.copies (ht' : t'.Consistent) (ht : t.Consistent)
    (hnode : ∀ r, t'.node? r = t.node? r) (hends : ∀ r, ((t'.downOf r).map Down.ending).Nodup)
    (hdown : ∀ {r d}, d ∈ t'.downOf r ↔ d ∈ t.downOf r) : t'.Copies t where
  size := eq_of_forall_lt_iff fun r => by rw [← node?_isSome_iff, ← node?_isSome_iff, hnode]
  node? := hnode
  rowOf? id := by
    cases id with
    | loaded n =>
        ext r
        rw [ht'.rowOf?_iff, ht.rowOf?_iff, hnode]
    | none => rfl
    | missing m => rfl
  nodup r direction := by
    cases direction with
    | down => exact nodup_edges_down (hends r)
    | up => exact ht'.nodup_edges_up hends r
  mem_iff r direction e := by
    cases direction with
    | down => rw [mem_edges_down, mem_edges_down, hdown]
    | up => simp only [mem_edges_up, ht'.mem_upOf, ht.mem_upOf, hdown]

/-- Layers with the same nodes at their rows have the same edges toward parents
if these join the same nodes. -/
theorem Consistent.mem_downOf_of_joins (ht' : t'.Consistent) (ht : t.Consistent)
    (hnode : ∀ r, t'.node? r = t.node? r) (hjoins : ∀ {u v s}, t'.Joins u v s → t.Joins u v s)
    (hlacks : ∀ {u m}, t'.Lacks u m → t.Lacks u m) {r : Nat} {d : Down} (hd : d ∈ t'.downOf r) :
    d ∈ t.downOf r := by
  obtain ⟨u, hu⟩ := exists_node? (ht'.lt_size_of_mem_downOf hd)
  have hu' : t.node? r = some u := (hnode r).symm.trans hu
  cases d with
  | row x s =>
      obtain ⟨v, hv⟩ := exists_node? (ht'.below hd).2
      exact (ht.joins_iff_of_node? hu' ((hnode x).symm.trans hv)).mp (hjoins ⟨r, x, hu, hv, hd⟩)
  | missing m =>
      obtain ⟨r', hr', hm⟩ := hlacks ⟨r, hu, hd⟩
      rwa [ht.node?_inj hu' hr']

/-! ## copies by drawing -/

/-- Merging leaves the edges of a row as they are, but each once, if no two
edges to one row have different strokes. -/
theorem mem_mergeTargets_iff {ts : List Down}
    (hone : ∀ {x s s'}, .row x s ∈ ts → .row x s' ∈ ts → s = s') {d : Down} :
    d ∈ mergeTargets ts ↔ d ∈ ts := by
  cases d with
  | missing m => exact mem_missing_mergeTargets
  | row x s =>
      rw [mem_row_mergeTargets]
      constructor
      · rintro ⟨⟨s', hs'⟩, husual⟩
        cases s with
        | usual => exact husual.mp rfl
        | dotted =>
            cases s' with
            | usual => exact absurd (husual.mpr hs') (by decide)
            | dotted => exact hs'
      · exact fun hs => ⟨⟨s, hs⟩, fun heq => heq ▸ hs, fun hu => hone hs hu⟩

/-- A layer that is drawn once more is a copy. -/
theorem copies_redrawn (ht : t.Consistent)
    (hone : ∀ {r x s s'}, .row x s ∈ t.downOf r → .row x s' ∈ t.downOf r → s = s') :
    t.redrawn.Copies t := by
  refine (consistent_redrawn ht).copies ht (node?_redrawn t) (fun r => ?_) fun {r d} => ?_
  · rw [downOf_redrawn ht]
    exact nodup_ending_mergeTargets _
  · rw [downOf_redrawn ht, mem_mergeTargets_iff hone]

end Rows

end Lineage
