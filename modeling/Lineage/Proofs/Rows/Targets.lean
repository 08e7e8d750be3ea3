import Lineage.Proofs.Rows.Redrawn

/-!
# Lineage.Proofs.Rows.Targets

What a drawing makes of the targets it is given.  Whether a target is usual may
turn out late, after others with the same end; the edges toward children are
gathered when all targets are merged, so they have the strokes of the edges
toward parents, and they come in the order of their rows.

* `Drawing.pairwise_upward` — edges are gathered row by row.
* `Drawing.merges_ofTargets` — a drawing and its targets.
-/

namespace Lineage

namespace Drawing

/-- The edges of a row toward parents. -/
def downOf (d : Drawing) (row : Nat) : List Down := d.down.getD row []

/-- The edges of a row toward children. -/
def upOf (d : Drawing) (row : Nat) : List Up := d.up.getD row []

/-- Edges toward parents are read row by row. -/
theorem pairwise_upward (down : List (List Down)) :
    (upward down).Pairwise fun p q => p.2.row ≤ q.2.row := by
  obtain ⟨edges, hedges, hrow⟩ : ∃ edges : List Down × Nat → List (Nat × Up),
      upward down = down.zipIdx.flatMap edges ∧ ∀ a, ∀ p ∈ edges a, p.2.row = a.2 := by
    refine ⟨_, rfl, fun a p hp => ?_⟩
    obtain ⟨e, _, he⟩ := List.mem_filterMap.mp hp
    cases e with
    | row r stroke => cases he; rfl
    | missing m => cases he
  have hindices : down.zipIdx.Pairwise fun a b => a.2 < b.2 := by
    rw [← List.pairwise_map, List.zipIdx_map_snd]
    exact List.pairwise_lt_range'
  rw [hedges]
  refine List.pairwise_flatMap.mpr ⟨fun a _ => ?_, hindices.imp fun {a b} hab p hp q hq => ?_⟩
  · refine List.pairwise_of_forall_mem_list fun p hp q hq => ?_
    rw [hrow a p hp, hrow a q hq]
  · rw [hrow a p hp, hrow b q hq]
    exact Nat.le_of_lt hab

section OfTargets

variable {shown : List Nat} {innerSize : Nat} {targets : List (List Down)}

/-- What a drawing can be made of: inner rows in any order, each once, and for
each of them targets that stand below it or have no row. -/
structure Drawable (shown : List Nat) (innerSize : Nat) (targets : List (List Down)) : Prop where
  nodup : shown.Nodup
  lt_size : ∀ r ∈ shown, r < innerSize
  length_eq : targets.length = shown.length
  below : ∀ {r ts x s}, targets[r]? = some ts → .row x s ∈ ts → r < x ∧ x < shown.length

theorem downOf_ofTargets (r : Nat) :
    (ofTargets shown innerSize targets).downOf r = mergeTargets (targets[r]?.getD []) := by
  simp only [downOf, ofTargets, Array.getD_eq_getD_getElem?, List.getElem?_toArray,
    List.getElem?_map]
  cases targets[r]? with
  | none => rfl
  | some ts => rfl

/-- The edges of a drawing lead down, and none leaves it. -/
theorem Drawable.below_downOf (h : Drawable shown innerSize targets) {u x : Nat} {s : Stroke}
    (hs : .row x s ∈ (ofTargets shown innerSize targets).downOf u) : u < x ∧ x < shown.length := by
  rw [downOf_ofTargets] at hs
  obtain ⟨⟨s', hs'⟩, _⟩ := mem_row_mergeTargets.mp hs
  cases hts : targets[u]? with
  | none => simp [hts] at hs'
  | some ts => exact h.below hts (by simpa [hts] using hs')

/-- The edges toward children are the merged edges seen from below. -/
theorem Drawable.count_upOf (h : Drawable shown innerSize targets) (u x : Nat) (s : Stroke) :
    ((ofTargets shown innerSize targets).upOf x).count ⟨u, s⟩ =
      ((ofTargets shown innerSize targets).downOf u).count (.row x s) := by
  have hup : (ofTargets shown innerSize targets).upOf x =
      (gather shown.length (upward (targets.map mergeTargets))).getD x [] := rfl
  rcases Nat.lt_or_ge x shown.length with hx | hx
  · rw [hup, count_gather_getD _ hx, count_upward, downOf, ofTargets,
      Array.getD_eq_getD_getElem?, List.getElem?_toArray, List.getD_eq_getElem?_getD]
  · rw [hup, gather_getD_of_le _ hx, List.count_nil, List.count_eq_zero_of_not_mem]
    exact fun hmem => absurd (h.below_downOf hmem).2 (Nat.not_lt.mpr hx)

theorem Drawable.mem_upOf (h : Drawable shown innerSize targets) {u x : Nat} {s : Stroke} :
    ⟨u, s⟩ ∈ (ofTargets shown innerSize targets).upOf x ↔
      .row x s ∈ (ofTargets shown innerSize targets).downOf u := by
  rw [← List.count_pos_iff, h.count_upOf, List.count_pos_iff]

/-- No two edges toward children come from one row. -/
theorem Drawable.nodup_row_upOf (h : Drawable shown innerSize targets) (x : Nat) :
    (((ofTargets shown innerSize targets).upOf x).map Up.row).Nodup := by
  have hends : ∀ u, (((ofTargets shown innerSize targets).downOf u).map Down.ending).Nodup := by
    intro u
    rw [downOf_ofTargets]
    exact nodup_ending_mergeTargets _
  have hnodup : ((ofTargets shown innerSize targets).upOf x).Nodup := by
    refine List.nodup_iff_count_le_one.mpr fun e => ?_
    rw [h.count_upOf e.row x e.stroke]
    exact List.nodup_iff_count_le_one.mp (hends e.row).of_map _
  refine hnodup.map_on ?_
  rintro ⟨u, s⟩ hu ⟨v, s'⟩ hv huv
  obtain rfl : u = v := huv
  -- two edges between the same rows would be two edges to one end
  have heq := List.inj_on_of_nodup_map (hends u) (h.mem_upOf.mp hu) (h.mem_upOf.mp hv) rfl
  rw [(Down.row.inj heq).2]

/-- The edges of a row toward children come in the order of their rows. -/
theorem Drawable.pairwise_upOf (h : Drawable shown innerSize targets) (x : Nat) :
    ((ofTargets shown innerSize targets).upOf x).Pairwise fun e e' => e.row < e'.row := by
  have hle : ((ofTargets shown innerSize targets).upOf x).Pairwise fun e e' => e.row ≤ e'.row := by
    rcases Nat.lt_or_ge x shown.length with hx | hx
    · rw [upOf, ofTargets, gather_getD _ _ hx, List.pairwise_map]
      exact (pairwise_upward _).filter _
    · rw [upOf, ofTargets, gather_getD_of_le _ hx]
      exact List.Pairwise.nil
  exact (hle.and (List.pairwise_map.mp (h.nodup_row_upOf x))).imp
    fun hee => Nat.lt_of_le_of_ne hee.1 hee.2

/-- A drawing merges the targets it is given, and gives its edges back from
below. -/
structure Merges (d : Drawing) (shown : List Nat) (targets : List (List Down)) : Prop where
  /-- Every row has its edges both ways. -/
  size : d.down.size = shown.length ∧ d.up.size = shown.length
  /-- They are what the rows drawn over any layer answer. -/
  edges_eq : ∀ inner r, (d.rowsOn inner).edges r .down = (d.downOf r).map (Edge.mk r) ∧
    (d.rowsOn inner).edges r .up = (d.upOf r).map fun e => ⟨e.row, .row r e.stroke⟩
  /-- One edge to each end among the targets, whatever the strokes, in the order in
  which the ends first appear. -/
  ends : ∀ {r ts}, targets[r]? = some ts →
    (d.downOf r).map Down.bare = (ts.map Down.bare).eraseDups
  /-- An edge is usual if one of the targets at its end is. -/
  usual_iff : ∀ {r ts x s}, targets[r]? = some ts → .row x s ∈ d.downOf r →
    (s = .usual ↔ .row x .usual ∈ ts)
  /-- The edges toward children are the edges toward parents, stroke for stroke. -/
  mem_up_iff : ∀ {u x s}, ⟨u, s⟩ ∈ d.upOf x ↔ .row x s ∈ d.downOf u
  /-- They lead up, no two of them to one row, and come in the order of these rows. -/
  ascending : ∀ x, (d.upOf x).Pairwise (fun e e' => e.row < e'.row) ∧ ∀ e ∈ d.upOf x, e.row < x
  shown_eq : d.shown.toList = shown
  /-- The place of an inner row is the row that shows it. -/
  placeOf?_iff : ∀ {i r}, d.placeOf? i = some r ↔ shown[r]? = some i
  /-- An inner row that is not shown, or that is not there, has no place. -/
  placeOf?_eq_none_iff : ∀ {i}, d.placeOf? i = none ↔ i ∉ shown

/-- Every drawing merges its targets. -/
theorem merges_ofTargets (h : Drawable shown innerSize targets) :
    (ofTargets shown innerSize targets).Merges shown targets where
  size := by simp [ofTargets, h.length_eq]
  edges_eq _ _ := ⟨rfl, rfl⟩
  ends {r ts} hts := by rw [downOf_ofTargets, hts, Option.getD_some, map_bare_mergeTargets]
  usual_iff {r ts x s} hts hs := by
    rw [downOf_ofTargets, hts, Option.getD_some] at hs
    exact (mem_row_mergeTargets.mp hs).2
  mem_up_iff := h.mem_upOf
  ascending x := ⟨h.pairwise_upOf x, fun _ he => (h.below_downOf (h.mem_upOf.mp he)).1⟩
  shown_eq := rfl
  placeOf?_iff := positions_getD_eq_some_iff h.nodup h.lt_size
  placeOf?_eq_none_iff {i} := by
    rw [Option.eq_none_iff_forall_ne_some, List.mem_iff_getElem?, not_exists]
    exact forall_congr' fun r => not_congr (positions_getD_eq_some_iff h.nodup h.lt_size)

/-- Of three rows, the first has the other two below it and a parent that is not
loaded.  It has targets of either stroke at the last row, the usual one later. -/
theorem merges_ofTargets_late :
    (ofTargets [4, 0, 2] 5
      [[.row 2 .dotted, .missing 1, .row 1 .dotted, .row 2 .usual, .missing 1], [.row 2 .dotted],
        []]).Merges [4, 0, 2]
      [[.row 2 .dotted, .missing 1, .row 1 .dotted, .row 2 .usual, .missing 1], [.row 2 .dotted],
        []] := by
  refine merges_ofTargets ⟨by decide, by decide, rfl, fun {r ts x s} hts hs => ?_⟩
  rw [show [4, 0, 2].length = 3 from rfl]
  match r, (List.getElem?_eq_some_iff.mp hts).1 with
  | 0, _ => cases hts; simp at hs; omega
  | 1, _ => cases hts; simp at hs; omega
  | 2, _ => cases hts; simp at hs

/-- The edge toward children has the stroke of the merged edge, not of the first
target. -/
example : (ofTargets [0, 1] 2 [[.row 1 .dotted, .row 1 .usual], []]).upOf 1 = [⟨0, .usual⟩] := by
  decide

end OfTargets

end Drawing

end Lineage
