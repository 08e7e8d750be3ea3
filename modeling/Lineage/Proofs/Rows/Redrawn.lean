import Lineage.Proofs.Rows.Shown

/-!
# Lineage.Proofs.Rows.Redrawn

A layer drawn once more.  The edges of a row to one end become one edge, and
nothing else changes; a projection does that anyway, so it comes out the same
over a layer and over its copy.

* `mergeTargets_eq` — merged targets: their ends without repetitions.
* `Rows.downOf_redrawn`, `Rows.mem_upOf_redrawn` — the edges of a copy.
* `Rows.projected_redrawn` — the projections of a copy.
-/

namespace Lineage

/-! ## lists without repetitions -/

theorem eraseDups_append_singleton {β : Type} [BEq β] [LawfulBEq β] (xs : List β) (x : β) :
    (xs ++ [x]).eraseDups = if x ∈ xs then xs.eraseDups else xs.eraseDups ++ [x] := by
  have hone : [x].eraseDups = [x] := by rw [List.eraseDups_cons]; rfl
  by_cases hx : x ∈ xs
  · simp [List.eraseDups_append, List.removeAll, hx]
  · simp [List.eraseDups_append, List.removeAll, hx, hone]

/-- What a repeated element maps to is repeated as well. -/
theorem eraseDups_flatMap_eraseDups {β γ : Type} [BEq β] [LawfulBEq β] [BEq γ] [LawfulBEq γ]
    (f : β → List γ) (xs : List β) :
    (xs.eraseDups.flatMap f).eraseDups = (xs.flatMap f).eraseDups := by
  induction xs using List.reverseRecOn with
  | nil => rfl
  | append_singleton xs x ih =>
      rw [eraseDups_append_singleton, List.flatMap_append, List.flatMap_singleton,
        List.eraseDups_append]
      split
      · next hx =>
          have hnone : (f x).removeAll (xs.flatMap f) = [] := by
            simp only [List.removeAll, List.filter_eq_nil_iff]
            intro c hc
            simpa using ⟨x, hx, hc⟩
          rw [ih, hnone, List.eraseDups_nil, List.append_nil]
      · have hsame : (f x).removeAll (xs.eraseDups.flatMap f) = (f x).removeAll (xs.flatMap f) := by
          simp [List.removeAll]
        rw [List.flatMap_append, List.flatMap_singleton, List.eraseDups_append, ih, hsame]

/-! ## merged targets -/

/-- An edge with a usual stroke in place of its own. -/
def Down.bare : Down → Down
  | .row r _ => .row r .usual
  | .missing m => .missing m

theorem Down.bare_eq_iff {d e : Down} : d.bare = e.bare ↔ d.ending = e.ending := by
  cases d <;> cases e <;> simp [bare, ending]

theorem map_bare_addTarget (edges : List Down) (t : Down) :
    (addTarget edges t).map Down.bare =
      if t.bare ∈ edges.map Down.bare then edges.map Down.bare
      else edges.map Down.bare ++ [t.bare] := by
  induction edges with
  | nil => rfl
  | cons d ds ih =>
      by_cases hd : d.sameEnd t = true
      · have hbare : t.bare = d.bare := Down.bare_eq_iff.mpr ((Down.sameEnd_iff d t).mp hd).symm
        have hjoin : (d.join t).bare = d.bare := Down.bare_eq_iff.mpr (Down.ending_join d t)
        simp [addTarget, hd, hbare, hjoin]
      · have hbare : t.bare ≠ d.bare := fun heq =>
          hd ((Down.sameEnd_iff d t).mpr (Down.bare_eq_iff.mp heq).symm)
        rw [addTarget, if_neg hd, List.map_cons, ih, List.map_cons]
        simp only [List.mem_cons, hbare, false_or]
        split
        · rfl
        · rfl

theorem map_bare_mergeTargets (ts : List Down) :
    (mergeTargets ts).map Down.bare = (ts.map Down.bare).eraseDups := by
  induction ts using List.reverseRecOn with
  | nil => rfl
  | append_singleton ts t ih =>
      have hlast : mergeTargets (ts ++ [t]) = addTarget (mergeTargets ts) t := by
        simp [mergeTargets]
      rw [hlast, map_bare_addTarget, ih, List.map_append, List.map_singleton,
        eraseDups_append_singleton]
      simp only [List.mem_eraseDups]

/-- The edge to the end of another one: usual if one of the targets there is. -/
def edgeTo (targets : List Down) : Down → Down
  | .row r _ => .row r (if .row r .usual ∈ targets then .usual else .dotted)
  | .missing m => .missing m

/-- Merged targets: one edge to each end, in the order in which the ends first
appear. -/
theorem mergeTargets_eq (ts : List Down) :
    mergeTargets ts = (ts.map Down.bare).eraseDups.map (edgeTo ts) := by
  rw [← map_bare_mergeTargets, List.map_map, eq_comm]
  refine (List.map_congr_left fun d hd => ?_).trans (List.map_id _)
  cases d with
  | missing m => rfl
  | row r s =>
      obtain ⟨_, husual⟩ := mem_row_mergeTargets.mp hd
      cases s with
      | usual => simp [Down.bare, edgeTo, husual.mp rfl]
      | dotted =>
          have hnot : .row r .usual ∉ ts := fun hmem => absurd (husual.mpr hmem) (by simp)
          simp [Down.bare, edgeTo, hnot]

/-- Merged targets are determined by the order in which the ends appear and by
the usual ones among them. -/
theorem mergeTargets_congr {ts ts' : List Down}
    (hends : (ts.map Down.bare).eraseDups = (ts'.map Down.bare).eraseDups)
    (husual : ∀ r, .row r .usual ∈ ts ↔ .row r .usual ∈ ts') :
    mergeTargets ts = mergeTargets ts' := by
  have hedge : edgeTo ts = edgeTo ts' := by
    funext d
    cases d with
    | row r s => simp only [edgeTo, husual]
    | missing m => rfl
  rw [mergeTargets_eq, mergeTargets_eq, hends, hedge]

/-- Targets may be merged before each is replaced by others, if what replaces
a target depends on its end, and is usual only where the target is. -/
theorem mergeTargets_flatMap_mergeTargets (f : Down → List Down)
    (hbare : ∀ d, (f d).map Down.bare = (f d.bare).map Down.bare)
    (husual : ∀ {d r}, .row r .usual ∈ f d → d = d.bare) (ts : List Down) :
    mergeTargets ((mergeTargets ts).flatMap f) = mergeTargets (ts.flatMap f) := by
  have hmap : ∀ ds : List Down, (ds.flatMap f).map Down.bare =
      (ds.map Down.bare).flatMap fun d => (f d).map Down.bare := by
    intro ds
    rw [List.map_flatMap, List.flatMap_map]
    exact List.flatMap_congr fun d _ => hbare d
  refine mergeTargets_congr ?_ fun r => ?_
  · rw [hmap, hmap, map_bare_mergeTargets, eraseDups_flatMap_eraseDups]
  · simp only [List.mem_flatMap]
    refine exists_congr fun d => and_congr_left fun hr => ?_
    have hd := husual hr
    cases d with
    | row x s =>
        obtain ⟨_, rfl⟩ := Down.row.inj hd
        exact mem_usual_mergeTargets ts x
    | missing m => exact mem_missing_mergeTargets

namespace Rows

variable {t : Rows} {visible : Nat → Bool} {bridges : Nat → List Nat}

/-! ## copies -/

@[simp] theorem size_redrawn (t : Rows) : t.redrawn.size = t.size := by
  rw [size, ← Array.length_toList, nodes_redrawn, Array.length_toList, size]

@[simp] theorem node?_redrawn (t : Rows) (r : Nat) : t.redrawn.node? r = t.node? r := by
  rw [node?, ← Array.getElem?_toList, nodes_redrawn, Array.getElem?_toList, node?]

/-- A history that holds all nodes of a layer is a copy of it. -/
theorem historyOnly_eq_redrawn (ht : t.Consistent) {keep : NodeId → Bool}
    (hkeep : ∀ {n}, t.Shows n → keep (.loaded n) = true) : t.historyOnly keep = t.redrawn := by
  have hflag : ∀ r < t.size, ((List.range t.size).map (t.keeps keep)).toArray.getD r false = true := by
    intro r hr
    obtain ⟨n, hn⟩ := exists_node? hr
    rw [getD_keeps hn]
    exact hkeep ⟨r, hn⟩
  have hall : (List.range t.size).filter
      (fun r => ((List.range t.size).map (t.keeps keep)).toArray.getD r false) =
        List.range t.size :=
    List.filter_eq_self.mpr fun r hr => hflag r (List.mem_range.mp hr)
  rw [historyOnly, projected_eq_drawn, redrawn_eq_drawn, hall]
  refine drawn_congr fun r _ => ?_
  have hbridged : ∀ d ∈ t.downOf r, bridged
      (fun r => ((List.range t.size).map (t.keeps keep)).toArray.getD r false) (fun _ => []) d =
        [d] := by
    intro d hd
    cases d with
    | row x s => rw [bridged, if_pos (hflag x (ht.below hd).2)]
    | missing m => rfl
  rw [targetsOf, List.flatMap_congr hbridged, List.flatMap_singleton']

/-- In a copy every row stands in its own place. -/
theorem getD_positions_range (count r : Nat) :
    (positions count (List.range count)).getD r none = if r < count then some r else none := by
  ext k
  rw [positions_getD_eq_some_iff List.nodup_range fun x hx => List.mem_range.mp hx]
  simp only [List.getElem?_eq_some_iff, List.getElem_range, List.length_range, exists_prop]
  split
  · simp only [Option.some.injEq]
    omega
  · simp only [reduceCtorEq, iff_false]
    omega

/-- The edges of a row, those with one end as one. -/
theorem downOf_redrawn (ht : t.Consistent) (r : Nat) :
    t.redrawn.downOf r = mergeTargets (t.downOf r) := by
  rcases Nat.lt_or_ge r t.size with hr | hr
  · have hget : (List.range t.size)[r]? = some r := by simp [hr]
    have hstays : ∀ d ∈ t.downOf r,
        Down.moved (positions t.size (List.range t.size)) d = some d := by
      intro d hd
      cases d with
      | row x s => rw [Down.moved, getD_positions_range, if_pos (ht.below hd).2, Option.map_some]
      | missing m => rfl
    rw [redrawn_eq_drawn, downOf_drawn hget, List.filterMap_congr hstays, List.filterMap_some]
  · rw [ht.downOf_of_le hr, (consistent_redrawn ht).downOf_of_le (by rwa [size_redrawn])]
    rfl

theorem mem_upOf_redrawn (ht : t.Consistent) {u r : Nat} {s : Stroke} :
    ⟨u, s⟩ ∈ t.redrawn.upOf r ↔ .row r s ∈ mergeTargets (t.downOf u) := by
  rw [(consistent_redrawn ht).mem_upOf, downOf_redrawn ht]

/-- A copy has the rows below each row that the layer has. -/
theorem below_redrawn (ht : t.Consistent) : t.redrawn.Below = t.Below := by
  funext r d
  simp only [Below, downOf_redrawn ht, ← mem_row_map_ending, mem_ending_mergeTargets]

/-- A drawing over a copy finds the places it finds over the layer. -/
theorem rowsOn_redrawn {d : Drawing} (hd : d.places.size = t.size) :
    d.rowsOn t.redrawn = d.rowsOn t := by
  have hplace : ∀ r, t.size ≤ r → d.placeOf? r = none := by
    intro r hr
    rw [Drawing.placeOf?, Array.getD_eq_getD_getElem?, Array.getElem?_eq_none (by omega),
      Option.getD_none]
  have hplaces : t.redrawn.places =
      t.places.map fun place => place.bind fun r => if r < t.size then some r else none := by
    simp only [← getD_positions_range, redrawn, projected, projection, Drawing.rowsOn,
      Drawing.ofTargets, List.filter_true]
    rfl
  have hnodes : t.redrawn.node? = t.node? := funext (node?_redrawn t)
  simp only [Drawing.rowsOn, hnodes, hplaces, Array.map_map]
  congr 2
  funext place
  cases place with
  | none => rfl
  | some r =>
      by_cases hr : r < t.size
      · simp [hr]
      · simp [hr, hplace r (Nat.le_of_not_lt hr)]

theorem ofTargets_congr {shown : List Nat} {size : Nat} {targets targets' : List (List Down)}
    (h : targets.map mergeTargets = targets'.map mergeTargets) :
    Drawing.ofTargets shown size targets = Drawing.ofTargets shown size targets' := by
  simp only [Drawing.ofTargets, h]

/-- What replaces a target in a projection depends on its end, and is usual
only where the target is. -/
theorem map_bare_replaced (places : Array (Option Nat)) (d : Down) :
    ((bridged visible bridges d).filterMap (Down.moved places)).map Down.bare =
      ((bridged visible bridges d.bare).filterMap (Down.moved places)).map Down.bare := by
  cases d with
  | missing m => rfl
  | row x s =>
      by_cases hx : visible x = true
      · simp only [Down.bare, bridged, if_pos hx]
        cases hplace : places.getD x none with
        | none => simp only [List.filterMap_cons, Down.moved, hplace, Option.map_none]
        | some k =>
            simp only [List.filterMap_cons, List.filterMap_nil, Down.moved, hplace, Option.map_some,
              List.map_cons, List.map_nil, Down.bare]
      · simp only [Down.bare, bridged, if_neg hx]

theorem eq_bare_of_usual {places : Array (Option Nat)} {d : Down} {r : Nat}
    (hr : .row r .usual ∈ (bridged visible bridges d).filterMap (Down.moved places)) :
    d = d.bare := by
  obtain ⟨e, he, hmoved⟩ := List.mem_filterMap.mp hr
  have husual : ∃ x, e = .row x .usual := by
    cases e with
    | missing m => cases hmoved
    | row x s =>
        obtain ⟨k, _, heq⟩ := Option.map_eq_some_iff.mp hmoved
        obtain ⟨_, rfl⟩ := Down.row.inj heq
        exact ⟨x, rfl⟩
  obtain ⟨x, rfl⟩ := husual
  cases d with
  | missing m => rfl
  | row y s =>
      rw [bridged] at he
      split at he
      · obtain ⟨_, rfl⟩ := Down.row.inj (List.mem_singleton.mp he)
        rfl
      · simp at he

/-- A projection comes out the same over a layer and over its copy. -/
theorem projected_redrawn (ht : t.Consistent) :
    t.redrawn.projected visible bridges = t.projected visible bridges := by
  have hdrawing : t.redrawn.projection visible bridges = t.projection visible bridges := by
    simp only [projection, size_redrawn]
    refine ofTargets_congr ?_
    rw [List.map_map, List.map_map]
    refine List.map_congr_left fun r _ => ?_
    simp only [Function.comp_apply, downOf_redrawn ht, List.filterMap_flatMap]
    exact mergeTargets_flatMap_mergeTargets _ (map_bare_replaced _) eq_bare_of_usual _
  rw [projected, hdrawing, rowsOn_redrawn (size_positions _ _), projected]

end Rows

end Lineage
