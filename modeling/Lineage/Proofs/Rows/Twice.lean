import Mathlib.Data.List.Sort
import Lineage.Proofs.Rows.Redrawn

/-!
# Lineage.Proofs.Rows.Twice

A layer drawn over a drawn layer.  It shows the rows that both show, and draws
the edges that one drawing would draw, as long as the targets of each row come
to the same: merging them in between makes no difference.

* `Rows.through` — the inner rows that are shown in the end.
* `Rows.drawn_drawn` — two drawings as one.
* `Rows.projected_projected` — two projections as one drawing.
-/

namespace Lineage

/-! ## entries of entries -/

/-- The entries of a list at the places that another one names. -/
def through (shown places : List Nat) : List Nat := places.filterMap (shown[·]?)

section Through

variable {shown places : List Nat} {i k x count : Nat}

theorem map_some_through (hlt : ∀ i ∈ places, i < shown.length) :
    (through shown places).map some = places.map (shown[·]?) :=
  map_some_filterMap fun i hi => by simpa using hlt i hi

theorem getElem?_through (hlt : ∀ i ∈ places, i < shown.length) (k : Nat) :
    (through shown places)[k]? = places[k]?.bind (shown[·]?) := by
  have hget := congrArg (·[k]?) (map_some_through hlt)
  simp only [List.getElem?_map] at hget
  cases hplace : places[k]? with
  | none => simpa [hplace] using hget
  | some i =>
      rw [hplace, Option.map_some, Option.map_eq_some_iff] at hget
      obtain ⟨x, hx, hi⟩ := hget
      rw [hx, Option.bind_some, hi]

theorem length_through (hlt : ∀ i ∈ places, i < shown.length) :
    (through shown places).length = places.length := by
  simpa using congrArg List.length (map_some_through hlt)

theorem filterMap_through {β : Type} (f : Nat → Option β) (shown places : List Nat) :
    (through shown places).filterMap f = places.filterMap fun i => shown[i]?.bind f :=
  List.filterMap_filterMap

theorem mem_through : x ∈ through shown places ↔ ∃ i ∈ places, shown[i]? = some x :=
  List.mem_filterMap

theorem nodup_through (hshown : shown.Nodup) (hplaces : places.Nodup) :
    (through shown places).Nodup := by
  refine hplaces.filterMap fun i j x hi hj => ?_
  obtain ⟨hlt, _⟩ := List.getElem?_eq_some_iff.mp hi
  exact (List.getElem?_inj hlt hshown).mp (Eq.trans hi hj.symm)

theorem ascending_through (hshown : shown.Pairwise (· < ·)) (hplaces : places.Pairwise (· < ·)) :
    (through shown places).Pairwise (· < ·) := by
  refine hplaces.filterMap _ fun i j hij x hx y hy => ?_
  obtain ⟨hi, rfl⟩ := List.getElem?_eq_some_iff.mp hx
  obtain ⟨hj, rfl⟩ := List.getElem?_eq_some_iff.mp hy
  exact List.pairwise_iff_getElem.mp hshown i j hi hj hij

/-- The place of an entry among those that are left is the place of its place. -/
theorem positions_through (hshown : shown.Nodup) (hcount : ∀ x ∈ shown, x < count)
    (hplaces : places.Nodup) (hlt : ∀ i ∈ places, i < shown.length) :
    ((positions count shown).getD x none).bind
      (fun i => (positions shown.length places).getD i none) =
        (positions count (through shown places)).getD x none := by
  have hthrough : ∀ y ∈ through shown places, y < count := fun y hy => by
    obtain ⟨i, _, hi⟩ := mem_through.mp hy
    exact hcount y (List.mem_of_getElem? hi)
  ext k
  rw [positions_getD_eq_some_iff (nodup_through hshown hplaces) hthrough, getElem?_through hlt,
    Option.bind_eq_some_iff, Option.bind_eq_some_iff]
  simp only [positions_getD_eq_some_iff hshown hcount, positions_getD_eq_some_iff hplaces hlt]
  exact exists_congr fun i => and_comm

/-- The entries at places that are picked by what stands there. -/
theorem through_filter {p q : Nat → Bool} (hpq : ∀ {i x}, shown[i]? = some x → p i = q x) :
    through shown ((List.range shown.length).filter p) = shown.filter q := by
  have hall := filterMap_getElem?_range shown
  rw [through, List.filterMap_filter]
  conv_rhs => rw [← hall, List.filter_filterMap]
  refine List.filterMap_congr fun i _ => ?_
  cases hi : shown[i]? with
  | none => simp
  | some x => simp [hpq hi, Option.filter_some]

end Through

namespace Rows

variable {t : Rows} {shown shown' : List Nat} {targets targets' targets'' : Nat → List Down}

/-! ## drawings over drawings -/

theorem moved_row (h : t.Showable shown) {i x : Nat} (hi : shown[i]? = some x) (s : Stroke) :
    Down.moved (positions t.size shown) (.row x s) = some (.row i s) := by
  rw [Down.moved, (positions_getD_eq_some_iff h.nodup h.lt_size).mpr hi, Option.map_some]

/-- An edge that is moved twice. -/
theorem moved_through (h : t.Showable shown) (hnodup : shown'.Nodup)
    (hlt : ∀ i ∈ shown', i < shown.length) (d : Down) :
    (Down.moved (positions t.size shown) d).bind (Down.moved (positions shown.length shown')) =
      Down.moved (positions t.size (through shown shown')) d := by
  cases d with
  | missing m => rfl
  | row x s =>
      have hplace := positions_through (x := x) h.nodup h.lt_size hnodup hlt
      rw [Down.moved, Down.moved, ← hplace]
      cases (positions t.size shown).getD x none <;> rfl

/-- Edges to places that come to the same in two steps. -/
theorem filterMap_moved_through (h : t.Showable shown) (hnodup : shown'.Nodup)
    (hlt : ∀ i ∈ shown', i < shown.length) (s : Stroke) (places : List Nat) :
    ((through shown places).map (Down.row · s)).filterMap
        (Down.moved (positions t.size (through shown shown'))) =
      (places.map (Down.row · s)).filterMap (Down.moved (positions shown.length shown')) := by
  rw [List.filterMap_map, List.filterMap_map, filterMap_through]
  refine List.filterMap_congr fun i _ => ?_
  rw [Function.comp_apply]
  cases hi : shown[i]? with
  | some x =>
      rw [Option.bind_some, Function.comp_apply, ← moved_through h hnodup hlt, moved_row h hi,
        Option.bind_some]
  | none =>
      have hplace : (positions shown.length shown').getD i none = none := by
        refine Option.eq_none_iff_forall_ne_some.mpr fun k hk => ?_
        have hmem := List.mem_of_getElem? ((positions_getD_eq_some_iff hnodup hlt).mp hk)
        have hle := List.getElem?_eq_none_iff.mp hi
        exact absurd (hlt i hmem) (Nat.not_lt.mpr hle)
      rw [Down.moved, hplace]
      rfl

/-- The tables of a drawing. -/
theorem drawn_eq (t : Rows) (shown : List Nat) (targets : Nat → List Down) :
    t.drawn shown targets =
      let down := shown.map fun r =>
        mergeTargets ((targets r).filterMap (Down.moved (positions t.size shown)))
      { nodes := (shown.filterMap t.node?).toArray
        places := t.places.map fun place =>
          place.bind fun r => (positions t.size shown).getD r none
        down := down.toArray
        up := gather shown.length (Drawing.upward down) } := by
  simp only [drawn, Drawing.rowsOn, Drawing.ofTargets, List.map_map, List.filterMap_toArray]
  rfl

/-- Two drawings show what the second one shows of the first; and if the targets
of each row come to the same edges, they are one drawing. -/
theorem drawn_drawn (h : t.Showable shown) (hnodup : shown'.Nodup)
    (hlt : ∀ i ∈ shown', i < shown.length)
    (htargets : ∀ {i r}, i ∈ shown' → shown[i]? = some r →
      mergeTargets ((targets' i).filterMap (Down.moved (positions shown.length shown'))) =
        mergeTargets ((targets'' r).filterMap
          (Down.moved (positions t.size (through shown shown'))))) :
    (t.drawn shown targets).drawn shown' targets' =
      t.drawn (through shown shown') targets'' := by
  have hnodes : shown'.filterMap (t.drawn shown targets).node? =
      (through shown shown').filterMap t.node? := by
    rw [filterMap_through]
    exact List.filterMap_congr fun i _ => node?_drawn h i
  have hplaces : (t.drawn shown targets).places.map (fun place =>
        place.bind fun i => (positions shown.length shown').getD i none) =
      t.places.map fun place =>
        place.bind fun x => (positions t.size (through shown shown')).getD x none := by
    rw [drawn_eq, Array.map_map]
    congr 1
    funext place
    cases place with
    | none => rfl
    | some x => exact positions_through h.nodup h.lt_size hnodup hlt
  have hdown : (shown'.map fun i => mergeTargets
        ((targets' i).filterMap (Down.moved (positions shown.length shown')))) =
      (through shown shown').map fun r => mergeTargets
        ((targets'' r).filterMap (Down.moved (positions t.size (through shown shown')))) := by
    rw [through, List.map_filterMap, ← List.filterMap_eq_map]
    refine List.filterMap_congr fun i hi => ?_
    have hget := List.getElem?_eq_getElem (hlt i hi)
    rw [hget, Option.map_some]
    exact congrArg some (htargets hi hget)
  rw [drawn_eq (t.drawn shown targets), drawn_eq t (through shown shown'), size_drawn h, hnodes,
    hplaces, hdown, length_through hlt]

/-! ## projections over projections -/

section Projected

variable {visible visible' : Nat → Bool} {bridges bridges' : Nat → List Nat}
  {replace : Down → List Down}

/-- Flags pick places, each of them once. -/
theorem picked_places (count : Nat) (flags : Nat → Bool) :
    ((List.range count).filter flags).Nodup ∧ ∀ i ∈ (List.range count).filter flags, i < count :=
  ⟨List.nodup_range.filter _, fun _ hi => List.mem_range.mp (List.mem_of_mem_filter hi)⟩

/-- Two projections as one drawing, if each edge of a row that both show is
replaced by what replaces it in two steps. -/
theorem projected_projected (hshown : shown = (List.range t.size).filter visible)
    (hshown' : shown' = (List.range shown.length).filter visible')
    (hreplace : ∀ {i r d}, i ∈ shown' → shown[i]? = some r → d ∈ t.downOf r →
      (((bridged visible bridges d).filterMap (Down.moved (positions t.size shown))).flatMap
          (bridged visible' bridges')).filterMap (Down.moved (positions shown.length shown')) =
        (replace d).filterMap (Down.moved (positions t.size (through shown shown')))) :
    (t.projected visible bridges).projected visible' bridges' =
      t.drawn (through shown shown') fun r => (t.downOf r).flatMap replace := by
  have h : t.Showable shown := hshown ▸ showable_filter t visible
  have hdrawn : t.projected visible bridges = t.drawn shown (t.targetsOf visible bridges) := by
    rw [projected_eq_drawn, hshown]
  obtain ⟨hnodup, hlt⟩ := picked_places shown.length visible'
  rw [← hshown'] at hnodup hlt
  rw [projected_eq_drawn, hdrawn, size_drawn h, ← hshown']
  refine drawn_drawn h hnodup hlt fun {i r} hi hr => ?_
  -- the edges of the first projection need not be merged for the second one
  rw [targetsOf, downOf_drawn hr, List.filterMap_flatMap,
    mergeTargets_flatMap_mergeTargets _ (map_bare_replaced _) eq_bare_of_usual, targetsOf,
    List.filterMap_flatMap, List.filterMap_flatMap, List.flatMap_assoc]
  refine congrArg mergeTargets (List.flatMap_congr fun d hd => ?_)
  rw [← hreplace hi hr hd, List.filterMap_flatMap]

end Projected

end Rows

end Lineage
