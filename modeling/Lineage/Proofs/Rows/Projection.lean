import Lineage.Proofs.Rows.Drawing
import Lineage.Proofs.Via
import Lineage.Rows.Filter

/-!
# Lineage.Proofs.Rows.Projection

Layers that hide rows.  The bridges of a hidden row have to be the visible
rows at which a path down from it first arrives; then an edge of the layer is
a path of the inner rows through hidden ones.

* `Rows.Bridges` — the bridges are right.
* `Rows.bridges_bridgesOf` — those of the commit filter are.
* `Rows.consistent_projected` — hiding rows keeps a layer consistent.
-/

namespace Lineage

namespace Rows

variable {t : Rows} {visible : Nat → Bool} {bridges : Nat → List Nat}

/-! ## rows below a row -/

/-- An edge leads from a row down to another one. -/
def Below (t : Rows) (r d : Nat) : Prop := ∃ s, .row d s ∈ t.downOf r

theorem mem_downRows {r d : Nat} : d ∈ t.downRows r ↔ t.Below r d := by
  rw [downRows, List.mem_filterMap]
  constructor
  · rintro ⟨e, he, hd⟩
    cases e with
    | row k s => cases hd; exact ⟨s, he⟩
    | missing m => cases hd
  · rintro ⟨s, hs⟩
    exact ⟨.row d s, hs, rfl⟩

theorem Consistent.below_lt (ht : t.Consistent) {r d : Nat} (h : t.Below r d) :
    r < d ∧ d < t.size :=
  ht.below h.choose_spec

theorem Consistent.via_lt (ht : t.Consistent) {hidden : Nat → Prop} {r d : Nat}
    (h : Via t.Below hidden r d) : r < d ∧ d < t.size := by
  induction h with
  | single hab => exact ht.below_lt hab
  | cons ham _ _ ih =>
      have hlt := (ht.below_lt ham).1
      exact ⟨by omega, ih.2⟩

/-! ## projections -/

/-- The bridges of every hidden row: the visible rows at which a path down
from it through hidden rows arrives. -/
structure Bridges (t : Rows) (visible : Nat → Bool) (bridges : Nat → List Nat) : Prop where
  mem_iff : ∀ {d x}, d < t.size → visible d = false →
    (x ∈ bridges d ↔ visible x = true ∧ Via t.Below (visible · = false) d x)

/-- The targets of a row when others are hidden. -/
def targetsOf (t : Rows) (visible : Nat → Bool) (bridges : Nat → List Nat) (r : Nat) : List Down :=
  (t.downOf r).flatMap (bridged visible bridges)

theorem projected_eq_drawn (t : Rows) (visible : Nat → Bool) (bridges : Nat → List Nat) :
    t.projected visible bridges =
      t.drawn ((List.range t.size).filter visible) (t.targetsOf visible bridges) := rfl

theorem mem_filter_range {r : Nat} :
    r ∈ (List.range t.size).filter visible ↔ r < t.size ∧ visible r = true := by
  rw [List.mem_filter, List.mem_range]

theorem showable_filter (t : Rows) (visible : Nat → Bool) :
    t.Showable ((List.range t.size).filter visible) :=
  ⟨List.nodup_range.filter _, fun _ hr => (mem_filter_range.mp hr).1⟩

/-- A visible target is an edge of the inner row, or a bridge of a hidden row
below it. -/
theorem mem_row_targetsOf {r x : Nat} {s : Stroke} : .row x s ∈ t.targetsOf visible bridges r ↔
    (visible x = true ∧ .row x s ∈ t.downOf r) ∨
      (s = .dotted ∧ ∃ d, t.Below r d ∧ visible d = false ∧ x ∈ bridges d) := by
  rw [targetsOf, List.mem_flatMap]
  constructor
  · rintro ⟨e, he, hx⟩
    cases e with
    | missing m => simp [bridged] at hx
    | row d k =>
        by_cases hd : visible d = true
        · rw [bridged, if_pos hd, List.mem_singleton] at hx
          cases hx
          exact Or.inl ⟨hd, he⟩
        · rw [bridged, if_neg hd, List.mem_map] at hx
          obtain ⟨y, hy, heq⟩ := hx
          cases heq
          exact Or.inr ⟨rfl, d, ⟨k, he⟩, Bool.eq_false_iff.mpr hd, hy⟩
  · rintro (⟨hx, he⟩ | ⟨rfl, d, ⟨k, he⟩, hd, hx⟩)
    · exact ⟨_, he, by simp [bridged, hx]⟩
    · exact ⟨_, he, by simp [bridged, hd, hx]⟩

theorem mem_missing_targetsOf {r m : Nat} :
    .missing m ∈ t.targetsOf visible bridges r ↔ .missing m ∈ t.downOf r := by
  rw [targetsOf, List.mem_flatMap]
  constructor
  · rintro ⟨e, he, hm⟩
    cases e with
    | missing k => cases List.mem_singleton.mp hm; exact he
    | row d k => simp only [bridged] at hm; split at hm <;> simp at hm
  · exact fun hm => ⟨_, hm, List.mem_singleton_self _⟩

/-- A projection whose bridges lie below the rows they stand for. -/
theorem consistent_projected (ht : t.Consistent)
    (hbridges : ∀ {d x}, d < t.size → visible d = false → x ∈ bridges d → d < x) :
    (t.projected visible bridges).Consistent := by
  rw [projected_eq_drawn]
  refine consistent_drawn ht (showable_filter t visible) fun {r x s} hr hx htarget => ?_
  obtain ⟨_, hrv⟩ := mem_filter_range.mp hr
  obtain ⟨hxlt, hxv⟩ := mem_filter_range.mp hx
  have hlt : r < x := by
    rcases mem_row_targetsOf.mp htarget with ⟨_, he⟩ | ⟨_, d, hrd, hd, hxd⟩
    · exact (ht.below he).1
    · obtain ⟨hrd, hdlt⟩ := ht.below_lt hrd
      have := hbridges hdlt hd hxd
      omega
  have hpair := (pair_sublist_range hlt hxlt).filter visible
  rwa [List.filter_cons_of_pos hrv, List.filter_cons_of_pos hxv, List.filter_nil] at hpair

theorem Bridges.lt (ht : t.Consistent) (hb : t.Bridges visible bridges) {d x : Nat}
    (hd : d < t.size) (hhidden : visible d = false) (hx : x ∈ bridges d) : d < x :=
  (ht.via_lt ((hb.mem_iff hd hhidden).mp hx).2).1

theorem consistent_redrawn (ht : t.Consistent) : t.redrawn.Consistent :=
  consistent_projected ht fun _ h => by contradiction

/-! ## the filters -/

/-- The rows of a table of flags that are set. -/
theorem getD_flags (size : Nat) (f : Nat → Bool) (r : Nat) :
    ((List.range size).map f).toArray.getD r false = true ↔ r < size ∧ f r = true := by
  by_cases hr : r < size
  · simp [Array.getD_eq_getD_getElem?, hr]
  · simp [Array.getD_eq_getD_getElem?, hr]

theorem consistent_historyOnly (ht : t.Consistent) (keep : NodeId → Bool) :
    (t.historyOnly keep).Consistent :=
  consistent_projected ht fun _ _ h => absurd h List.not_mem_nil

theorem mem_ascending {rows : List Nat} {r : Nat} : r ∈ ascending rows ↔ r ∈ rows := by
  rw [ascending, List.mem_eraseDups, List.mem_mergeSort]

theorem mem_nearest {table : Array (List Nat)} {r x : Nat} :
    x ∈ t.nearest visible table r ↔ ∃ d, t.Below r d ∧
      (visible d = true ∧ x = d ∨ visible d = false ∧ x ∈ table.getD d []) := by
  rw [nearest, mem_ascending, List.mem_flatMap]
  simp only [mem_downRows]
  refine exists_congr fun d => and_congr_right fun _ => ?_
  by_cases hd : visible d = true
  · simp [hd]
  · simp [hd]

/-- The rows from `first` on have their bridges. -/
structure Filled (t : Rows) (visible : Nat → Bool) (first : Nat) (table : Array (List Nat)) :
    Prop where
  size_eq : table.size = t.size
  mem_iff : ∀ {d x}, first ≤ d → d < t.size → visible d = false →
    (x ∈ table.getD d [] ↔ visible x = true ∧ Via t.Below (visible · = false) d x)

/-- A hidden row gets its bridges.  The rows below it have theirs, since edges
lead down the rows. -/
theorem Filled.mem_nearest (ht : t.Consistent) {first x : Nat} {table : Array (List Nat)}
    (hf : t.Filled visible (first + 1) table) : x ∈ t.nearest visible table first ↔
      visible x = true ∧ Via t.Below (visible · = false) first x := by
  rw [Rows.mem_nearest]
  constructor
  · rintro ⟨m, hm, ⟨hmv, rfl⟩ | ⟨hmv, hx⟩⟩
    · exact ⟨hmv, .single hm⟩
    · obtain ⟨hlt, hmlt⟩ := ht.below_lt hm
      obtain ⟨hxv, hvia⟩ := (hf.mem_iff hlt hmlt hmv).mp hx
      exact ⟨hxv, .cons hm hmv hvia⟩
  · rintro ⟨hxv, hvia⟩
    cases hvia with
    | single hx => exact ⟨x, hx, Or.inl ⟨hxv, rfl⟩⟩
    | @cons _ m _ hm hmv hvia =>
        obtain ⟨hlt, hmlt⟩ := ht.below_lt hm
        exact ⟨m, hm, Or.inr ⟨hmv, (hf.mem_iff hlt hmlt hmv).mpr ⟨hxv, hvia⟩⟩⟩

theorem Filled.step (ht : t.Consistent) {first : Nat} {table : Array (List Nat)}
    (hlt : first < t.size) (hf : t.Filled visible (first + 1) table) :
    t.Filled visible first (if visible first then table
      else table.setIfInBounds first (t.nearest visible table first)) := by
  by_cases hv : visible first = true
  · rw [if_pos hv]
    refine ⟨hf.size_eq, fun {d x} hd hdlt hhidden => hf.mem_iff ?_ hdlt hhidden⟩
    have : d ≠ first := by
      rintro rfl
      simp [hv] at hhidden
    omega
  · rw [if_neg hv]
    refine ⟨by simpa using hf.size_eq, fun {d x} hd hdlt hhidden => ?_⟩
    rw [getD_setIfInBounds]
    by_cases hdf : first = d
    · subst hdf
      rw [if_pos ⟨rfl, hf.size_eq ▸ hlt⟩, hf.mem_nearest ht]
    · rw [if_neg (by simp [hdf])]
      exact hf.mem_iff (by omega) hdlt hhidden

/-- The bridges that the commit filter computes are right. -/
theorem bridges_bridgesOf (ht : t.Consistent) (visible : Nat → Bool) :
    t.Bridges visible fun r => (t.bridgesOf visible).getD r [] := by
  have hfill : ∀ count first, first + count = t.size →
      t.Filled visible first ((List.range' first count).foldr (fun row bridges =>
        if visible row then bridges else bridges.setIfInBounds row (t.nearest visible bridges row))
        (Array.replicate t.size [])) := by
    intro count
    induction count with
    | zero => exact fun first hfirst => ⟨by simp, fun hd hdlt => by omega⟩
    | succ count ih =>
        intro first hfirst
        rw [List.range'_succ, List.foldr_cons]
        exact (ih (first + 1) (by omega)).step ht (by omega)
  have hall := hfill t.size 0 (by omega)
  rw [← List.range_eq_range'] at hall
  exact ⟨fun hd hhidden => hall.mem_iff (Nat.zero_le _) hd hhidden⟩

theorem consistent_commitsOnly (ht : t.Consistent) (keep : NodeId → Bool) :
    (t.commitsOnly keep).Consistent :=
  consistent_projected ht fun hd hhidden hx => (bridges_bridgesOf ht _).lt ht hd hhidden hx

end Rows

end Lineage
