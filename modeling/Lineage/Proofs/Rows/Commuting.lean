import Mathlib.Data.List.Sort
import Lineage.Proofs.Rows.Twice

/-!
# Lineage.Proofs.Rows.Commuting

The two filters, one over the other.  Where a history holds whatever is below
it, no edge leaves it and no path does, so the bridges of a row in it are the
same over the whole layer and over the history alone: they are in ascending
order in both, and hiding the other rows does not change the order.

* `Rows.ascending_bridgesOf` — bridges are in ascending order.
* `Rows.through_bridgesOf` — the bridges over a history.
* `Rows.historyOnly_commitsOnly` — the filters may change places.
-/

namespace Lineage

namespace Rows

variable {t : Rows} {visible chosen kept visible' : Nat → Bool} {r x i k : Nat}

/-! ## bridges in order -/

theorem sublist_eraseDups {β : Type} [BEq β] [LawfulBEq β] (xs : List β) :
    xs.eraseDups.Sublist xs := by
  induction xs using List.reverseRecOn with
  | nil => exact List.Sublist.refl _
  | append_singleton xs x ih =>
      rw [eraseDups_append_singleton]
      split
      · exact ih.trans (List.sublist_append_left xs [x])
      · exact ih.append_right [x]

theorem pairwise_ascending (rows : List Nat) : (ascending rows).Pairwise (· < ·) := by
  have hsorted : (rows.mergeSort (· ≤ ·)).Pairwise (· ≤ ·) :=
    List.pairwise_mergeSort' (· ≤ ·) rows
  exact ((hsorted.sublist (sublist_eraseDups _)).and (nodup_eraseDups _)).imp
    fun ⟨hle, hne⟩ => Nat.lt_of_le_of_ne hle hne

theorem ascending_bridgesOf (t : Rows) (visible : Nat → Bool) (r : Nat) :
    ((t.bridgesOf visible).getD r []).Pairwise (· < ·) := by
  have hfold : ∀ rows : List Nat, (((rows.foldr (fun row bridges =>
      if visible row then bridges else bridges.setIfInBounds row (t.nearest visible bridges row))
      (Array.replicate t.size [])).getD r []).Pairwise (· < ·)) := by
    intro rows
    induction rows with
    | nil =>
        by_cases hr : r < t.size <;> simp [Array.getD_eq_getD_getElem?, hr]
    | cons row rows ih =>
        rw [List.foldr_cons]
        split
        · exact ih
        · rw [getD_setIfInBounds]
          split
          · exact pairwise_ascending _
          · exact ih
  exact hfold _

/-! ## the rows of a history -/

/-- A path from a kept row leads to one. -/
theorem kept_of_via {hidden : Nat → Prop}
    (hclosed : ∀ {r d}, kept r = true → t.Below r d → kept d = true) (hr : kept r = true)
    (hvia : Via t.Below hidden r x) : kept x = true := by
  induction hvia with
  | single hrx => exact hclosed hr hrx
  | cons hrm _ _ ih => exact ih (hclosed hr hrm)

section Kept

variable (ht : t.Consistent) {shown : List Nat}
  (hclosed : ∀ {r d}, kept r = true → t.Below r d → kept d = true)
  (hshown : shown = (List.range t.size).filter kept)

include hshown

theorem getElem?_kept (hr : shown[i]? = some r) : r < t.size ∧ kept r = true := by
  rw [hshown] at hr
  exact mem_filter_range.mp (List.mem_of_getElem? hr)

theorem exists_place_kept (hr : r < t.size) (hkept : kept r = true) :
    ∃ i : Nat, shown[i]? = some r :=
  List.mem_iff_getElem?.mp (hshown ▸ mem_filter_range.mpr ⟨hr, hkept⟩)

/-- Without bridges, the edges between rows that are kept stay. -/
theorem below_kept (hr : shown[i]? = some r) : (t.projected kept fun _ => []).Below i k ↔
    ∃ x, shown[k]? = some x ∧ t.Below r x := by
  have htarget : ∀ {x s}, .row x s ∈ t.targetsOf kept (fun _ => []) r ↔
      kept x = true ∧ .row x s ∈ t.downOf r := by
    simp [mem_row_targetsOf]
  have hdrawn : t.projected kept (fun _ => []) = t.drawn shown (t.targetsOf kept fun _ => []) := by
    rw [projected_eq_drawn, hshown]
  simp only [Below, hdrawn, mem_row_downOf_drawn (hshown ▸ showable_filter t kept) hr, htarget]
  constructor
  · rintro ⟨_, x, hx, ⟨s, _, hs⟩, _⟩
    exact ⟨x, hx, s, hs⟩
  · rintro ⟨x, hx, s, hs⟩
    have hkept := (getElem?_kept hshown hx).2
    by_cases husual : .row x .usual ∈ t.downOf r
    · exact ⟨.usual, x, hx, ⟨s, hkept, hs⟩, by simp [hkept, husual]⟩
    · exact ⟨.dotted, x, hx, ⟨s, hkept, hs⟩, by simp [husual]⟩

include ht hclosed

/-- Paths of kept rows are paths in the layer. -/
theorem via_kept {hidden hidden' : Nat → Prop}
    (hhidden : ∀ {i r}, shown[i]? = some r → (hidden' i ↔ hidden r)) (hr : shown[i]? = some r)
    (hx : shown[k]? = some x) :
    Via (t.projected kept fun _ => []).Below hidden' i k ↔ Via t.Below hidden r x := by
  have hnodup : shown.Nodup := hshown ▸ List.nodup_range.filter _
  constructor
  · intro hvia
    obtain ⟨y, hy, hvia⟩ := hvia.simulate (fun i r => shown[i]? = some r)
      (fun hij hi => (below_kept hshown hi).mp hij) (fun hh hi => (hhidden hi).mp hh) hr
    rwa [Option.some.inj (hx.symm.trans hy)]
  · intro hvia
    obtain ⟨j, hj, hvia⟩ := hvia.simulate (fun r i => shown[i]? = some r) (fun {r d i} hrd hi => by
      obtain ⟨j, hj⟩ := exists_place_kept hshown (ht.below_lt hrd).2
        (hclosed (getElem?_kept hshown hi).2 hrd)
      exact ⟨j, hj, (below_kept hshown hi).mpr ⟨d, hj, hrd⟩⟩) (fun hh hi => (hhidden hi).mpr hh) hr
    obtain ⟨hlt, _⟩ := List.getElem?_eq_some_iff.mp hx
    rwa [(List.getElem?_inj hlt hnodup).mp (Eq.trans hx hj.symm)]

/-- The bridges of a row of a history are the same over the layer and over the
history alone. -/
theorem through_bridgesOf (hvisible : ∀ {i r}, shown[i]? = some r → visible' i = chosen r)
    (hx : shown[k]? = some x) (hhidden : chosen x = false) :
    through shown (((t.projected kept fun _ => []).bridgesOf visible').getD k []) =
      (t.bridgesOf chosen).getD x [] := by
  have hw : (t.projected kept fun _ => []).Consistent :=
    consistent_projected ht fun _ _ h => absurd h List.not_mem_nil
  have hk : k < (t.projected kept fun _ => []).size := by
    rw [projected_eq_drawn, size_drawn (showable_filter t kept), ← hshown]
    exact (List.getElem?_eq_some_iff.mp hx).1
  have hrows : shown.Pairwise (· < ·) := hshown ▸ List.pairwise_lt_range.filter _
  have hascending := ascending_through hrows
    (ascending_bridgesOf (t.projected kept fun _ => []) visible' k)
  have hvia : ∀ {j y}, shown[j]? = some y →
      (Via (t.projected kept fun _ => []).Below (visible' · = false) k j ↔
        Via t.Below (chosen · = false) x y) := fun hy =>
    via_kept ht hclosed hshown (fun hr => by rw [hvisible hr]) hx hy
  refine hascending.sortedLT.eq_of_mem_iff (ascending_bridgesOf t chosen x).sortedLT fun y => ?_
  have hxlt : x < t.size := (getElem?_kept hshown hx).1
  have hbridges := (bridges_bridgesOf ht chosen).mem_iff (x := y) hxlt hhidden
  have hhidden' : visible' k = false := by rw [hvisible hx, hhidden]
  rw [hbridges, mem_through]
  simp only [(bridges_bridgesOf hw visible').mem_iff hk hhidden']
  constructor
  · rintro ⟨j, ⟨hj, hpath⟩, hy⟩
    exact ⟨by rwa [← hvisible hy], (hvia hy).mp hpath⟩
  · rintro ⟨hy, hpath⟩
    obtain ⟨j, hj⟩ := exists_place_kept hshown (ht.via_lt hpath).2
      (kept_of_via hclosed (getElem?_kept hshown hx).2 hpath)
    exact ⟨j, ⟨by rwa [hvisible hj], (hvia hj).mpr hpath⟩, hj⟩

/-- Bridges over a history are bridges over the layer, seen from the history. -/
theorem projected_kept (hvisible : ∀ {i r}, shown[i]? = some r → visible' i = chosen r) :
    (t.projected kept fun _ => []).projected visible'
        (fun i => ((t.projected kept fun _ => []).bridgesOf visible').getD i []) =
      t.drawn ((List.range t.size).filter fun r => chosen r && kept r)
        (t.targetsOf chosen fun r => (t.bridgesOf chosen).getD r []) := by
  have h : t.Showable shown := hshown ▸ showable_filter t kept
  obtain ⟨hnodup, hlt⟩ := picked_places shown.length visible'
  have hcommon : through shown ((List.range shown.length).filter visible') =
      (List.range t.size).filter fun r => chosen r && kept r := by
    rw [through_filter hvisible, hshown, List.filter_filter]
  rw [← hcommon]
  refine projected_projected hshown rfl fun {i r d} _ hr hd => ?_
  cases d with
  | missing m => rfl
  | row x s =>
      have hx : kept x = true := hclosed (getElem?_kept hshown hr).2 ⟨s, hd⟩
      obtain ⟨k, hk⟩ := exists_place_kept hshown (ht.below hd).2 hx
      rw [bridged, if_pos hx, List.filterMap_cons_some (moved_row h hk s), List.filterMap_nil,
        List.flatMap_singleton, bridged, bridged, hvisible hk]
      cases hchosen : chosen x with
      | true =>
          have hsame := moved_through h hnodup hlt (.row x s)
          rw [moved_row h hk, Option.bind_some] at hsame
          rw [if_pos rfl, if_pos rfl]
          simp only [List.filterMap_cons, List.filterMap_nil, hsame]
      | false =>
          rw [if_neg (by simp), if_neg (by simp),
            ← through_bridgesOf ht hclosed hshown hvisible hk hchosen,
            filterMap_moved_through h hnodup hlt]

end Kept

/-- No edge or bridge of a row of a history leads out of it. -/
theorem projected_chosen (ht : t.Consistent) {shown : List Nat} {bridges : Nat → List Nat}
    (hclosed : ∀ {r d}, kept r = true → t.Below r d → kept d = true)
    (hshown : shown = (List.range t.size).filter chosen) (hb : t.Bridges chosen bridges)
    (hvisible : ∀ {i r}, shown[i]? = some r → visible' i = kept r) :
    (t.projected chosen bridges).projected visible' (fun _ => []) =
      t.drawn ((List.range t.size).filter fun r => kept r && chosen r)
        (t.targetsOf chosen bridges) := by
  have h : t.Showable shown := hshown ▸ showable_filter t chosen
  obtain ⟨hnodup, hlt⟩ := picked_places shown.length visible'
  have hcommon : through shown ((List.range shown.length).filter visible') =
      (List.range t.size).filter fun r => kept r && chosen r := by
    rw [through_filter hvisible, hshown, List.filter_filter]
  rw [← hcommon]
  refine projected_projected hshown rfl fun {i r d} hi hr hd => ?_
  have hkept : kept r = true := hvisible hr ▸ (List.mem_filter.mp hi).2
  have hinside : ∀ {y s}, .row y s ∈ bridged chosen bridges d → kept y = true := by
    intro y s hy
    cases d with
    | missing m => simp [bridged] at hy
    | row x s' =>
        have hx := hclosed hkept ⟨s', hd⟩
        rw [bridged] at hy
        split at hy
        · obtain ⟨rfl, _⟩ := Down.row.inj (List.mem_singleton.mp hy)
          exact hx
        · next hhidden =>
            obtain ⟨y', hy', heq⟩ := List.mem_map.mp hy
            obtain ⟨rfl, _⟩ := Down.row.inj heq
            have hbridge := (hb.mem_iff (ht.below hd).2 (Bool.eq_false_iff.mpr hhidden)).mp hy'
            exact kept_of_via hclosed hx hbridge.2
  have hstays : ∀ e ∈ (bridged chosen bridges d).filterMap (Down.moved (positions t.size shown)),
      bridged visible' (fun _ => []) e = [e] := by
    intro e he
    cases e with
    | missing m => rfl
    | row k s =>
        obtain ⟨y, hy, hmem⟩ := (mem_row_moved h).mp he
        rw [bridged, if_pos (by rw [hvisible hy, hinside hmem])]
  rw [List.flatMap_congr hstays, List.flatMap_singleton', List.filterMap_filterMap]
  exact List.filterMap_congr fun e _ => moved_through h hnodup hlt e

/-! ## the filters -/

/-- The flags of the rows that a filter keeps. -/
def flag (t : Rows) (keep : NodeId → Bool) (r : Nat) : Bool :=
  ((List.range t.size).map (t.keeps keep)).toArray.getD r false

theorem flag_eq_true_iff {keep : NodeId → Bool} :
    t.flag keep r = true ↔ r < t.size ∧ t.keeps keep r = true := getD_flags _ _ _

theorem commitsOnly_eq_projected (t : Rows) (keep : NodeId → Bool) : t.commitsOnly keep =
    t.projected (t.flag keep) fun r => (t.bridgesOf (t.flag keep)).getD r [] := rfl

theorem historyOnly_eq_projected (t : Rows) (inside : NodeId → Bool) :
    t.historyOnly inside = t.projected (t.flag inside) fun _ => [] := rfl

/-- A filter over a projection asks about the nodes that the inner rows show. -/
theorem flag_projected (bridges : Nat → List Nat) (keep : NodeId → Bool)
    (hr : ((List.range t.size).filter visible)[i]? = some r) :
    (t.projected visible bridges).flag keep i = t.flag keep r := by
  have h := showable_filter t visible
  obtain ⟨n, hn⟩ := exists_node? (h.lt_size r (List.mem_of_getElem? hr))
  have hi : (t.projected visible bridges).node? i = some n := by
    rw [projected_eq_drawn, node?_drawn h, hr, Option.bind_some, hn]
  rw [flag, flag, getD_keeps hi, getD_keeps hn]

/-- The filters may change places, if no edge leaves the history. -/
theorem historyOnly_commitsOnly (ht : t.Consistent) {keep inside : NodeId → Bool}
    (hclosed : ∀ {r d}, t.keeps inside r = true → t.Below r d → t.keeps inside d = true) :
    (t.commitsOnly keep).historyOnly inside = (t.historyOnly inside).commitsOnly keep := by
  have hflag : ∀ {r d}, t.flag inside r = true → t.Below r d → t.flag inside d = true :=
    fun hr hd => flag_eq_true_iff.mpr
      ⟨(ht.below_lt hd).2, hclosed (flag_eq_true_iff.mp hr).2 hd⟩
  calc (t.commitsOnly keep).historyOnly inside
      = t.drawn ((List.range t.size).filter fun r => t.flag inside r && t.flag keep r)
          (t.targetsOf (t.flag keep) fun r => (t.bridgesOf (t.flag keep)).getD r []) := by
        rw [historyOnly_eq_projected, commitsOnly_eq_projected]
        exact projected_chosen ht hflag rfl (bridges_bridgesOf ht _) (flag_projected _ inside)
    _ = t.drawn ((List.range t.size).filter fun r => t.flag keep r && t.flag inside r)
          (t.targetsOf (t.flag keep) fun r => (t.bridgesOf (t.flag keep)).getD r []) := by
        simp only [Bool.and_comm]
    _ = (t.historyOnly inside).commitsOnly keep := by
        rw [commitsOnly_eq_projected, historyOnly_eq_projected]
        exact (projected_kept ht hflag rfl (flag_projected _ keep)).symm

end Rows

end Lineage
