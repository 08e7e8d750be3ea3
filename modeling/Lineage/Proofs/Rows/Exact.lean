import Lineage.Proofs.Rows.Collapse
import Lineage.Proofs.Rows.Links

/-!
# Lineage.Proofs.Rows.Exact

Layers whose edges say what the history says.  An edge between two nodes that
are shown stands for a path of parent links through nodes that are not; it is
usual when the path is one link.

* `Rows.Exact` — the invariant, in terms of nodes.
* `Rows.exact_ofHistory` — the base layer has it.
* `Rows.Exact.projected` — hiding rows keeps it, if the bridges are right.
* `Rows.Exact.historyOnly` — for a set of nodes that holds their parents,
  no bridges are needed.
-/

namespace Lineage

namespace Rows

variable {t : Rows} {h : History} {u v : Nat} {s : Stroke}

/-! ## exact layers -/

/-- Every edge between nodes that are shown is a path through nodes that are
not, and the other way round. -/
structure Exact (t : Rows) (h : History) : Prop where
  consistent : t.Consistent
  joins_iff : ∀ {u v s}, t.Joins u v s ↔ t.Shows u ∧ t.Shows v ∧
    Via h.IsParent (fun n => ¬ t.Shows n) u v ∧ (s = .usual ↔ h.IsParent u v)
  lacks_iff : ∀ {u m}, t.Lacks u m ↔ t.Shows u ∧ .missing m ∈ h.parentsOf u

/-- The usual edges are the parent links. -/
theorem Exact.usual_iff (ht : t.Exact h) {r d : Nat} (hr : t.node? r = some u)
    (hd : t.node? d = some v) : .row d .usual ∈ t.downOf r ↔ h.IsParent u v := by
  rw [← ht.consistent.joins_iff_of_node? hr hd, ht.joins_iff]
  constructor
  · rintro ⟨_, _, _, hstroke⟩
    exact hstroke.mp rfl
  · intro hp
    exact ⟨⟨r, hr⟩, ⟨d, hd⟩, .single hp, iff_of_true rfl hp⟩

/-- An edge is a path of parents through nodes that are not shown. -/
theorem Exact.below_iff (ht : t.Exact h) {r d : Nat} (hr : t.node? r = some u)
    (hd : t.node? d = some v) :
    t.Below r d ↔ Via h.IsParent (fun n => ¬ t.Shows n) u v := by
  constructor
  · rintro ⟨s, hs⟩
    exact (ht.joins_iff.mp ⟨r, d, hr, hd, hs⟩).2.2.1
  · intro hvia
    have hjoins : ∀ s, (s = Stroke.usual ↔ h.IsParent u v) → t.Below r d := fun s hs =>
      ⟨s, (ht.consistent.joins_iff_of_node? hr hd).mp
        (ht.joins_iff.mpr ⟨⟨r, hr⟩, ⟨d, hd⟩, hvia, hs⟩)⟩
    by_cases hparent : h.IsParent u v
    · exact hjoins .usual (iff_of_true rfl hparent)
    · exact hjoins .dotted (iff_of_false (by simp) hparent)

/-- Following edges down leads to the ancestors that are shown. -/
theorem Exact.transGen_below_iff (ht : t.Exact h) {r d : Nat} (hr : t.node? r = some u)
    (hd : t.node? d = some v) :
    Relation.TransGen t.Below r d ↔ Relation.TransGen h.IsParent u v := by
  constructor
  · intro hpath
    induction hpath using Relation.TransGen.head_induction_on generalizing u with
    | single hedge => exact ((ht.below_iff hr hd).mp hedge).transGen
    | head hedge _ ih =>
        obtain ⟨w, hw⟩ := exists_node? (ht.consistent.below_lt hedge).2
        exact ((ht.below_iff hr hw).mp hedge).transGen.trans (ih hw)
  · intro hpath
    have hgroup := (via_true_iff.mpr hpath).group (S := t.Shows) (H := fun _ => True)
      (fun _ _ => trivial) ⟨r, hr⟩ ⟨d, hd⟩
    clear hpath
    induction hgroup generalizing r with
    | single hedge => exact .single ((ht.below_iff hr hd).mpr hedge.2.2)
    | @cons u w v hedge _ _ ih =>
        obtain ⟨x, hx⟩ := hedge.2.1
        exact .head ((ht.below_iff hr hx).mpr hedge.2.2) (ih hx hd)

/-! ## the base layer -/

section Base

variable {o : RowOrder}

theorem node?_ofHistory_eq_some_iff (ho : o.Topological h) {r n : Nat} :
    (ofHistory h o).node? r = some n ↔ n < h.size ∧ o.rowOf n = r := by
  rw [node?_ofHistory]
  constructor
  · intro hr
    split at hr
    · next hlt =>
        rw [← Option.some.inj hr]
        exact ⟨ho.nodeAt_lt hlt, ho.rowOf_nodeAt hlt⟩
    · contradiction
  · rintro ⟨hn, rfl⟩
    rw [if_pos (ho.rowOf_lt hn), ho.nodeAt_rowOf hn]

theorem shows_ofHistory (ho : o.Topological h) {n : Nat} :
    (ofHistory h o).Shows n ↔ n < h.size := by
  simp only [Shows, node?_ofHistory_eq_some_iff ho]
  constructor
  · rintro ⟨_, hn, _⟩
    exact hn
  · exact fun hn => ⟨_, hn, rfl⟩

/-- The base layer joins nodes to their parents. -/
theorem joins_ofHistory (hs : h.Sound) (ho : o.Topological h) :
    (ofHistory h o).Joins u v s ↔ u < h.size ∧ h.IsParent u v ∧ s = .usual := by
  simp only [Joins, node?_ofHistory_eq_some_iff ho, mem_downOf_ofHistory]
  constructor
  · rintro ⟨_, _, ⟨hu, rfl⟩, ⟨hv, rfl⟩, _, rfl, p, hp, hrow⟩
    rw [ho.nodeAt_rowOf hu] at hp
    have hnode := congrArg o.nodeAt hrow
    rw [ho.nodeAt_rowOf (hs.linked.parent_lt hp), ho.nodeAt_rowOf hv] at hnode
    exact ⟨hu, hnode ▸ hp, rfl⟩
  · rintro ⟨hu, hp, rfl⟩
    refine ⟨_, _, ⟨hu, rfl⟩, ⟨hs.linked.parent_lt hp, rfl⟩, ho.rowOf_lt hu, rfl, v, ?_, rfl⟩
    rwa [ho.nodeAt_rowOf hu]

theorem missing_mem_filterMap_downTo {m : Nat} {ids : List NodeId} :
    .missing m ∈ ids.filterMap (downTo o) ↔ .missing m ∈ ids := by
  rw [List.mem_filterMap]
  constructor
  · rintro ⟨id, hid, hm⟩
    cases id with
    | loaded p => cases hm
    | none => cases hm
    | missing k => cases hm; exact hid
  · exact fun hm => ⟨_, hm, rfl⟩

theorem lacks_ofHistory (ho : o.Topological h) {m : Nat} :
    (ofHistory h o).Lacks u m ↔ u < h.size ∧ .missing m ∈ h.parentsOf u := by
  simp only [Lacks, node?_ofHistory_eq_some_iff ho]
  constructor
  · rintro ⟨_, ⟨hu, rfl⟩, hmem⟩
    rw [downOf_ofHistory, if_pos (ho.rowOf_lt hu), ho.nodeAt_rowOf hu,
      missing_mem_filterMap_downTo] at hmem
    exact ⟨hu, hmem⟩
  · rintro ⟨hu, hmem⟩
    refine ⟨_, ⟨hu, rfl⟩, ?_⟩
    rwa [downOf_ofHistory, if_pos (ho.rowOf_lt hu), ho.nodeAt_rowOf hu,
      missing_mem_filterMap_downTo]

theorem exact_ofHistory (hs : h.Sound) (ho : o.Topological h) : (ofHistory h o).Exact h where
  consistent := consistent_ofHistory hs ho
  joins_iff {u v s} := by
    simp only [shows_ofHistory ho, joins_ofHistory hs ho]
    constructor
    · rintro ⟨hu, hp, rfl⟩
      exact ⟨hu, hs.linked.parent_lt hp, .single hp, iff_of_true rfl hp⟩
    · rintro ⟨hu, hv, hvia, hstroke⟩
      have hp : h.IsParent u v := by
        cases hvia with
        | single hp => exact hp
        | cons hm hhidden _ => exact absurd (hs.linked.parent_lt hm) hhidden
      exact ⟨hu, hp, hstroke.mpr hp⟩
  lacks_iff {u m} := by
    rw [shows_ofHistory ho, lacks_ofHistory ho]

end Base

/-! ## projections -/

section Projected

variable {visible : Nat → Bool} {bridges : Nat → List Nat}

/-- A path of rows through hidden ones, as a path of parents. -/
theorem Exact.via_of_rows (ht : t.Exact h) {r x : Nat} (hvia : Via t.Below (visible · = false) r x)
    (hu : t.node? r = some u) (hv : t.node? x = some v) :
    Via h.IsParent (fun n => ¬ (t.projected visible bridges).Shows n) u v := by
  have hedge : ∀ {r x u v}, t.Below r x → t.node? r = some u → t.node? x = some v →
      Via h.IsParent (fun n => ¬ (t.projected visible bridges).Shows n) u v := by
    rintro r x u v ⟨s, hs⟩ hu hv
    refine (ht.joins_iff.mp ⟨r, x, hu, hv, hs⟩).2.2.1.mono id fun {n} hn hshown => hn ?_
    obtain ⟨y, hy, _⟩ := shows_projected.mp hshown
    exact ⟨y, hy⟩
  induction hvia generalizing u with
  | single he => exact hedge he hu hv
  | @cons r m x hm hhidden _ ih =>
      obtain ⟨w, hw⟩ := exists_node? (ht.consistent.below_lt hm).2
      refine (hedge hm hu hw).trans (fun hshown => ?_) (ih hw hv)
      obtain ⟨y, hy, hyv⟩ := shows_projected.mp hshown
      rw [ht.consistent.node?_inj hy hw, hhidden] at hyv
      contradiction

/-- A path of parents through nodes that are not shown, as a path of rows. -/
theorem Exact.rows_of_via (ht : t.Exact h) {r x : Nat} (hu : t.node? r = some u)
    (hv : t.node? x = some v)
    (hvia : Via h.IsParent (fun n => ¬ (t.projected visible bridges).Shows n) u v) :
    Via t.Below (visible · = false) r x := by
  have hgroup := hvia.group (S := t.Shows)
    (H := fun n => ¬ (t.projected visible bridges).Shows n) (fun hn _ => hn) ⟨r, hu⟩ ⟨x, hv⟩
  clear hvia
  induction hgroup generalizing r with
  | single he => exact .single ((ht.below_iff hu hv).mpr he.2.2)
  | @cons u w v hm hhidden _ ih =>
      obtain ⟨y, hy⟩ := hm.2.1
      have hyv : visible y = false := Bool.eq_false_iff.mpr fun hyv =>
        hhidden (shows_projected.mpr ⟨y, hy, hyv⟩)
      exact .cons ((ht.below_iff hu hy).mpr hm.2.2) hyv (ih hy hv)

/-- Hiding rows keeps a layer exact, if the bridges are right. -/
theorem Exact.projected (ht : t.Exact h) (hb : t.Bridges visible bridges) :
    (t.projected visible bridges).Exact h where
  consistent := consistent_projected ht.consistent fun hd hhidden hx =>
    hb.lt ht.consistent hd hhidden hx
  joins_iff {u v s} := by
    rw [joins_projected ht.consistent hb]
    constructor
    · rintro ⟨r, x, hr, hx, hvia, hstroke⟩
      refine ⟨shows_projected.mpr ⟨r, hr⟩, shows_projected.mpr ⟨x, hx⟩,
        ht.via_of_rows hvia hr.1 hx.1, ?_⟩
      rw [hstroke, ht.usual_iff hr.1 hx.1]
    · rintro ⟨hu, hv, hvia, hstroke⟩
      obtain ⟨r, hr⟩ := shows_projected.mp hu
      obtain ⟨x, hx⟩ := shows_projected.mp hv
      refine ⟨r, x, hr, hx, ht.rows_of_via hr.1 hx.1 hvia, ?_⟩
      rw [hstroke, ht.usual_iff hr.1 hx.1]
  lacks_iff {u m} := by
    rw [lacks_projected, shows_projected]
    constructor
    · rintro ⟨r, hr, hmem⟩
      exact ⟨⟨r, hr⟩, (ht.lacks_iff.mp ⟨r, hr.1, hmem⟩).2⟩
    · rintro ⟨⟨r, hr⟩, hmem⟩
      obtain ⟨r', hr', hmem⟩ := ht.lacks_iff.mpr ⟨⟨r, hr.1⟩, hmem⟩
      exact ⟨r, hr, ht.consistent.node?_inj hr.1 hr' ▸ hmem⟩

end Projected

/-! ## the layers -/

theorem Exact.commitsOnly (ht : t.Exact h) (keep : NodeId → Bool) : (t.commitsOnly keep).Exact h :=
  ht.projected (bridges_bridgesOf ht.consistent _)

theorem Exact.collapsed (ht : t.Exact h) (isBranch : NodeId → Bool) (least : Nat) :
    (t.collapsed isBranch least).Exact h := by
  rw [collapsed_eq_projected]
  exact ht.projected (bridges_collapsed t isBranch least)

theorem Exact.redrawn (ht : t.Exact h) : t.redrawn.Exact h :=
  ht.projected ⟨fun _ hhidden => by contradiction⟩

/-- A set of nodes that holds their parents keeps the rows below those it
keeps. -/
theorem Exact.keeps_of_below (ht : t.Exact h) {keep : NodeId → Bool}
    (hclosed : ∀ {u v}, keep (.loaded u) = true → h.IsParent u v → keep (.loaded v) = true)
    {r d : Nat} (hr : t.keeps keep r = true) (hd : t.Below r d) : t.keeps keep d = true := by
  obtain ⟨hlt, hdlt⟩ := ht.consistent.below_lt hd
  obtain ⟨u, hu⟩ := exists_node? (Nat.lt_trans hlt hdlt)
  obtain ⟨v, hv⟩ := exists_node? hdlt
  have hpath := ((ht.below_iff hu hv).mp hd).transGen
  rw [keeps_iff hu] at hr
  rw [keeps_iff hv]
  clear hv
  induction hpath with
  | single hp => exact hclosed hr hp
  | tail _ hp ih => exact hclosed ih hp

/-- So such a set hides no row below one that it shows, and the bridges do not
matter. -/
theorem Exact.historyOnly_eq_commitsOnly (ht : t.Exact h) {keep : NodeId → Bool}
    (hclosed : ∀ {u v}, keep (.loaded u) = true → h.IsParent u v → keep (.loaded v) = true) :
    t.historyOnly keep = t.commitsOnly keep := by
  refine drawn_congr fun r hr => List.flatMap_congr fun e he => ?_
  cases e with
  | missing m => rfl
  | row d s =>
      have hkeep := ((getD_flags _ _ _).mp (mem_filter_range.mp hr).2).2
      have hvisible := (getD_flags t.size (t.keeps keep) d).mpr
        ⟨(ht.consistent.below he).2, ht.keeps_of_below hclosed hkeep ⟨s, he⟩⟩
      rw [bridged, bridged, if_pos hvisible, if_pos hvisible]

theorem Exact.historyOnly (ht : t.Exact h) {keep : NodeId → Bool}
    (hclosed : ∀ {u v}, keep (.loaded u) = true → h.IsParent u v → keep (.loaded v) = true) :
    (t.historyOnly keep).Exact h := by
  rw [ht.historyOnly_eq_commitsOnly hclosed]
  exact ht.commitsOnly keep

end Rows

end Lineage
