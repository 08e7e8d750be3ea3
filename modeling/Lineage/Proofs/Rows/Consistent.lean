import Mathlib.Data.List.Count
import Lineage.Proofs.ChildrenFirst
import Lineage.Rows

/-!
# Lineage.Proofs.Rows.Consistent

What every layer keeps: its two node tables invert each other, its edges lead
down the rows, and the edges toward children are the edges toward parents
seen from below.

* `Rows.Consistent` — the invariant.
* `Rows.Contract` — what it means for the queries of a layer;
  `Rows.Consistent.contract`.
* `Rows.consistent_ofHistory` — a base layer has it when its order shows
  every node, children above parents.
-/

namespace Lineage

namespace Rows

/-- The invariant of a layer. -/
structure Consistent (t : Rows) : Prop where
  rowOf?_iff : ∀ {n r}, t.rowOf? (.loaded n) = some r ↔ t.node? r = some n
  below : ∀ {r d s}, .row d s ∈ t.downOf r → r < d ∧ d < t.size
  mirror : ∀ u d s, (t.upOf d).count ⟨u, s⟩ = (t.downOf u).count (.row d s)
  downOf_of_le : ∀ {r}, t.size ≤ r → t.downOf r = []

variable {t : Rows}

theorem node?_isSome_iff (t : Rows) (r : Nat) : (t.node? r).isSome = true ↔ r < t.size := by
  simp [node?, size]

theorem lt_size_of_node? {r n : Nat} (hn : t.node? r = some n) : r < t.size := by
  rw [← node?_isSome_iff, hn]
  rfl

theorem exists_node? {r : Nat} (hr : r < t.size) : ∃ n, t.node? r = some n :=
  Option.isSome_iff_exists.mp ((node?_isSome_iff t r).mpr hr)

namespace Consistent

theorem mem_upOf (ht : t.Consistent) {u d : Nat} {s : Stroke} :
    ⟨u, s⟩ ∈ t.upOf d ↔ .row d s ∈ t.downOf u := by
  rw [← List.count_pos_iff, ht.mirror, List.count_pos_iff]

theorem up_lt (ht : t.Consistent) {d : Nat} {e : Up} (he : e ∈ t.upOf d) :
    e.row < d ∧ d < t.size :=
  ht.below (ht.mem_upOf.mp he)

theorem lt_size_of_mem_downOf (ht : t.Consistent) {r : Nat} {d : Down} (hd : d ∈ t.downOf r) :
    r < t.size := by
  by_contra hge
  rw [ht.downOf_of_le (Nat.le_of_not_lt hge)] at hd
  exact absurd hd List.not_mem_nil

/-- No node has two rows. -/
theorem node?_inj (ht : t.Consistent) {r r' n : Nat} (hr : t.node? r = some n)
    (hr' : t.node? r' = some n) : r = r' := by
  rw [← ht.rowOf?_iff] at hr hr'
  exact Option.some.inj (hr.symm.trans hr')

end Consistent

/-! ## queries of a layer -/

/-- What the queries of a layer promise to whoever reads it. -/
structure Contract (t : Rows) : Prop where
  /-- A node id has a row when that row shows it; no other id has one. -/
  rowOf?_iff : ∀ id r, t.rowOf? id = some r ↔
    r < t.size ∧ (t.node? r).map NodeId.loaded = some id
  /-- An edge toward parents leads to a row further down, or to a
  placeholder. -/
  down_edges : ∀ r, ∀ e ∈ t.edges r .down, e.up = r ∧
    ((∃ d s, e.down = .row d s ∧ r < d ∧ d < t.size) ∨ ∃ m, e.down = .missing m)
  /-- An edge toward children leads to a row further up. -/
  up_edges : ∀ d, ∀ e ∈ t.edges d .up, e.up < d ∧ e.down.row? = some d
  /-- Both ends of two rows see the same edges between them. -/
  perm : ∀ u d, ((t.edges d .up).filter (·.up = u)).Perm
    ((t.edges u .down).filter (·.down.row? = some d))

theorem count_edges_down (t : Rows) (r : Nat) (d : Down) :
    (t.edges r .down).count ⟨r, d⟩ = (t.downOf r).count d :=
  List.count_map_of_injective _ (fun d => (⟨r, d⟩ : Edge)) (fun _ _ h => (Edge.mk.inj h).2) d

theorem count_edges_up (t : Rows) (u d : Nat) (s : Stroke) :
    (t.edges d .up).count ⟨u, .row d s⟩ = (t.upOf d).count ⟨u, s⟩ := by
  refine List.count_map_of_injective _ (fun e : Up => (⟨e.row, .row d e.stroke⟩ : Edge)) ?_ ⟨u, s⟩
  rintro ⟨r, s⟩ ⟨r', s'⟩ heq
  obtain ⟨rfl, hdown⟩ := Edge.mk.inj heq
  obtain ⟨_, rfl⟩ := Down.row.inj hdown
  rfl

theorem mem_edges_down {r : Nat} {e : Edge} :
    e ∈ t.edges r .down ↔ e.up = r ∧ e.down ∈ t.downOf r := by
  simp only [edges, List.mem_map]
  constructor
  · rintro ⟨d, hd, rfl⟩
    exact ⟨rfl, hd⟩
  · rintro ⟨rfl, hd⟩
    exact ⟨e.down, hd, rfl⟩

theorem mem_edges_up {d : Nat} {e : Edge} :
    e ∈ t.edges d .up ↔ ∃ s, e.down = .row d s ∧ ⟨e.up, s⟩ ∈ t.upOf d := by
  simp only [edges, List.mem_map]
  constructor
  · rintro ⟨⟨u, s⟩, hu, rfl⟩
    exact ⟨s, rfl, hu⟩
  · rintro ⟨s, hs, hu⟩
    exact ⟨⟨e.up, s⟩, hu, by cases e; cases hs; rfl⟩

theorem Consistent.perm_edges (ht : t.Consistent) (u d : Nat) :
    ((t.edges d .up).filter (·.up = u)).Perm
      ((t.edges u .down).filter (·.down.row? = some d)) := by
  rw [List.perm_iff_count]
  intro e
  by_cases he : e.up = u ∧ ∃ s, e.down = .row d s
  · obtain ⟨rfl, s, hs⟩ := he
    obtain ⟨u, _⟩ := e
    obtain rfl := hs
    rw [List.count_filter (by simp), List.count_filter (by simp [Down.row?]), count_edges_up,
      count_edges_down, ht.mirror]
  · rw [List.count_eq_zero_of_not_mem, List.count_eq_zero_of_not_mem]
    · intro hmem
      obtain ⟨hmem, hrow⟩ := List.mem_filter.mp hmem
      refine he ⟨(mem_edges_down.mp hmem).1, ?_⟩
      cases hdown : e.down with
      | row d' s => simp [hdown, Down.row?] at hrow; exact ⟨s, by rw [hrow]⟩
      | missing m => simp [hdown, Down.row?] at hrow
    · intro hmem
      obtain ⟨hmem, hup⟩ := List.mem_filter.mp hmem
      obtain ⟨s, hs, _⟩ := mem_edges_up.mp hmem
      exact he ⟨by simpa using hup, s, hs⟩

/-- A consistent layer keeps its promise. -/
theorem Consistent.contract (ht : t.Consistent) : t.Contract where
  rowOf?_iff id r := by
    cases id with
    | loaded n =>
        rw [ht.rowOf?_iff, Option.map_eq_some_iff]
        simp only [NodeId.loaded.injEq, exists_eq_right]
        exact (and_iff_right_of_imp lt_size_of_node?).symm
    | none => simp [rowOf?]
    | missing m => simp [rowOf?]
  down_edges r e he := by
    obtain ⟨hup, hmem⟩ := mem_edges_down.mp he
    refine ⟨hup, ?_⟩
    cases hdown : e.down with
    | row d s => exact Or.inl ⟨d, s, rfl, ht.below (hdown ▸ hmem)⟩
    | missing m => exact Or.inr ⟨m, rfl⟩
  up_edges d e he := by
    obtain ⟨s, hs, hup⟩ := mem_edges_up.mp he
    exact ⟨(ht.up_lt hup).1, by rw [hs, Down.row?]⟩
  perm := ht.perm_edges

/-! ## the base layer -/

section Base

variable {h : History} {o : RowOrder} {r : Nat}

@[simp] theorem size_ofHistory (h : History) (o : RowOrder) : (ofHistory h o).size = h.size := by
  simp [ofHistory, size]

theorem node?_ofHistory (h : History) (o : RowOrder) (r : Nat) :
    (ofHistory h o).node? r = if r < h.size then some (o.nodeAt r) else none := by
  by_cases hr : r < h.size
  · simp [ofHistory, node?, hr]
  · simp [ofHistory, node?, hr]

theorem rowOf?_ofHistory (h : History) (o : RowOrder) (n : Nat) :
    (ofHistory h o).rowOf? (.loaded n) = if n < h.size then some (o.rowOf n) else none := by
  by_cases hn : n < h.size
  · simp [ofHistory, rowOf?, hn]
  · simp [ofHistory, rowOf?, hn]

theorem downOf_ofHistory (h : History) (o : RowOrder) (r : Nat) : (ofHistory h o).downOf r =
    if r < h.size then (h.parentsOf (o.nodeAt r)).filterMap (downTo o) else [] := by
  by_cases hr : r < h.size
  · simp [ofHistory, downOf, hr]
  · simp [ofHistory, downOf, hr]

theorem upOf_ofHistory (h : History) (o : RowOrder) (r : Nat) : (ofHistory h o).upOf r =
    if r < h.size then (h.loadedChildren (o.nodeAt r)).map fun c => ⟨o.rowOf c, .usual⟩
    else [] := by
  by_cases hr : r < h.size
  · simp [ofHistory, upOf, hr, History.loadedChildren]
  · simp [ofHistory, upOf, hr]

/-- The edges of a base row lead to the rows of the loaded parents of its
node, all of them usual. -/
theorem mem_downOf_ofHistory {d : Nat} {s : Stroke} : .row d s ∈ (ofHistory h o).downOf r ↔
    r < h.size ∧ s = .usual ∧ ∃ p ∈ h.loadedParents (o.nodeAt r), o.rowOf p = d := by
  rw [downOf_ofHistory]
  by_cases hr : r < h.size
  · rw [if_pos hr]
    simp only [List.mem_filterMap, History.mem_loadedParents, hr, true_and]
    constructor
    · rintro ⟨id, hid, hd⟩
      cases id with
      | loaded p => cases hd; exact ⟨rfl, p, hid, rfl⟩
      | none => cases hd
      | missing m => cases hd
    · rintro ⟨rfl, p, hp, rfl⟩
      exact ⟨.loaded p, hp, rfl⟩
  · simp [hr]

/-- The mentions of parents that lead to one row. -/
theorem count_filterMap_downTo (o : RowOrder) (ids : List NodeId) (d : Nat) :
    (ids.filterMap (downTo o)).count (.row d .usual) =
      (loadedNodes ids).countP (o.rowOf · == d) := by
  induction ids with
  | nil => rfl
  | cons id ids ih =>
      cases id with
      | loaded p =>
          have hsame : (Down.row (o.rowOf p) .usual == .row d .usual) = (o.rowOf p == d) := by
            rw [Bool.eq_iff_iff]
            simp
          rw [loadedNodes_loaded, List.countP_cons, ← ih, ← hsame]
          exact List.count_cons
      | none => exact ih
      | missing m =>
          rw [loadedNodes_missing, ← ih]
          exact List.count_cons_of_ne (by simp)

/-- The mentions of children that lead to one row. -/
theorem count_map_rowOf (o : RowOrder) (nodes : List Nat) (u : Nat) :
    (nodes.map fun c => (⟨o.rowOf c, .usual⟩ : Up)).count ⟨u, .usual⟩ =
      nodes.countP (o.rowOf · == u) := by
  rw [List.count, List.countP_map]
  refine List.countP_congr fun c _ => ?_
  simp

/-- Of nodes in a topological order, those in one row are one node. -/
theorem countP_rowOf (ho : o.Topological h) {nodes : List Nat} (hnodes : ∀ n ∈ nodes, n < h.size)
    (hr : r < h.size) : nodes.countP (o.rowOf · == r) = nodes.count (o.nodeAt r) := by
  refine List.countP_congr fun n hn => ?_
  simp only [beq_iff_eq]
  constructor
  · rintro rfl
    exact (ho.nodeAt_rowOf (hnodes n hn)).symm
  · rintro rfl
    exact ho.rowOf_nodeAt hr

theorem below_ofHistory (hs : h.Sound) (ho : o.Topological h) {d : Nat} {s : Stroke}
    (hd : .row d s ∈ (ofHistory h o).downOf r) : r < d ∧ d < h.size := by
  obtain ⟨hr, _, p, hp, rfl⟩ := mem_downOf_ofHistory.mp hd
  have hlt := ho.rowOf_lt_rowOf (ho.nodeAt_lt hr) hp
  rw [ho.rowOf_nodeAt hr] at hlt
  exact ⟨hlt, ho.rowOf_lt (hs.linked.parent_lt hp)⟩

/-- The edges toward children of a base row lead to the rows of the children
of its node. -/
theorem mem_upOf_ofHistory {u : Nat} {s : Stroke} : ⟨u, s⟩ ∈ (ofHistory h o).upOf r ↔
    r < h.size ∧ s = .usual ∧ ∃ c ∈ h.loadedChildren (o.nodeAt r), o.rowOf c = u := by
  rw [upOf_ofHistory]
  by_cases hr : r < h.size
  · rw [if_pos hr]
    simp only [List.mem_map, Up.mk.injEq, hr, true_and]
    constructor
    · rintro ⟨c, hc, rfl, rfl⟩
      exact ⟨rfl, c, hc, rfl⟩
    · rintro ⟨rfl, c, hc, rfl⟩
      exact ⟨c, hc, rfl, rfl⟩
  · simp [hr]

/-- Each mention of a parent is seen from both rows. -/
theorem mirror_ofHistory (hs : h.Sound) (ho : o.Topological h) (u d : Nat) (s : Stroke) :
    ((ofHistory h o).upOf d).count ⟨u, s⟩ = ((ofHistory h o).downOf u).count (.row d s) := by
  have hchild : ∀ {n c}, c ∈ h.loadedChildren n → c < h.size := fun hc =>
    hs.linked.child_lt (hs.linked.mem_children.mp hc)
  by_cases hboth : u < h.size ∧ d < h.size ∧ s = .usual
  · obtain ⟨hu, hd, rfl⟩ := hboth
    calc ((ofHistory h o).upOf d).count ⟨u, .usual⟩
        = (h.loadedChildren (o.nodeAt d)).countP (o.rowOf · == u) := by
          rw [upOf_ofHistory, if_pos hd, count_map_rowOf]
      _ = (h.loadedChildren (o.nodeAt d)).count (o.nodeAt u) :=
          countP_rowOf ho (fun c hc => hchild hc) hu
      _ = (h.loadedParents (o.nodeAt u)).count (o.nodeAt d) := hs.linked.count_children _ _
      _ = (h.loadedParents (o.nodeAt u)).countP (o.rowOf · == d) :=
          (countP_rowOf ho (fun p hp => hs.linked.parent_lt hp) hd).symm
      _ = ((ofHistory h o).downOf u).count (.row d .usual) := by
          rw [downOf_ofHistory, if_pos hu, count_filterMap_downTo, History.loadedParents]
  · rw [List.count_eq_zero_of_not_mem, List.count_eq_zero_of_not_mem]
    · intro hdown
      exact hboth ⟨(mem_downOf_ofHistory.mp hdown).1, (below_ofHistory hs ho hdown).2,
        (mem_downOf_ofHistory.mp hdown).2.1⟩
    · intro hup
      obtain ⟨hd, hs', c, hc, rfl⟩ := mem_upOf_ofHistory.mp hup
      exact hboth ⟨ho.rowOf_lt (hchild hc), hd, hs'⟩

/-- A base layer whose order shows every node, children above parents. -/
theorem consistent_ofHistory (hs : h.Sound) (ho : o.Topological h) :
    (ofHistory h o).Consistent where
  rowOf?_iff {n r} := by
    rw [rowOf?_ofHistory, node?_ofHistory]
    constructor
    · intro hn
      split at hn
      · next hlt =>
          obtain rfl := Option.some.inj hn
          rw [if_pos (ho.rowOf_lt hlt), ho.nodeAt_rowOf hlt]
      · contradiction
    · intro hr
      split at hr
      · next hlt =>
          obtain rfl := Option.some.inj hr
          rw [if_pos (ho.nodeAt_lt hlt), ho.rowOf_nodeAt hlt]
      · contradiction
  below {r d s} hd := by
    rw [size_ofHistory]
    exact below_ofHistory hs ho hd
  mirror := mirror_ofHistory hs ho
  downOf_of_le {r} hr := by
    rw [size_ofHistory] at hr
    rw [downOf_ofHistory, if_neg (Nat.not_lt.mpr hr)]

end Base

end Rows

end Lineage
