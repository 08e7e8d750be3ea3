import Lineage.Proofs.Rows.Projection

/-!
# Lineage.Proofs.Rows.Links

Layers in terms of nodes.  Every layer has rows of its own, but a node is the
same in all of them, so layers are compared by the nodes they show and by the
nodes that their edges join.

* `Rows.Shows`, `Rows.Joins`, `Rows.Lacks` — the nodes, the edges between them,
  and the edges to placeholders; `Rows.joins_drawn` and its like say what they
  are in a drawing.
* `Rows.Consistent.mirrors_links` — rows and nodes have the same paths.
* `Rows.links_commitsOnly`, `Rows.links_historyOnly` — the links of the two
  filters.
-/

namespace Lineage

namespace Rows

variable {t : Rows} {u v : Nat} {s : Stroke}

/-! ## nodes of a layer -/

/-- Some row shows the node. -/
def Shows (t : Rows) (n : Nat) : Prop := ∃ r, t.node? r = some n

/-- An edge leads from the row of one node to the row of another. -/
def Joins (t : Rows) (u v : Nat) (s : Stroke) : Prop :=
  ∃ r d, t.node? r = some u ∧ t.node? d = some v ∧ .row d s ∈ t.downOf r

/-- An edge leads from the row of a node to a placeholder. -/
def Lacks (t : Rows) (u m : Nat) : Prop := ∃ r, t.node? r = some u ∧ .missing m ∈ t.downOf r

/-- An edge of either stroke joins two nodes. -/
def Links (t : Rows) (u v : Nat) : Prop := ∃ s, t.Joins u v s

theorem Consistent.joins_iff_of_node? (ht : t.Consistent) {r d : Nat} (hr : t.node? r = some u)
    (hd : t.node? d = some v) : t.Joins u v s ↔ .row d s ∈ t.downOf r := by
  constructor
  · rintro ⟨r', d', hr', hd', hmem⟩
    rwa [ht.node?_inj hr hr', ht.node?_inj hd hd']
  · exact fun hmem => ⟨r, d, hr, hd, hmem⟩

/-- A relation between rows, as one between the nodes they show. -/
theorem Consistent.mirrors_of_iff (ht : t.Consistent) {link linkOn : Nat → Nat → Prop}
    (hlt : ∀ {r x}, link r x → x < t.size)
    (hlink : ∀ {u v}, linkOn u v ↔ ∃ r x, t.node? r = some u ∧ t.node? x = some v ∧ link r x) :
    Mirrors (fun r n => t.node? r = some n) link linkOn where
  unique hx hy := Option.some.inj (hx.symm.trans hy)
  inj := ht.node?_inj
  link_iff {r x u v} hr hx := by
    rw [hlink]
    constructor
    · exact fun h => ⟨r, x, hr, hx, h⟩
    · rintro ⟨r', x', hr', hx', h⟩
      rwa [ht.node?_inj hr hr', ht.node?_inj hx hx']
  target h := exists_node? (hlt h)
  target_on h := by
    obtain ⟨_, x, _, hx, _⟩ := hlink.mp h
    exact ⟨x, hx⟩

/-- The rows of a layer have the paths that its nodes have. -/
theorem Consistent.mirrors_links (ht : t.Consistent) :
    Mirrors (fun r n => t.node? r = some n) t.Below t.Links := by
  refine ht.mirrors_of_iff (fun h => (ht.below_lt h).2) fun {u v} => ?_
  constructor
  · rintro ⟨s, r, d, hr, hd, hmem⟩
    exact ⟨r, d, hr, hd, s, hmem⟩
  · rintro ⟨r, d, hr, hd, s, hmem⟩
    exact ⟨s, r, d, hr, hd, hmem⟩

/-! ## drawings -/

section Drawn

variable {shown : List Nat} {targets : Nat → List Down}

theorem exists_place {r n : Nat} (h : t.Showable shown) (hr : r ∈ shown) (hn : t.node? r = some n) :
    ∃ i, shown[i]? = some r ∧ (t.drawn shown targets).node? i = some n := by
  obtain ⟨i, hi⟩ := List.mem_iff_getElem?.mp hr
  exact ⟨i, hi, by rw [node?_drawn h, hi, Option.bind_some, hn]⟩

theorem exists_shown {i n : Nat} (h : t.Showable shown)
    (hn : (t.drawn shown targets).node? i = some n) :
    ∃ r, shown[i]? = some r ∧ r ∈ shown ∧ t.node? r = some n := by
  rw [node?_drawn h, Option.bind_eq_some_iff] at hn
  obtain ⟨r, hr, hn⟩ := hn
  exact ⟨r, hr, List.mem_of_getElem? hr, hn⟩

theorem shows_drawn (h : t.Showable shown) {n : Nat} :
    (t.drawn shown targets).Shows n ↔ ∃ r, t.node? r = some n ∧ r ∈ shown := by
  constructor
  · rintro ⟨i, hi⟩
    obtain ⟨r, _, hmem, hn⟩ := exists_shown h hi
    exact ⟨r, hn, hmem⟩
  · rintro ⟨r, hn, hmem⟩
    obtain ⟨i, _, hi⟩ := exists_place h hmem hn
    exact ⟨i, hi⟩

/-- The edges of a drawing in terms of inner rows. -/
theorem joins_drawn (h : t.Showable shown) : (t.drawn shown targets).Joins u v s ↔ ∃ r x,
    (t.node? r = some u ∧ r ∈ shown) ∧ (t.node? x = some v ∧ x ∈ shown) ∧
      (∃ s', .row x s' ∈ targets r) ∧ (s = .usual ↔ .row x .usual ∈ targets r) := by
  constructor
  · rintro ⟨i, j, hi, hj, hmem⟩
    obtain ⟨r, hr, hrmem, hu⟩ := exists_shown h hi
    obtain ⟨y, hy, hymem, hv⟩ := exists_shown h hj
    rw [mem_row_downOf_drawn h hr] at hmem
    obtain ⟨x, hx, hedge⟩ := hmem
    obtain rfl := Option.some.inj (hx.symm.trans hy)
    exact ⟨r, x, ⟨hu, hrmem⟩, ⟨hv, hymem⟩, hedge⟩
  · rintro ⟨r, x, ⟨hu, hrmem⟩, ⟨hv, hxmem⟩, hedge⟩
    obtain ⟨i, hr, hi⟩ := exists_place h hrmem hu
    obtain ⟨j, hx, hj⟩ := exists_place h hxmem hv
    exact ⟨i, j, hi, hj, (mem_row_downOf_drawn h hr).mpr ⟨x, hx, hedge⟩⟩

theorem lacks_drawn (h : t.Showable shown) {m : Nat} : (t.drawn shown targets).Lacks u m ↔
    ∃ r, (t.node? r = some u ∧ r ∈ shown) ∧ .missing m ∈ targets r := by
  constructor
  · rintro ⟨i, hi, hmem⟩
    obtain ⟨r, hr, hrmem, hu⟩ := exists_shown h hi
    exact ⟨r, ⟨hu, hrmem⟩, (mem_missing_downOf_drawn hr).mp hmem⟩
  · rintro ⟨r, ⟨hu, hrmem⟩, hmem⟩
    obtain ⟨i, hr, hi⟩ := exists_place h hrmem hu
    exact ⟨i, hi, (mem_missing_downOf_drawn hr).mpr hmem⟩

theorem links_drawn (h : t.Showable shown) : (t.drawn shown targets).Links u v ↔ ∃ r x,
    (t.node? r = some u ∧ r ∈ shown) ∧ (t.node? x = some v ∧ x ∈ shown) ∧
      ∃ s, .row x s ∈ targets r := by
  constructor
  · rintro ⟨s, hs⟩
    obtain ⟨r, x, hr, hx, hedge, _⟩ := (joins_drawn h).mp hs
    exact ⟨r, x, hr, hx, hedge⟩
  · rintro ⟨r, x, hr, hx, hedge⟩
    by_cases husual : .row x .usual ∈ targets r
    · exact ⟨.usual, (joins_drawn h).mpr ⟨r, x, hr, hx, hedge, by simp [husual]⟩⟩
    · exact ⟨.dotted, (joins_drawn h).mpr ⟨r, x, hr, hx, hedge, by simp [husual]⟩⟩

end Drawn

/-! ## projections -/

section Projected

variable {visible : Nat → Bool} {bridges : Nat → List Nat}

/-- The inner row of a node is visible. -/
theorem node?_and_mem_filter {r n : Nat} :
    (t.node? r = some n ∧ r ∈ (List.range t.size).filter visible) ↔
      t.node? r = some n ∧ visible r = true := by
  refine and_congr_right fun hn => ?_
  rw [mem_filter_range, and_iff_right (lt_size_of_node? hn)]

/-- Only an edge that was usual stays usual. -/
theorem mem_usual_targetsOf {r x : Nat} : .row x .usual ∈ t.targetsOf visible bridges r ↔
    visible x = true ∧ .row x .usual ∈ t.downOf r := by
  simp [mem_row_targetsOf]

/-- With the right bridges, a row has a target where a path through hidden
rows arrives. -/
theorem exists_target_iff (ht : t.Consistent) (hb : t.Bridges visible bridges) {r x : Nat}
    (hx : visible x = true) : (∃ s, .row x s ∈ t.targetsOf visible bridges r) ↔
      Via t.Below (visible · = false) r x := by
  simp only [mem_row_targetsOf]
  constructor
  · rintro ⟨s, ⟨_, he⟩ | ⟨_, d, hd, hhidden, hxd⟩⟩
    · exact .single ⟨s, he⟩
    · exact .cons hd hhidden ((hb.mem_iff (ht.below_lt hd).2 hhidden).mp hxd).2
  · intro hvia
    cases hvia with
    | single he => exact ⟨he.choose, Or.inl ⟨hx, he.choose_spec⟩⟩
    | @cons _ d _ hd hhidden hvia =>
        exact ⟨.dotted, Or.inr ⟨rfl, d, hd, hhidden,
          (hb.mem_iff (ht.below_lt hd).2 hhidden).mpr ⟨hx, hvia⟩⟩⟩

theorem shows_projected {n : Nat} :
    (t.projected visible bridges).Shows n ↔ ∃ r, t.node? r = some n ∧ visible r = true := by
  rw [projected_eq_drawn, shows_drawn (showable_filter t visible)]
  simp only [node?_and_mem_filter]

theorem lacks_projected {m : Nat} : (t.projected visible bridges).Lacks u m ↔
    ∃ r, (t.node? r = some u ∧ visible r = true) ∧ .missing m ∈ t.downOf r := by
  rw [projected_eq_drawn, lacks_drawn (showable_filter t visible)]
  simp only [node?_and_mem_filter, mem_missing_targetsOf]

/-- The edges of a projection are paths through hidden rows, and usual where
an edge of the inner rows is. -/
theorem joins_projected (ht : t.Consistent) (hb : t.Bridges visible bridges) :
    (t.projected visible bridges).Joins u v s ↔ ∃ r x,
      (t.node? r = some u ∧ visible r = true) ∧ (t.node? x = some v ∧ visible x = true) ∧
        Via t.Below (visible · = false) r x ∧ (s = .usual ↔ .row x .usual ∈ t.downOf r) := by
  rw [projected_eq_drawn, joins_drawn (showable_filter t visible)]
  simp only [node?_and_mem_filter]
  refine exists_congr fun r => exists_congr fun x => and_congr_right fun _ => ?_
  refine and_congr_right fun hx => ?_
  rw [exists_target_iff ht hb hx.2, mem_usual_targetsOf, and_iff_right hx.2]

theorem links_projected (ht : t.Consistent) (hb : t.Bridges visible bridges) :
    (t.projected visible bridges).Links u v ↔ ∃ r x,
      (t.node? r = some u ∧ visible r = true) ∧ (t.node? x = some v ∧ visible x = true) ∧
        Via t.Below (visible · = false) r x := by
  rw [projected_eq_drawn, links_drawn (showable_filter t visible)]
  simp only [node?_and_mem_filter]
  refine exists_congr fun r => exists_congr fun x => and_congr_right fun _ => ?_
  exact and_congr_right fun hx => exists_target_iff ht hb hx.2

end Projected

/-! ## the filters -/

theorem keeps_iff {keep : NodeId → Bool} {r n : Nat} (hn : t.node? r = some n) :
    t.keeps keep r = keep (.loaded n) := by
  rw [keeps, hn, Option.any_some]

theorem getD_keeps {keep : NodeId → Bool} {r n : Nat} (hn : t.node? r = some n) :
    ((List.range t.size).map (t.keeps keep)).toArray.getD r false = keep (.loaded n) := by
  rw [Bool.eq_iff_iff, getD_flags, and_iff_right (lt_size_of_node? hn), keeps_iff hn]

theorem shows_commitsOnly {keep : NodeId → Bool} {n : Nat} :
    (t.commitsOnly keep).Shows n ↔ t.Shows n ∧ keep (.loaded n) = true := by
  rw [commitsOnly, shows_projected, Shows, ← exists_and_right]
  exact exists_congr fun r => and_congr_right fun hr => by rw [getD_keeps hr]

theorem shows_historyOnly {keep : NodeId → Bool} {n : Nat} :
    (t.historyOnly keep).Shows n ↔ t.Shows n ∧ keep (.loaded n) = true := by
  rw [historyOnly, shows_projected, Shows, ← exists_and_right]
  exact exists_congr fun r => and_congr_right fun hr => by rw [getD_keeps hr]

/-- A commit filter links the nodes it keeps along paths through the others. -/
theorem links_commitsOnly (ht : t.Consistent) (keep : NodeId → Bool) :
    (t.commitsOnly keep).Links u v ↔ keep (.loaded u) = true ∧ keep (.loaded v) = true ∧
      Via t.Links (fun n => ¬ keep (.loaded n) = true) u v := by
  have hvia : ∀ {r x}, t.node? r = some u → t.node? x = some v →
      (Via t.Below (fun r => ((List.range t.size).map (t.keeps keep)).toArray.getD r false = false)
        r x ↔ Via t.Links (fun n => ¬ keep (.loaded n) = true) u v) := fun hr hx =>
    ht.mirrors_links.via_iff (fun hn => by rw [getD_keeps hn, Bool.not_eq_true]) hr hx
  rw [commitsOnly, links_projected ht (bridges_bridgesOf ht _)]
  constructor
  · rintro ⟨r, x, ⟨hr, hrv⟩, ⟨hx, hxv⟩, h⟩
    rw [getD_keeps hr] at hrv
    rw [getD_keeps hx] at hxv
    exact ⟨hrv, hxv, (hvia hr hx).mp h⟩
  · rintro ⟨hu, hv, h⟩
    obtain ⟨⟨_, _, r, _, hr, _⟩, ⟨_, _, _, x, _, hx, _⟩⟩ := h.ends
    exact ⟨r, x, ⟨hr, by rwa [getD_keeps hr]⟩, ⟨hx, by rwa [getD_keeps hx]⟩, (hvia hr hx).mpr h⟩

/-- A history filter links the nodes it keeps where they were linked. -/
theorem links_historyOnly (keep : NodeId → Bool) :
    (t.historyOnly keep).Links u v ↔
      keep (.loaded u) = true ∧ keep (.loaded v) = true ∧ t.Links u v := by
  rw [historyOnly, projected_eq_drawn, links_drawn (showable_filter t _)]
  simp only [node?_and_mem_filter, mem_row_targetsOf, List.not_mem_nil, and_false, exists_false,
    or_false]
  constructor
  · rintro ⟨r, x, ⟨hr, hrv⟩, ⟨hx, hxv⟩, s, _, hs⟩
    rw [getD_keeps hr] at hrv
    rw [getD_keeps hx] at hxv
    exact ⟨hrv, hxv, s, r, x, hr, hx, hs⟩
  · rintro ⟨hu, hv, s, r, x, hr, hx, hs⟩
    exact ⟨r, x, ⟨hr, by rwa [getD_keeps hr]⟩, ⟨hx, by rwa [getD_keeps hx]⟩, s,
      by rwa [getD_keeps hx], hs⟩

end Rows

end Lineage
