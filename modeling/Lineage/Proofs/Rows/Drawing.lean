import Lineage.Proofs.Rows.Consistent
import Lineage.Proofs.Table
import Lineage.Rows.Drawing

/-!
# Lineage.Proofs.Rows.Drawing

What a drawing makes of the targets of its rows, and when the rows it draws
are consistent.

* `mem_row_mergeTargets`, `mem_missing_mergeTargets` — the edges of a row
  with given targets; `nodup_ending_mergeTargets` — no two share an end.
* `Rows.drawn` — the rows that show some inner rows with given targets; both
  projections and straightened layers are of this form.
* `Rows.consistent_drawn` — they are consistent when every target that is
  shown stands below.
-/

namespace Lineage

/-! ## merged targets -/

/-- Where an edge ends, without its stroke. -/
def Down.ending : Down → Nat ⊕ Nat
  | .row r _ => .inl r
  | .missing s => .inr s

theorem Down.sameEnd_iff (d e : Down) : d.sameEnd e = true ↔ d.ending = e.ending := by
  cases d <;> cases e <;> simp [sameEnd, ending]

@[simp] theorem Down.ending_join (d e : Down) : (d.join e).ending = d.ending := by
  cases d with
  | missing s => cases e <;> rfl
  | row r s =>
      cases e with
      | missing t => rfl
      | row q t => cases t <;> rfl

/-- One more target adds an end at most. -/
theorem ending_addTarget (edges : List Down) (t : Down) :
    t.ending ∈ edges.map Down.ending ∧
        (addTarget edges t).map Down.ending = edges.map Down.ending ∨
      t.ending ∉ edges.map Down.ending ∧
        (addTarget edges t).map Down.ending = edges.map Down.ending ++ [t.ending] := by
  induction edges with
  | nil => simp [addTarget]
  | cons d ds ih =>
      by_cases hd : d.sameEnd t = true
      · simp [addTarget, hd, (Down.sameEnd_iff d t).mp hd]
      · have hne : t.ending ≠ d.ending := fun h => hd ((Down.sameEnd_iff d t).mpr h.symm)
        rw [addTarget, if_neg hd, List.map_cons, List.map_cons, List.mem_cons, or_iff_right hne]
        exact ih.imp (And.imp_right (congrArg _)) (And.imp_right (congrArg _))

/-- An edge is usual as soon as one of its targets is. -/
theorem mem_usual_addTarget (edges : List Down) (t : Down) (r : Nat) :
    .row r .usual ∈ addTarget edges t ↔ .row r .usual ∈ edges ∨ .row r .usual = t := by
  induction edges with
  | nil => simp [addTarget]
  | cons d ds ih =>
      by_cases hd : d.sameEnd t = true
      · have hjoin : .row r .usual = d.join t ↔ .row r .usual = d ∨ .row r .usual = t := by
          cases d with
          | missing s => cases t <;> simp_all [Down.join, Down.sameEnd]
          | row q s =>
              cases t with
              | missing t => simp [Down.sameEnd] at hd
              | row p t =>
                  obtain rfl : q = p := by simpa [Down.sameEnd] using hd
                  cases s <;> cases t <;> simp [Down.join]
        rw [addTarget, if_pos hd, List.mem_cons, List.mem_cons, hjoin, or_right_comm]
      · rw [addTarget, if_neg hd, List.mem_cons, List.mem_cons, ih, or_assoc]

theorem nodup_ending_mergeTargets (ts : List Down) :
    ((mergeTargets ts).map Down.ending).Nodup := by
  have hfold : ∀ (ts edges : List Down), (edges.map Down.ending).Nodup →
      ((ts.foldl addTarget edges).map Down.ending).Nodup := by
    intro ts
    induction ts with
    | nil => exact fun _ h => h
    | cons t ts ih =>
        intro edges hnodup
        refine ih _ ?_
        rcases ending_addTarget edges t with ⟨_, heq⟩ | ⟨hnot, heq⟩
        · rwa [heq]
        · rw [heq, List.nodup_append]
          refine ⟨hnodup, List.nodup_singleton _, ?_⟩
          rintro a ha b hb rfl
          exact hnot (List.mem_singleton.mp hb ▸ ha)
  exact hfold ts [] (by simp)

theorem mem_ending_mergeTargets (ts : List Down) (e : Nat ⊕ Nat) :
    e ∈ (mergeTargets ts).map Down.ending ↔ e ∈ ts.map Down.ending := by
  have hfold : ∀ ts edges : List Down, e ∈ (ts.foldl addTarget edges).map Down.ending ↔
      e ∈ edges.map Down.ending ∨ e ∈ ts.map Down.ending := by
    intro ts
    induction ts with
    | nil => simp
    | cons t ts ih =>
        intro edges
        rw [List.foldl_cons, ih, List.map_cons, List.mem_cons]
        rcases ending_addTarget edges t with ⟨hmem, heq⟩ | ⟨_, heq⟩
        · rw [heq]
          refine or_congr_right' fun hnot => ?_
          rw [or_iff_right fun he : e = t.ending => hnot (he ▸ hmem)]
        · rw [heq, List.mem_append, List.mem_singleton, or_assoc]
  simpa [mergeTargets] using hfold ts []

theorem mem_usual_mergeTargets (ts : List Down) (r : Nat) :
    .row r .usual ∈ mergeTargets ts ↔ .row r .usual ∈ ts := by
  have hfold : ∀ ts edges : List Down, .row r .usual ∈ ts.foldl addTarget edges ↔
      .row r .usual ∈ edges ∨ .row r .usual ∈ ts := by
    intro ts
    induction ts with
    | nil => simp
    | cons t ts ih =>
        intro edges
        rw [List.foldl_cons, ih, mem_usual_addTarget, List.mem_cons, or_assoc]
  simpa [mergeTargets] using hfold ts []

theorem mem_row_map_ending {ds : List Down} {r : Nat} :
    .inl r ∈ ds.map Down.ending ↔ ∃ s, .row r s ∈ ds := by
  rw [List.mem_map]
  constructor
  · rintro ⟨d, hd, hr⟩
    cases d with
    | row q s => cases hr; exact ⟨s, hd⟩
    | missing m => cases hr
  · rintro ⟨s, hs⟩
    exact ⟨.row r s, hs, rfl⟩

/-- The edges to rows: one to each target, usual as soon as one of the
targets there is. -/
theorem mem_row_mergeTargets {ts : List Down} {r : Nat} {s : Stroke} :
    .row r s ∈ mergeTargets ts ↔
      (∃ s', .row r s' ∈ ts) ∧ (s = .usual ↔ .row r .usual ∈ ts) := by
  rw [← mem_row_map_ending, ← mem_ending_mergeTargets, ← mem_usual_mergeTargets,
    mem_row_map_ending]
  constructor
  · intro hs
    refine ⟨⟨s, hs⟩, fun h => h ▸ hs, fun hu => ?_⟩
    have heq := List.inj_on_of_nodup_map (nodup_ending_mergeTargets ts) hs hu rfl
    exact (Down.row.inj heq).2
  · rintro ⟨⟨s', hs'⟩, hiff⟩
    cases s with
    | usual => exact hiff.mp rfl
    | dotted =>
        cases s' with
        | usual => exact absurd (hiff.mpr hs') (by simp)
        | dotted => exact hs'

theorem mem_missing_mergeTargets {ts : List Down} {m : Nat} :
    .missing m ∈ mergeTargets ts ↔ .missing m ∈ ts := by
  have hmap : ∀ ds : List Down, .inr m ∈ ds.map Down.ending ↔ .missing m ∈ ds := by
    intro ds
    rw [List.mem_map]
    constructor
    · rintro ⟨d, hd, hm⟩
      cases d with
      | row r s => cases hm
      | missing k => cases hm; exact hd
    · exact fun hd => ⟨_, hd, rfl⟩
  rw [← hmap, mem_ending_mergeTargets, hmap]

/-! ## edges toward children -/

namespace Drawing

/-- The edges toward children, counted from the rows above. -/
theorem count_upward (down : List (List Down)) (u d : Nat) (s : Stroke) :
    (upward down).count (d, ⟨u, s⟩) = (down.getD u []).count (.row d s) := by
  have hrow : ∀ (es : List Down), (es.filterMap fun
      | .row r stroke => some (r, (⟨u, stroke⟩ : Up))
      | .missing _ => none).count (d, ⟨u, s⟩) = es.count (.row d s) := by
    intro es
    induction es with
    | nil => rfl
    | cons e es ih =>
        cases e with
        | missing m => simpa using ih
        | row r stroke =>
            rw [List.filterMap_cons, List.count_cons, List.count_cons, ih]
            congr 1
            simp
  rw [upward, count_flatMap_zipIdx down _ (fun e => e.2.row), List.getD_eq_getElem?_getD]
  · cases hget : down[u]? with
    | none => rfl
    | some es => exact hrow es
  · intro es i c hc
    obtain ⟨e, _, he⟩ := List.mem_filterMap.mp hc
    cases e with
    | row r stroke => cases he; rfl
    | missing m => cases he

end Drawing

/-! ## rows drawn over inner rows -/

namespace Rows

/-- The rows that show the inner rows of a list, each with the edges to the
targets `targets` gives it as inner rows. -/
def drawn (inner : Rows) (shown : List Nat) (targets : Nat → List Down) : Rows :=
  let places := positions inner.size shown
  (Drawing.ofTargets shown inner.size <| shown.map fun row =>
    (targets row).filterMap (Down.moved places)).rowsOn inner

theorem drawn_congr {inner : Rows} {shown : List Nat} {targets targets' : Nat → List Down}
    (h : ∀ r ∈ shown, targets r = targets' r) :
    inner.drawn shown targets = inner.drawn shown targets' := by
  have hmap : (shown.map fun row =>
      (targets row).filterMap (Down.moved (positions inner.size shown))) =
      shown.map fun row => (targets' row).filterMap (Down.moved (positions inner.size shown)) :=
    List.map_congr_left fun r hr => by rw [h r hr]
  rw [drawn, drawn, hmap]

/-- What a list of inner rows needs for the rows drawn from it: each row once,
and none that is not there. -/
structure Showable (inner : Rows) (shown : List Nat) : Prop where
  nodup : shown.Nodup
  lt_size : ∀ r ∈ shown, r < inner.size

section Drawn

variable {inner : Rows} {shown : List Nat} {targets : Nat → List Down}

theorem nodes_drawn (targets : Nat → List Down) (h : inner.Showable shown) :
    (inner.drawn shown targets).nodes.toList.map some = shown.map inner.node? := by
  have hsome : ∀ xs : List Nat, (∀ r ∈ xs, r < inner.size) →
      (xs.filterMap inner.node?).map some = xs.map inner.node? := by
    intro xs hxs
    induction xs with
    | nil => rfl
    | cons x xs ih =>
        obtain ⟨n, hn⟩ := exists_node? (hxs x List.mem_cons_self)
        rw [List.filterMap_cons_some hn, List.map_cons, List.map_cons, hn,
          ih fun r hr => hxs r (List.mem_cons_of_mem x hr)]
  simpa [drawn, Drawing.rowsOn, Drawing.ofTargets] using hsome shown h.lt_size

theorem node?_drawn (h : inner.Showable shown) (i : Nat) :
    (inner.drawn shown targets).node? i = shown[i]?.bind inner.node? := by
  have hget := congrArg (·[i]?) (nodes_drawn targets h)
  simp only [List.getElem?_map, Array.getElem?_toList] at hget
  rw [node?]
  cases hnode : (inner.drawn shown targets).nodes[i]? with
  | none =>
      cases hi : shown[i]? with
      | none => rfl
      | some r => simp [hnode, hi] at hget
  | some n =>
      cases hi : shown[i]? with
      | none => simp [hnode, hi] at hget
      | some r => simpa [hnode, hi] using hget

theorem size_drawn (h : inner.Showable shown) :
    (inner.drawn shown targets).size = shown.length := by
  have hlen := congrArg List.length (nodes_drawn targets h)
  simpa [size] using hlen

/-- The row of a node is the place of its inner row among those shown. -/
theorem rowOf?_drawn (h : inner.Showable shown) {n i : Nat} :
    (inner.drawn shown targets).rowOf? (.loaded n) = some i ↔
      ∃ r, inner.rowOf? (.loaded n) = some r ∧ shown[i]? = some r := by
  have hplaces : (inner.drawn shown targets).rowOf? (.loaded n) =
      (inner.rowOf? (.loaded n)).bind fun r => (positions inner.size shown).getD r none := by
    simp only [rowOf?, drawn, Drawing.rowsOn, Array.getD_eq_getD_getElem?, Array.getElem?_map]
    cases inner.places[n]? with
    | none => rfl
    | some place =>
        cases place with
        | none => rfl
        | some r => exact Array.getD_eq_getD_getElem?
  rw [hplaces, Option.bind_eq_some_iff]
  refine exists_congr fun r => and_congr_right fun _ => ?_
  exact positions_getD_eq_some_iff h.nodup h.lt_size

/-- The edges of a row are the merged targets of the inner row it shows. -/
theorem downOf_drawn {i r : Nat} (hi : shown[i]? = some r) :
    (inner.drawn shown targets).downOf i =
      mergeTargets ((targets r).filterMap (Down.moved (positions inner.size shown))) := by
  simp [drawn, Drawing.rowsOn, Drawing.ofTargets, downOf, hi]

theorem downOf_drawn_of_none {i : Nat} (hi : shown[i]? = none) :
    (inner.drawn shown targets).downOf i = [] := by
  simp [drawn, Drawing.rowsOn, Drawing.ofTargets, downOf, hi]

theorem exists_shown_of_mem_downOf {i : Nat} {d : Down}
    (hd : d ∈ (inner.drawn shown targets).downOf i) : ∃ r, shown[i]? = some r := by
  cases hi : shown[i]? with
  | none =>
      rw [downOf_drawn_of_none hi] at hd
      exact absurd hd List.not_mem_nil
  | some r => exact ⟨r, rfl⟩

theorem mem_row_moved (h : inner.Showable shown) {ts : List Down} {d : Nat} {s : Stroke} :
    .row d s ∈ ts.filterMap (Down.moved (positions inner.size shown)) ↔
      ∃ x, shown[d]? = some x ∧ .row x s ∈ ts := by
  rw [List.mem_filterMap]
  constructor
  · rintro ⟨t, ht, hmoved⟩
    cases t with
    | missing m => cases hmoved
    | row x s' =>
        obtain ⟨k, hk, heq⟩ := Option.map_eq_some_iff.mp hmoved
        obtain ⟨rfl, rfl⟩ := Down.row.inj heq
        exact ⟨x, (positions_getD_eq_some_iff h.nodup h.lt_size).mp hk, ht⟩
  · rintro ⟨x, hx, ht⟩
    refine ⟨.row x s, ht, ?_⟩
    rw [Down.moved, (positions_getD_eq_some_iff h.nodup h.lt_size).mpr hx, Option.map_some]

/-- The edges of a row to other rows: one to each target that is shown, usual
as soon as one of the targets there is. -/
theorem mem_row_downOf_drawn (h : inner.Showable shown) {i r d : Nat} {s : Stroke}
    (hi : shown[i]? = some r) : .row d s ∈ (inner.drawn shown targets).downOf i ↔
      ∃ x, shown[d]? = some x ∧ (∃ s', .row x s' ∈ targets r) ∧
        (s = .usual ↔ .row x .usual ∈ targets r) := by
  rw [downOf_drawn hi, mem_row_mergeTargets]
  simp only [mem_row_moved h]
  constructor
  · rintro ⟨⟨s', x, hx, hs'⟩, hiff⟩
    refine ⟨x, hx, ⟨s', hs'⟩, hiff.trans ⟨?_, fun hu => ⟨x, hx, hu⟩⟩⟩
    rintro ⟨y, hy, hu⟩
    obtain rfl := Option.some.inj (hx.symm.trans hy)
    exact hu
  · rintro ⟨x, hx, ⟨s', hs'⟩, hiff⟩
    refine ⟨⟨s', x, hx, hs'⟩, hiff.trans ⟨fun hu => ⟨x, hx, hu⟩, ?_⟩⟩
    rintro ⟨y, hy, hu⟩
    obtain rfl := Option.some.inj (hx.symm.trans hy)
    exact hu

theorem mem_missing_downOf_drawn {i r m : Nat} (hi : shown[i]? = some r) :
    .missing m ∈ (inner.drawn shown targets).downOf i ↔ .missing m ∈ targets r := by
  rw [downOf_drawn hi, mem_missing_mergeTargets, List.mem_filterMap]
  constructor
  · rintro ⟨t, ht, hmoved⟩
    cases t with
    | missing k => cases hmoved; exact ht
    | row x s =>
        obtain ⟨k, _, heq⟩ := Option.map_eq_some_iff.mp hmoved
        contradiction
  · exact fun hm => ⟨_, hm, rfl⟩

/-- No two edges of a row end at the same place. -/
theorem nodup_ending_drawn (i : Nat) :
    (((inner.drawn shown targets).downOf i).map Down.ending).Nodup := by
  cases hi : shown[i]? with
  | none => simp [downOf_drawn_of_none hi]
  | some r => rw [downOf_drawn hi]; exact nodup_ending_mergeTargets _

theorem upOf_drawn (i : Nat) : (inner.drawn shown targets).upOf i =
    (gather shown.length (Drawing.upward (inner.drawn shown targets).down.toList)).getD i [] := by
  simp [drawn, Drawing.rowsOn, Drawing.ofTargets, upOf]

/-- The edges toward children are the edges toward parents seen from below. -/
theorem mirror_drawn (h : inner.Showable shown) (u d : Nat) (s : Stroke) :
    ((inner.drawn shown targets).upOf d).count ⟨u, s⟩ =
      ((inner.drawn shown targets).downOf u).count (.row d s) := by
  rw [upOf_drawn]
  rcases Nat.lt_or_ge d shown.length with hd | hd
  · rw [count_gather_getD _ hd, Drawing.count_upward, downOf, Array.getD_eq_getD_getElem?,
      List.getD_eq_getElem?_getD, Array.getElem?_toList]
  · rw [gather_getD_of_le _ hd, List.count_nil]
    refine (List.count_eq_zero_of_not_mem fun hmem => ?_).symm
    obtain ⟨r, hr⟩ := exists_shown_of_mem_downOf hmem
    obtain ⟨x, hx, _⟩ := (mem_row_downOf_drawn h hr).mp hmem
    have := (List.getElem?_eq_some_iff.mp hx).1
    omega

/-- Drawn rows are consistent when every target that is shown stands below
the row that has it. -/
theorem consistent_drawn (hinner : inner.Consistent) (h : inner.Showable shown)
    (hbelow : ∀ {r x s}, r ∈ shown → x ∈ shown → .row x s ∈ targets r → [r, x].Sublist shown) :
    (inner.drawn shown targets).Consistent where
  rowOf?_iff {n i} := by
    rw [rowOf?_drawn h, node?_drawn h, Option.bind_eq_some_iff]
    refine exists_congr fun r => ?_
    rw [and_comm, hinner.rowOf?_iff]
  below {i d s} hd := by
    obtain ⟨r, hr⟩ := exists_shown_of_mem_downOf hd
    obtain ⟨x, hx, ⟨s', hs'⟩, _⟩ := (mem_row_downOf_drawn h hr).mp hd
    have hpair := hbelow (List.mem_of_getElem? hr) (List.mem_of_getElem? hx) hs'
    rw [size_drawn h]
    exact ⟨lt_of_pair_sublist h.nodup hpair hr hx, (List.getElem?_eq_some_iff.mp hx).1⟩
  mirror := mirror_drawn h
  downOf_of_le {i} hi := by
    rw [size_drawn h] at hi
    exact downOf_drawn_of_none (List.getElem?_eq_none hi)

end Drawn

end Rows

end Lineage
