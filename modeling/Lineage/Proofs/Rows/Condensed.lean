import Lineage.Proofs.Rows.Links

/-!
# Lineage.Proofs.Rows.Condensed

A layer with some of its rows hidden, row by row.  The rows that are shown keep
their order.  Two of them have one edge between them or none, and so have a row
and a placeholder.

* `Rows.between`, `Rows.lacking` — the edges from a row to one end.
* `Rows.Condenses` — what is said of a layer with hidden rows.
* `Rows.condenses_projected` — every projection with the right bridges is one.
* `Rows.exists_condenses_commitsOnly` — a commit filter.
-/

namespace Lineage

/-- Of edges with different ends, one is at the end that it is at. -/
theorem filter_ending {ds : List Down} (hds : (ds.map Down.ending).Nodup) {d : Down} (hd : d ∈ ds)
    {p : Down → Bool} (hp : ∀ e, p e = true ↔ e.ending = d.ending) : ds.filter p = [d] := by
  have hle := length_filter_le_one hds fun e he => (hp e).mp he
  have hmem : d ∈ ds.filter p := List.mem_filter.mpr ⟨hd, (hp d).mpr rfl⟩
  match hds : ds.filter p with
  | [] => simp [hds] at hmem
  | [e] => simp_all
  | e :: f :: rest => simp [hds] at hle

namespace Rows

variable {t t' : Rows} {hidden hidden' : Nat → Prop} {link link' : Nat → Nat → Prop}
  {shown : List Nat} {visible : Nat → Bool} {bridges : Nat → List Nat}

/-! ## edges to one end -/

/-- The edges from one row down to another. -/
def between (t : Rows) (upper lower : Nat) : List Edge :=
  (t.edges upper .down).filter fun e => e.down.row? = some lower

/-- The edges from a row to a placeholder. -/
def lacking (t : Rows) (row slot : Nat) : List Edge :=
  (t.edges row .down).filter fun e => e.down = .missing slot

/-- Usual if a usual edge leads from one row directly to the other. -/
def strokeTo (t : Rows) (upper lower : Nat) : Stroke :=
  if .row lower .usual ∈ t.downOf upper then .usual else .dotted

theorem strokeTo_eq_usual_iff {r x : Nat} :
    t.strokeTo r x = .usual ↔ .row x .usual ∈ t.downOf r := by
  unfold strokeTo
  split <;> simp [*]

theorem between_eq (t : Rows) (i j : Nat) :
    t.between i j = ((t.downOf i).filter fun d => d.row? = some j).map (⟨i, ·⟩) := by
  simp [between, edges, List.filter_map, Function.comp_def]

theorem lacking_eq (t : Rows) (i m : Nat) :
    t.lacking i m = ((t.downOf i).filter fun d => d = .missing m).map (⟨i, ·⟩) := by
  simp [lacking, edges, List.filter_map, Function.comp_def]

theorem between_eq_nil {i j : Nat} (hnone : ¬ t.Below i j) : t.between i j = [] := by
  rw [between_eq, List.map_eq_nil_iff, List.filter_eq_nil_iff]
  intro d hd hrow
  cases d with
  | missing m => simp [Down.row?] at hrow
  | row x s =>
      obtain rfl : x = j := by simpa [Down.row?] using hrow
      exact hnone ⟨s, hd⟩

theorem lacking_eq_nil {i m : Nat} (hnone : .missing m ∉ t.downOf i) : t.lacking i m = [] := by
  rw [lacking_eq, List.map_eq_nil_iff, List.filter_eq_nil_iff]
  intro d hd hmissing
  exact hnone (of_decide_eq_true hmissing ▸ hd)

section Distinct

variable {i : Nat} (hends : ((t.downOf i).map Down.ending).Nodup)
include hends

/-- Where no two edges of a row share an end, one edge leads to another row. -/
theorem between_eq_singleton {j : Nat} {s : Stroke} (hd : .row j s ∈ t.downOf i) :
    t.between i j = [⟨i, .row j s⟩] := by
  have hone := filter_ending hends hd (p := fun d => d.row? = some j) fun e => by
    cases e <;> simp [Down.row?, Down.ending]
  rw [between_eq, hone, List.map_singleton]

theorem lacking_eq_singleton {m : Nat} (hd : .missing m ∈ t.downOf i) :
    t.lacking i m = [⟨i, .missing m⟩] := by
  have hone := filter_ending hends hd (p := fun d => d = .missing m) fun e => by
    cases e <;> simp [Down.ending]
  rw [lacking_eq, hone, List.map_singleton]

end Distinct

/-! ## hidden rows -/

/-- The layer `t'` is `t` without the rows that are hidden; `shown` are the
others.  Two rows that are linked have one edge, usual where a direct usual
edge leads from one to the other, and other rows have none; each edge of a shown
row to a placeholder is there once. -/
structure Condenses (t' t : Rows) (hidden : Nat → Prop) (link : Nat → Nat → Prop)
    (shown : List Nat) : Prop where
  contract : t'.Contract
  ascending : shown.Pairwise (· < ·)
  mem_shown : ∀ {r}, r ∈ shown ↔ r < t.size ∧ ¬ hidden r
  node? : ∀ i, t'.node? i = shown[i]?.bind t.node?
  linked : ∀ {i j r x}, shown[i]? = some r → shown[j]? = some x → link r x →
    t'.between i j = [⟨i, .row j (t.strokeTo r x)⟩]
  unlinked : ∀ {i j r x}, shown[i]? = some r → shown[j]? = some x → ¬ link r x →
    t'.between i j = []
  lacking : ∀ {i r}, shown[i]? = some r → ∀ m,
    t'.lacking i m = if .missing m ∈ t.downOf r then [⟨i, .missing m⟩] else []

/-- The rows that are hidden and the links between the others may be described
in another way. -/
theorem Condenses.congr (h : t'.Condenses t hidden link shown)
    (hhidden : ∀ {r}, r < t.size → (hidden r ↔ hidden' r))
    (hlink : ∀ {r x}, r < t.size → ¬ hidden r → ¬ hidden x → (link r x ↔ link' r x)) :
    t'.Condenses t hidden' link' shown := by
  have hiff : ∀ {i j r x : Nat}, shown[i]? = some r → shown[j]? = some x →
      (link r x ↔ link' r x) := by
    intro i j r x hr hx
    obtain ⟨hlt, hr⟩ := h.mem_shown.mp (List.mem_of_getElem? hr)
    exact hlink hlt hr (h.mem_shown.mp (List.mem_of_getElem? hx)).2
  exact
    { contract := h.contract
      ascending := h.ascending
      mem_shown := h.mem_shown.trans (and_congr_right fun hr => not_congr (hhidden hr))
      node? := h.node?
      linked := fun hr hx hl => h.linked hr hx ((hiff hr hx).mpr hl)
      unlinked := fun hr hx hl => h.unlinked hr hx fun hl' => hl ((hiff hr hx).mp hl')
      lacking := h.lacking }

/-- Rows are linked by the edges of a projection along paths through hidden
rows. -/
theorem condenses_projected (ht : t.Consistent) (hb : t.Bridges visible bridges) :
    (t.projected visible bridges).Condenses t (visible · = false)
      (Via t.Below (visible · = false)) ((List.range t.size).filter visible) := by
  have hshowable := showable_filter t visible
  have hedge : ∀ {i j r x : Nat} {s : Stroke}, ((List.range t.size).filter visible)[i]? = some r →
      ((List.range t.size).filter visible)[j]? = some x →
      (.row j s ∈ (t.projected visible bridges).downOf i ↔
        Via t.Below (visible · = false) r x ∧ s = t.strokeTo r x) := by
    intro i j r x s hr hx
    have hxv : visible x = true := (mem_filter_range.mp (List.mem_of_getElem? hx)).2
    have hstroke : (s = .usual ↔ .row x .usual ∈ t.targetsOf visible bridges r) ↔
        s = t.strokeTo r x := by
      rw [mem_usual_targetsOf, and_iff_right hxv, ← strokeTo_eq_usual_iff]
      cases s <;> cases t.strokeTo r x <;> simp
    rw [projected_eq_drawn, mem_row_downOf_drawn hshowable hr, ← exists_target_iff ht hb hxv,
      ← hstroke]
    simp [hx]
  have hends : ∀ i, (((t.projected visible bridges).downOf i).map Down.ending).Nodup :=
    fun i => by rw [projected_eq_drawn]; exact nodup_ending_drawn i
  exact
    { contract := (consistent_projected ht fun hd hhidden hx => hb.lt ht hd hhidden hx).contract
      ascending := List.pairwise_lt_range.filter _
      mem_shown := by simp
      node? := fun i => by rw [projected_eq_drawn, node?_drawn hshowable]
      linked := fun hr hx hvia => between_eq_singleton (hends _) ((hedge hr hx).mpr ⟨hvia, rfl⟩)
      unlinked := fun hr hx hvia => between_eq_nil fun ⟨_, hs⟩ => hvia ((hedge hr hx).mp hs).1
      lacking := fun {i r} hr m => by
        have hmem : .missing m ∈ (t.projected visible bridges).downOf i ↔ .missing m ∈ t.downOf r := by
          rw [projected_eq_drawn, mem_missing_downOf_drawn hr, mem_missing_targetsOf]
        split
        · next hm => exact lacking_eq_singleton (hends i) (hmem.mpr hm)
        · next hm => exact lacking_eq_nil (mt hmem.mp hm) }

/-! ## the commit filter -/

variable {r x : Nat}

/-- Paths start at a row, so it only matters which rows are hidden. -/
theorem Consistent.via_congr (ht : t.Consistent)
    (hhidden : ∀ {r}, r < t.size → (hidden r ↔ hidden' r)) (hr : r < t.size) :
    Via t.Below hidden r x ↔ Via t.Below hidden' r x := by
  have hclosed : ∀ {u d}, u < t.size → t.Below u d → d < t.size := fun _ hd => (ht.below_lt hd).2
  constructor
  · intro h
    have hvia := h.restrict (P := (· < t.size)) hclosed hr
    exact hvia.mono id fun ⟨hx, hlt⟩ => (hhidden hlt).mp hx
  · intro h
    have hvia := h.restrict (P := (· < t.size)) hclosed hr
    exact hvia.mono id fun ⟨hx, hlt⟩ => (hhidden hlt).mpr hx

/-- The row shows a node that is not kept. -/
def Drops (t : Rows) (keep : NodeId → Bool) (r : Nat) : Prop :=
  ∃ n, t.node? r = some n ∧ keep (.loaded n) = false

theorem exists_condenses_commitsOnly (ht : t.Consistent) (keep : NodeId → Bool) :
    ∃ shown, (t.commitsOnly keep).Condenses t (t.Drops keep) (Via t.Below (t.Drops keep)) shown := by
  have hdrops : ∀ {r}, r < t.size →
      (((List.range t.size).map (t.keeps keep)).toArray.getD r false = false ↔
        t.Drops keep r) := by
    intro r hr
    obtain ⟨n, hn⟩ := exists_node? hr
    rw [getD_keeps hn]
    simp [Drops, hn]
  exact ⟨_, (condenses_projected ht (bridges_bridgesOf ht _)).congr hdrops fun hr _ _ =>
    ht.via_congr hdrops hr⟩

end Rows

end Lineage
