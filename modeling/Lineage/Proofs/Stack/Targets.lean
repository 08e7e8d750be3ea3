import Lineage.Proofs.Rows.Shown
import Lineage.Proofs.Stack

/-!
# Lineage.Proofs.Stack.Targets

The targets of the rows of a layer.  A layer picks them among the rows below it
and then moves them to its own rows, where a target that has no row would be
left out.  No stack has such a target: an edge into a hidden row ends at rows
that are shown, and straightening shows all rows.

* `Sketch`, `Stack.sketch?` — the topmost layer of a stack before its targets
  are moved; `Stack.rows_of_sketch?` — it is the layer that is drawn.
* `Stack.map_some_moved` — no target is left out.
-/

namespace Lineage

/-- A layer before its targets are moved: the inner rows that it shows, and the
inner rows that are the targets of each. -/
structure Sketch where
  inner : Rows
  shown : List Nat
  targets : Nat → List Down

namespace Sketch

/-- The rows that are visible, with bridges over the others. -/
def filtered (t : Rows) (visible : Nat → Bool) (bridges : Nat → List Nat) : Sketch :=
  ⟨t, (List.range t.size).filter visible, t.targetsOf visible bridges⟩

/-- All rows, with bubbles as lines. -/
def lines (t : Rows) (bs : List Bubble) : Sketch := ⟨t, Rows.lineOrder t.size bs, t.lineTargets bs⟩

/-- The row of the layer that shows each inner row. -/
def places (k : Sketch) : Array (Option Nat) := positions k.inner.size k.shown

/-- The rows of the layer. -/
def rows (k : Sketch) : Rows := k.inner.drawn k.shown k.targets

/-- Every target that is a row is shown. -/
structure Closed (k : Sketch) : Prop where
  showable : k.inner.Showable k.shown
  mem_shown : ∀ {r x s}, .row x s ∈ k.targets r → x ∈ k.shown

variable {k : Sketch} {t : Rows} {visible : Nat → Bool} {bridges : Nat → List Nat} {most : Nat}
  {bs : List Bubble}

/-- Bridges that are visible keep a projection closed. -/
theorem closed_filtered (ht : t.Consistent) (hbridges : ∀ {d x}, d < t.size → visible d = false →
    x ∈ bridges d → x < t.size ∧ visible x = true) : (filtered t visible bridges).Closed where
  showable := Rows.showable_filter t visible
  mem_shown {r x s} hx := by
    rw [filtered, Rows.mem_filter_range]
    rcases Rows.mem_row_targetsOf.mp hx with ⟨hvisible, he⟩ | ⟨_, d, hrd, hhidden, hmem⟩
    · exact ⟨(ht.below he).2, hvisible⟩
    · exact hbridges (ht.below_lt hrd).2 hhidden hmem

theorem closed_of_bridges (ht : t.Consistent) (hb : t.Bridges visible bridges) :
    (filtered t visible bridges).Closed :=
  closed_filtered ht fun hd hhidden hx => by
    obtain ⟨hvisible, hvia⟩ := (hb.mem_iff hd hhidden).mp hx
    exact ⟨(ht.via_lt hvia).2, hvisible⟩

theorem closed_lines (ht : t.Consistent) (hbs : t.AreBubbles most bs) : (lines t bs).Closed where
  showable := hbs.showable_lineOrder ht
  mem_shown hx := (hbs.pair_sublist_of_target ht hx).subset
    (List.mem_cons_of_mem _ List.mem_cons_self)

/-- Where every target is shown, all of them have places. -/
theorem Closed.isSome_moved (hk : k.Closed) {r : Nat} {e : Down} (he : e ∈ k.targets r) :
    (e.moved k.places).isSome = true := by
  cases e with
  | missing m => rfl
  | row x s =>
      obtain ⟨i, hi⟩ := List.mem_iff_getElem?.mp (hk.mem_shown he)
      have hplace := (positions_getD_eq_some_iff hk.showable.nodup hk.showable.lt_size).mpr hi
      rw [Down.moved, places, hplace, Option.map_some, Option.isSome_some]

end Sketch

namespace Stack

/-- The topmost layer of a stack, if it is drawn over another one. -/
def sketch? (h : History) : Stack → Option Sketch
  | .base _ => none
  | .straightened most s => some (.lines (s.rows h) ((s.rows h).bubbles most))
  | .commitsOnly keep s =>
    let t := s.rows h
    let visible := ((List.range t.size).map (t.keeps keep)).toArray
    some <| .filtered t (fun row => visible.getD row false) fun row =>
      (t.bridgesOf fun row => visible.getD row false).getD row []
  | .historyOnly keep s =>
    let t := s.rows h
    let visible := ((List.range t.size).map (t.keeps keep)).toArray
    some <| .filtered t (fun row => visible.getD row false) fun _ => []
  | .collapsible isBranch least true s =>
    let t := s.rows h
    let bridges := t.runBridges (t.foldedRuns isBranch least)
    some <| .filtered t (fun row => (bridges.getD row []).isEmpty) fun row => bridges.getD row []
  | .collapsible _ _ false s => some <| .filtered (s.rows h) (fun _ => true) fun _ => []

variable {h : History} {s : Stack} {k : Sketch}

/-- The rows of a stack are those of its topmost layer. -/
theorem rows_of_sketch? (hk : s.sketch? h = some k) : s.rows h = k.rows := by
  cases s with
  | base order => contradiction
  | straightened most s =>
      obtain rfl := Option.some.inj hk
      exact Rows.straightened_eq_drawLines _ most
  | commitsOnly keep s =>
      obtain rfl := Option.some.inj hk
      rfl
  | historyOnly keep s =>
      obtain rfl := Option.some.inj hk
      rfl
  | collapsible isBranch least folded s =>
      cases folded with
      | true =>
          obtain rfl := Option.some.inj hk
          rfl
      | false =>
          obtain rfl := Option.some.inj hk
          rfl

/-- Every layer shows the targets of its rows. -/
theorem closed_of_sketch? (hs : h.Sound) (hbase : s.baseOrder.Topological h)
    (hk : s.sketch? h = some k) : k.Closed := by
  cases s with
  | base order => contradiction
  | straightened most s =>
      obtain rfl := Option.some.inj hk
      exact Sketch.closed_lines (consistent_rows hs s hbase) (Rows.areBubbles_bubbles _ most)
  | commitsOnly keep s =>
      obtain rfl := Option.some.inj hk
      have ht := consistent_rows hs s hbase
      exact Sketch.closed_of_bridges ht (Rows.bridges_bridgesOf ht _)
  | historyOnly keep s =>
      obtain rfl := Option.some.inj hk
      exact Sketch.closed_filtered (consistent_rows hs s hbase) fun _ _ hx =>
        absurd hx List.not_mem_nil
  | collapsible isBranch least folded s =>
      have ht := consistent_rows hs s hbase
      cases folded with
      | true =>
          obtain rfl := Option.some.inj hk
          exact Sketch.closed_of_bridges ht (Rows.bridges_collapsed _ isBranch least)
      | false =>
          obtain rfl := Option.some.inj hk
          exact Sketch.closed_filtered ht fun _ _ hx => absurd hx List.not_mem_nil

/-- In no stack is a target left out when the targets of a row are moved to the
rows of its layer. -/
theorem map_some_moved (hs : h.Sound) (hbase : s.baseOrder.Topological h)
    (hk : s.sketch? h = some k) (r : Nat) :
    ((k.targets r).filterMap (Down.moved k.places)).map some =
      (k.targets r).map (Down.moved k.places) :=
  map_some_filterMap fun _ he => (closed_of_sketch? hs hbase hk).isSome_moved he

end Stack

end Lineage
