import Lineage.Proofs.Rows.Reach
import Lineage.Proofs.View

/-!
# Lineage.Proofs.LinearView

What a straightened view with visible heads loses.  A bubble is drawn as one
line, on which its chain leads to the base by way of its path.  Where the
heads are in the chain, the path may be outside of their history, and the line
ends there.

* `Graph.rows_view_linear` — the layers of such a view.
* `Graph.ancestors_reached_iff` — exactly when an ancestor is still reached.
-/

namespace Lineage

namespace Graph

variable {α : Type} [BEq α] [Hashable α] {g : Graph α} {commits : List (Commit α)}
  {heads : List α} {matching : Option (List α)}

/-! ## the rebase order of a graph -/

/-- The rows of the rebase order. -/
def baseRows (g : Graph α) : Rows := Rows.ofHistory g.history g.rebaseOrder.1

/-- The bubbles that the straightened sort draws as lines. -/
def bubbles (g : Graph α) : List Bubble := g.baseRows.bubbles g.config.maxBlockSize

/-- One of some rows of the rebase order shows a commit. -/
def In (g : Graph α) (rows : List Nat) (c : α) : Prop :=
  ∃ r ∈ rows, ∃ n, g.Stands c n ∧ g.baseRows.node? r = some n

theorem Sound.exact_baseRows (hg : g.Sound commits) : g.baseRows.Exact g.history :=
  Rows.exact_ofHistory hg.history hg.rebaseOrder.1

/-- Every commit is shown in the rebase order. -/
theorem Sound.exists_baseRow (hg : g.Sound commits) {a : α} {n : Nat} (ha : g.Stands a n) :
    ∃ r, g.baseRows.node? r = some n :=
  (Rows.shows_ofHistory hg.rebaseOrder.1).mpr (hg.lt_size ha)

theorem Sound.in_iff (hg : g.Sound commits) {rows : List Nat} {a : α} {n r : Nat}
    (ha : g.Stands a n) (hr : g.baseRows.node? r = some n) : g.In rows a ↔ r ∈ rows := by
  constructor
  · rintro ⟨r', hmem, m, hm, hr'⟩
    rw [stands_unique hm ha] at hr'
    rwa [hg.exact_baseRows.consistent.node?_inj hr hr']
  · exact fun hmem => ⟨r, hmem, n, ha, hr⟩

/-! ## the filters of a view -/

/-- The layer of a view that a history filter is put on. -/
def searched (g : Graph α) : Option (List α) → Rows → Rows
  | none, t => t
  | some ids, t => t.commitsOnly (among (g.directory.nodesOf ids))

theorem Sound.searched_spec (hg : g.Sound commits) (matching : Option (List α)) {t : Rows}
    (ht : t.Consistent) :
    ∃ S : Nat → Prop, (∀ {c n}, g.Stands c n → (S n ↔ Matches matching c)) ∧
      (g.searched matching t).Consistent ∧
      (∀ {n}, (g.searched matching t).Shows n → S n) ∧
      ∀ {u v}, (g.searched matching t).Links u v ↔
        S u ∧ S v ∧ Via t.Links (fun n => ¬ S n) u v := by
  cases matching with
  | none =>
      refine ⟨fun _ => True, by simp [Matches], ht, fun _ => trivial, ?_⟩
      simp [searched, via_iff_of_not_hidden]
  | some ids =>
      refine ⟨fun n => among (g.directory.nodesOf ids) (.loaded n) = true, fun hc => ?_,
        Rows.consistent_commitsOnly ht _, fun hshown => (Rows.shows_commitsOnly.mp hshown).2,
        Rows.links_commitsOnly ht _⟩
      simp only [among_eq_true_iff, hg.mem_nodesOf hc]
      simp [Matches]

/-! ## the edges of a view -/

/-- The layers of a straightened view with visible heads. -/
theorem rows_view_linear (g : Graph α) (heads : List α) (matching : Option (List α)) :
    (g.view .linearBek (some heads) matching).1.rows =
      (g.searched matching (g.baseRows.straightened g.config.maxBlockSize)).historyOnly
        (g.historyOf heads) := by
  cases matching with
  | none =>
      simp only [view, compose, sorted, draw, rebaseOrder_snd, Option.map_some]
      rfl
  | some ids =>
      simp only [view, compose, sorted, draw, rebaseOrder_snd, Option.map_some]
      rfl

theorem rowOf?_view_linear (ht : (g.view .linearBek (some heads) matching).1.rows.Consistent)
    {a : α} {i : Nat} :
    (g.view .linearBek (some heads) matching).1.rowOf? a = some i ↔
      ∃ n, g.Stands a n ∧ (g.view .linearBek (some heads) matching).1.rows.node? i = some n := by
  rw [View.rowOf?_iff ht]
  cases matching <;>
    simp only [view, compose, sorted, draw, rebaseOrder_snd, Option.map_some, Stands]

theorem consistent_view_linear (hg : g.Sound commits) (heads : List α)
    (matching : Option (List α)) :
    (g.view .linearBek (some heads) matching).1.rows.Consistent := by
  obtain ⟨S, _, hinner, _⟩ := hg.searched_spec matching
    (Rows.consistent_straightened hg.exact_baseRows.consistent g.config.maxBlockSize)
  rw [rows_view_linear]
  exact Rows.consistent_historyOnly hinner _

/-- A condition on the rows of a path, as one on the commits there. -/
theorem Sound.forall_path_iff (hg : g.Sound commits) {S : Nat → Prop}
    (hS : ∀ {c n}, g.Stands c n → (S n ↔ Matches matching c)) {rows : List Nat} :
    (∀ p ∈ rows, (∃ n, g.baseRows.node? p = some n ∧ S n) →
        g.baseRows.keeps (g.historyOf heads) p = true) ↔
      ∀ c, g.In rows c → Matches matching c → InHistory commits heads c := by
  constructor
  · rintro h c ⟨p, hp, n, hc, hn⟩ hmatches
    have hkeep := h p hp ⟨n, hn, (hS hc).mpr hmatches⟩
    rwa [Rows.keeps_iff hn, hg.historyOf_iff hc] at hkeep
  · rintro h p hp ⟨n, hn, hSn⟩
    obtain ⟨c, hc⟩ := hg.exists_stands ((Rows.shows_ofHistory hg.rebaseOrder.1).mp ⟨p, hn⟩)
    rw [Rows.keeps_iff hn, hg.historyOf_iff hc]
    exact h c ⟨p, hp, n, hc, hn⟩ ((hS hc).mp hSn)

/-- In a straightened view with visible heads, an ancestor that is shown is
reached down the edges exactly when no bubble is in the way: one with the
commit, but not the ancestor, in its chain, and with a commit in its path that
the search shows but that is not in the history of the heads. -/
theorem ancestors_reached_iff [LawfulBEq α] {palette : Palette α} {declared : List α}
    {config : Config} (hg : StateOf commits palette declared config g) (heads : List α)
    (matching : Option (List α)) {a b : α} {i j : Nat}
    (hi : (g.view .linearBek (some heads) matching).1.rowOf? a = some i)
    (hj : (g.view .linearBek (some heads) matching).1.rowOf? b = some j)
    (hab : Relation.TransGen (ParentOf commits) a b) :
    Relation.TransGen (g.view .linearBek (some heads) matching).1.Below i j ↔
      ∀ bubble ∈ g.bubbles, g.In bubble.chain a → ¬ g.In bubble.chain b →
        ∀ c, g.In bubble.path c → Matches matching c → InHistory commits heads c := by
  have hsound := sound_of_stateOf hg
  have hexact := hsound.exact_baseRows
  have hbase := hexact.consistent
  obtain ⟨S, hS, hinner, hshows, hlinks⟩ := hsound.searched_spec matching
    (Rows.consistent_straightened hbase g.config.maxBlockSize)
  have hrows := consistent_view_linear hsound heads matching
  obtain ⟨u, hu, hiu⟩ := (rowOf?_view_linear hrows).mp hi
  obtain ⟨w, hw, hjw⟩ := (rowOf?_view_linear hrows).mp hj
  obtain ⟨r, hr⟩ := hsound.exists_baseRow hu
  obtain ⟨x, hx⟩ := hsound.exists_baseRow hw
  have hshown : ∀ {k n}, (g.view .linearBek (some heads) matching).1.rows.node? k = some n →
      S n ∧ g.historyOf heads (.loaded n) = true := by
    intro k n hk
    rw [rows_view_linear] at hk
    exact (Rows.shows_historyOnly.mp ⟨k, hk⟩).imp hshows id
  have hbubbles := Rows.areBubbles_bubbles g.baseRows g.config.maxBlockSize
  have hbelow : Relation.TransGen g.baseRows.Below r x :=
    (hexact.transGen_below_iff hr hx).mpr ((hsound.mirrors.transGen_iff hu hw).mp hab)
  rw [View.below_eq]
  calc Relation.TransGen (g.view .linearBek (some heads) matching).1.rows.Below i j
    _ ↔ Relation.TransGen (g.view .linearBek (some heads) matching).1.rows.Links u w :=
        hrows.mirrors_links.transGen_iff hiu hjw
    _ ↔ Relation.TransGen (Rows.Kept g.baseRows g.bubbles
          (fun k => ∃ n, g.baseRows.node? k = some n ∧ S n)
          (fun k => g.baseRows.keeps (g.historyOf heads) k = true)) r x := by
        rw [rows_view_linear]
        exact ((hbase.mirrors_kept hlinks _).transGen_iff hr hx).symm
    _ ↔ ∀ bubble ∈ g.bubbles, r ∈ bubble.chain → x ∉ bubble.chain → ∀ p ∈ bubble.path,
          (∃ n, g.baseRows.node? p = some n ∧ S n) →
            g.baseRows.keeps (g.historyOf heads) p = true := by
        refine hbubbles.transGen_kept_iff hbase (hexact.keeps_of_below hsound.historyOf_of_parent)
          hbelow ⟨⟨u, hr, (hshown hiu).1⟩, w, hx, (hshown hjw).1⟩ ?_
        rw [Rows.keeps_iff hr]
        exact (hshown hiu).2
    _ ↔ _ := by
        simp only [hsound.in_iff hu hr, hsound.in_iff hw hx, hsound.forall_path_iff hS]

/-! ## a head on the side of a merge -/

/-- A merge whose two parents have the same parent. -/
def forkCommits : List (Commit String) :=
  [⟨"merge", ["path", "side"], 4⟩, ⟨"path", ["base"], 3⟩, ⟨"side", ["base"], 2⟩, ⟨"base", [], 1⟩]

/-- The graph of these commits. -/
def fork : Graph String :=
  let history : History :=
    { parents := #[[.loaded 1, .loaded 2], [.loaded 3], [.loaded 3], []]
      children := #[[], [0], [0], [1, 2]]
      missingChildren := #[]
      order := .ofList [0, 1, 2, 3] }
  let directory := Directory.ofCommits forkCommits []
  { history
    directory
    lanes := Lanes.ofHistory history (compareNodes directory .standard)
    heads := directory.nodesOf ["merge"]
    palette := .standard
    config := {}
    rebased := none }

theorem load_history_fork : History.load forkCommits .empty = .ok (fork.history, .empty) := by
  cbv

theorem load_fork : Graph.load forkCommits .standard ["merge"] {} = .ok fork := by
  rw [Graph.load, load_history_fork]
  simp [fork, forkCommits, Placeholders.reserve, Placeholders.empty]

/-- The view of the history of the side: its edge to the base is moved to the
path, and gone with it. -/
theorem rows_view_fork :
    (fork.view .linearBek (some ["side"]) none).1.rowOf? "side" = some 0 ∧
    (fork.view .linearBek (some ["side"]) none).1.rowOf? "base" = some 1 ∧
    (fork.view .linearBek (some ["side"]) none).1.rows.downOf 0 = [] := by
  have hamong : ∀ nodes : List NodeId, among nodes = fun node => nodes.contains node := by
    intro nodes
    funext node
    simp [among]
  have hrows : (fork.view .linearBek (some ["side"]) none).1.rows.node? 0 = some 2 ∧
      (fork.view .linearBek (some ["side"]) none).1.rows.node? 1 = some 3 ∧
      (fork.view .linearBek (some ["side"]) none).1.rows.downOf 0 = [] := by
    rw [rows_view_linear, historyOf, hamong]
    cbv
  have hconsistent := consistent_view_linear (sound_of_load load_fork) ["side"] none
  exact ⟨(rowOf?_view_linear hconsistent).mpr ⟨2, by cbv, hrows.1⟩,
    (rowOf?_view_linear hconsistent).mpr ⟨3, by cbv, hrows.2.1⟩, hrows.2.2⟩

theorem parentOf_fork : ParentOf forkCommits "side" "base" :=
  ⟨⟨"side", ["base"], 2⟩, by decide⟩

/-- The merge makes a bubble with the side in its chain and the path outside of
the history of the side. -/
theorem ancestors_reached_iff_fork :
    (fork.view .linearBek (some ["side"]) none).1.rowOf? "side" = some 0 ∧
    (fork.view .linearBek (some ["side"]) none).1.rowOf? "base" = some 1 ∧
    (Relation.TransGen (fork.view .linearBek (some ["side"]) none).1.Below 0 1 ↔
      ∀ bubble ∈ fork.bubbles, fork.In bubble.chain "side" → ¬ fork.In bubble.chain "base" →
        ∀ c, fork.In bubble.path c → Matches none c → InHistory forkCommits ["side"] c) := by
  obtain ⟨hside, hbase, _⟩ := rows_view_fork
  exact ⟨hside, hbase, ancestors_reached_iff (.loaded load_fork) ["side"] none hside hbase
    (.single parentOf_fork)⟩

/-- The base is shown below the side, which is its child, but cannot be
reached from there. -/
theorem base_not_reached_fork : ∃ g, Graph.load forkCommits .standard ["merge"] {} = .ok g ∧
    ∃ i j, (g.view .linearBek (some ["side"]) none).1.rowOf? "side" = some i ∧
      (g.view .linearBek (some ["side"]) none).1.rowOf? "base" = some j ∧
      Relation.TransGen (ParentOf forkCommits) "side" "base" ∧
      ¬ Relation.ReflTransGen (g.view .linearBek (some ["side"]) none).1.Below i j := by
  obtain ⟨hside, hbase, hdown⟩ := rows_view_fork
  refine ⟨fork, load_fork, 0, 1, hside, hbase, .single parentOf_fork, fun hpath => ?_⟩
  rcases hpath.cases_head with heq | ⟨k, ⟨s, hs⟩, _⟩
  · contradiction
  · rw [View.mem_edges_row, hdown] at hs
    exact List.not_mem_nil hs

end Graph

end Lineage
