import Lineage.Proofs.LanePaths.Mainline
import Lineage.Proofs.Stack.Rooted

/-!
# Lineage.Proofs.Coloring

The colors of a view.  A row has the color of the first head that reaches its
node: the color of the branch where the node is on the mainline of the head, and
that of a fragment, which depends on the lane, where it is not.  Lanes decide in
the code which of the two it is; here the history does.

* `Graph.IsColored` — the color of a node, read off the history.
* `Graph.isColored_of_stateOf` — the color of every row of every view.
-/

namespace Lineage

variable {α : Type} [BEq α] [Hashable α]

namespace Graph

variable {g : Graph α} {commits : List (Commit α)} {n : Nat}

/-- The color of a node: that of the first head that reaches it, which is the
color of the branch on the mainline of the head and that of a fragment off it. -/
inductive IsColored (g : Graph α) (commits : List (Commit α)) (palette : Palette α) (n : Nat) :
    UInt32 → Prop where
  | branch {i head : Nat} {id : α} : IsLeast (g.history.reaching g.lanes.heads n) i →
      g.lanes.heads[i]? = some head → (commits.map (·.id))[head]? = some id →
      g.history.Mainline g.lanes.heads i n → IsColored g commits palette n (palette.branch id)
  | fragment {i head : Nat} {id : α} : IsLeast (g.history.reaching g.lanes.heads n) i →
      g.lanes.heads[i]? = some head → (commits.map (·.id))[head]? = some id →
      ¬ g.history.Mainline g.lanes.heads i n →
      IsColored g commits palette n (palette.fragment id (g.lanes.lane n))

variable {palette : Palette α} {declared : List α} {config : Config}

/-- The color of a row that shows a node of the history. -/
theorem exists_color? [LawfulBEq α] (hg : StateOf commits palette declared config g) {v : View α}
    {rebased : Option RowOrder} (hgraph : v.graph = { g with rebased }) {row : Nat}
    (hrow : v.rows.node? row = some n) (hn : n < g.history.size) :
    ∃ color, v.color? row = some color ∧ g.IsColored commits palette n color := by
  have hs := (sound_of_stateOf hg).history
  obtain ⟨_, _, _, hlanes, _⟩ := eq_of_stateOf hg
  have hfirst := Lanes.isLeast_headPosition hs (compareNodes g.directory palette) hn
  rw [← hlanes] at hfirst
  obtain ⟨head, hhead, _⟩ := hfirst.1
  obtain ⟨id, hid, _⟩ := exists_tip hg ((mem_heads_lanes hg).mp (List.mem_of_getElem? hhead))
  have hlisted : (commits.map (·.id))[head]? = some id := (id?_of_stateOf hg head).symm.trans hid
  have hmainline : g.lanes.starts[g.lanes.headPosition n]? = some (g.lanes.lane n) ↔
      g.history.Mainline g.lanes.heads (g.lanes.headPosition n) n := by
    have hstart : g.lanes.starts[g.lanes.headPosition n]? = some (g.lanes.lane head) := by
      rw [hlanes, Lanes.starts_ofHistory hs, ← hlanes, List.getElem?_map, hhead, Option.map_some]
    have hlane := Lanes.lane_eq_start_iff (n := n) hs (hlanes ▸ hstart)
    rw [← hlanes] at hlane
    rw [hstart, Option.some_inj, eq_comm]
    exact hlane
  have hcolor : v.color? row =
      some (if g.lanes.starts[g.lanes.headPosition n]? = some (g.lanes.lane n) then
        palette.branch id else palette.fragment id (g.lanes.lane n)) := by
    simp [View.color?, hgraph, hrow, hhead, hid, (settings_of_stateOf hg).1]
  refine ⟨_, hcolor, ?_⟩
  split
  · next hlane => exact .branch hfirst hhead hlisted (hmainline.mp hlane)
  · next hlane => exact .fragment hfirst hhead hlisted (mt hmainline.mpr hlane)

/-- Every row of every view has a color: that of the first head that reaches its
node, and of the two colors of the head the one for its mainline exactly where
the node is on it. -/
theorem isColored_of_stateOf [LawfulBEq α] (hg : StateOf commits palette declared config g)
    (sort : SortKind) (heads matching : Option (List α)) (folds : List Bool) {row : Nat}
    (hrow : (g.foldedView sort heads matching folds).rows.node? row = some n) :
    ∃ color, (g.foldedView sort heads matching folds).color? row = some color ∧
      g.IsColored commits palette n color := by
  obtain ⟨rebased, hgraph⟩ : ∃ rebased,
      (g.foldedView sort heads matching folds).graph = { g with rebased } :=
    exists_sorted_snd g sort
  have hrooted := (sound_of_stateOf hg).rooted_foldedView sort heads matching folds
  exact exists_color? hg hgraph hrow (hrooted.lt_size ⟨row, hrow⟩)

/-- The row of a side of a merge. -/
theorem isColored_of_stateOf_fork :
    StateOf forkCommits .standard ["merge"] {} fork ∧
    (fork.foldedView .normal none none []).rows.node? 2 = some 2 ∧
    ∃ color, (fork.foldedView .normal none none []).color? 2 = some color ∧
      fork.IsColored forkCommits .standard 2 color := by
  have hrow : (fork.foldedView .normal none none []).rows.node? 2 = some 2 := by
    have hrows : (fork.foldedView .normal none none []).rows =
        (Rows.ofHistory fork.history fork.history.order).redrawn := rfl
    rw [hrows]
    cbv
  exact ⟨.loaded load_fork, hrow, isColored_of_stateOf (.loaded load_fork) _ _ _ _ hrow⟩

end Graph

end Lineage
