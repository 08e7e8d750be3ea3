import Lineage.Proofs.LinearView
import Lineage.Proofs.Rows.Search
import Lineage.Proofs.Rows.Shown
import Lineage.Proofs.Stack

/-!
# Lineage.Proofs.Straightening

What straightening makes of a layer.  Its bubbles are all that the layer has,
and none of them stands in the way of another; the rows and edges of the result
are those of the layer, except that every bubble is drawn as a line.

* `Stack.oneStroke_rows` — edges between two rows of a layer have one stroke.
* `Rows.LineEdge`, `Rows.LaidOutBy` — the edges and the rows of the lines.
* `Rows.Straightens`, `Stack.straightens_rows` — straightening any stack.
-/

namespace Lineage

namespace Rows

variable {t : Rows} {most : Nat} {bs : List Bubble}

/-! ## one stroke -/

/-- All edges from one row to another one have the same stroke. -/
def OneStroke (t : Rows) : Prop :=
  ∀ {r x s s'}, .row x s ∈ t.downOf r → .row x s' ∈ t.downOf r → s = s'

theorem oneStroke_ofHistory (h : History) (o : RowOrder) : (ofHistory h o).OneStroke := by
  intro r x s s' hs hs'
  rw [(mem_downOf_ofHistory.mp hs).2.1, (mem_downOf_ofHistory.mp hs').2.1]

theorem oneStroke_drawn (inner : Rows) (shown : List Nat) (targets : Nat → List Down) :
    (inner.drawn shown targets).OneStroke := by
  intro r x s s' hs hs'
  have heq := List.inj_on_of_nodup_map (nodup_ending_drawn r) hs hs' rfl
  exact (Down.row.inj heq).2

theorem oneStroke_projected (t : Rows) (visible : Nat → Bool) (bridges : Nat → List Nat) :
    (t.projected visible bridges).OneStroke := by
  rw [projected_eq_drawn]
  exact oneStroke_drawn _ _ _

theorem oneStroke_straightened (t : Rows) (most : Nat) : (t.straightened most).OneStroke := by
  rw [straightened_eq_drawLines, drawLines_eq_drawn]
  exact oneStroke_drawn _ _ _

/-! ## the edges of the lines -/

/-- The edge of an inner row `r` to another one `x` when bubbles are drawn as
lines: an edge that was there, unless it led from a merge to its first parent,
or from a chain to the base below a path; or a dotted edge from such a chain to
the first parent. -/
def LineEdge (t : Rows) (bs : List Bubble) (r x : Nat) (s : Stroke) : Prop :=
  .row x s ∈ t.downOf r ∧ (¬ ∃ b ∈ bs, b.merge = r ∧ b.firstParent = x) ∧
      (¬ ∃ b ∈ bs, b.path ≠ [] ∧ b.chain.getLast? = some r ∧ b.base = x) ∨
    s = .dotted ∧ ∃ b ∈ bs, b.path ≠ [] ∧ b.chain.getLast? = some r ∧ b.firstParent = x

/-- A line to a row with several edges up is empty when it starts there. -/
theorem Line.eq_nil_iff {start base : Nat} {rows : List Nat} (hl : t.Line start rows base)
    (hbase : 2 ≤ (t.upOf base).length) : rows = [] ↔ start = base := by
  cases hl with
  | nil => exact iff_of_true rfl rfl
  | cons hup _ _ =>
      refine iff_of_false (by simp) fun heq => ?_
      rw [heq] at hup
      omega

namespace AreBubbles

theorem redirects_iff (hbs : t.AreBubbles most bs) {b : Bubble} (hb : b ∈ bs) {r : Nat} :
    Redirects b r ↔ b.path ≠ [] ∧ b.chain.getLast? = some r := by
  obtain ⟨second, hbubble⟩ := hbs.isBubble hb
  rw [Redirects, ne_eq, ne_eq, hbubble.path_line.eq_nil_iff hbubble.base_branches]

theorem lineEdge_iff (ht : t.Consistent) (hbs : t.AreBubbles most bs) {r x : Nat} {s : Stroke} :
    t.LineEdge bs r x s ↔ .row x s ∈ t.lineTargets bs r := by
  have hredirects : ∀ P : Bubble → Prop, (∃ b ∈ bs, Redirects b r ∧ P b) ↔
      ∃ b ∈ bs, b.path ≠ [] ∧ b.chain.getLast? = some r ∧ P b := fun P =>
    exists_congr fun b => and_congr_right fun hb => by rw [hbs.redirects_iff hb, and_assoc]
  rw [hbs.mem_row_lineTargets ht, hredirects (·.base = x), hredirects (·.firstParent = x),
    LineEdge]

/-- A row has no edges of both strokes to another one after rewiring either. -/
theorem oneStroke_lineTargets (ht : t.Consistent) (hbs : t.AreBubbles most bs)
    (hone : t.OneStroke) {r x : Nat} {s s' : Stroke} (hs : .row x s ∈ t.lineTargets bs r)
    (hs' : .row x s' ∈ t.lineTargets bs r) : s = s' := by
  -- the row of a dotted edge had one edge, which led elsewhere
  have hmoved : ∀ {k}, .row x k ∈ t.downOf r → ¬ ∃ b ∈ bs, Redirects b r ∧ b.firstParent = x := by
    rintro k hk ⟨b, hb, hr, rfl⟩
    exact hr.1 (eq_of_below_of_onlyParent? (hbs.onlyParent?_of_redirects hb hr) ⟨k, hk⟩)
  rcases (hbs.mem_row_lineTargets ht).mp hs with ⟨he, _⟩ | ⟨rfl, hdotted⟩
  · rcases (hbs.mem_row_lineTargets ht).mp hs' with ⟨he', _⟩ | ⟨_, hdotted⟩
    · exact hone he he'
    · exact absurd hdotted (hmoved he)
  · rcases (hbs.mem_row_lineTargets ht).mp hs' with ⟨he', _⟩ | ⟨rfl, _⟩
    · exact absurd hdotted (hmoved he')
    · rfl

end AreBubbles

/-! ## the layout of the lines -/

/-- The rows of `t` in the order of `shown`, with each of the bubbles `bs` as a
line. -/
structure LaidOutBy (t' t : Rows) (bs : List Bubble) (shown : List Nat) : Prop where
  perm : shown.Perm (List.range t.size)
  /-- The rows that are in no chain are in their old order. -/
  others : shown.filter (fun r => decide (∀ b ∈ bs, r ∉ b.chain)) =
    (List.range t.size).filter fun r => decide (∀ b ∈ bs, r ∉ b.chain)
  /-- A chain stands directly under its merge. -/
  under : ∀ b ∈ bs, (b.merge :: b.chain) <:+: shown
  node? : ∀ i, t'.node? i = shown[i]?.bind t.node?
  row_iff : ∀ i j s, .row j s ∈ t'.downOf i ↔
    ∃ r x, shown[i]? = some r ∧ shown[j]? = some x ∧ t.LineEdge bs r x s
  /-- The edges to placeholders stay. -/
  missing_iff : ∀ i m, .missing m ∈ t'.downOf i ↔
    ∃ r, shown[i]? = some r ∧ .missing m ∈ t.downOf r
  /-- The edges toward children are those toward parents. -/
  up_iff : ∀ i j s, ⟨i, s⟩ ∈ t'.upOf j ↔ .row j s ∈ t'.downOf i

/-- Bubbles that share no row are laid out as lines. -/
theorem AreBubbles.laidOutBy_drawLines (ht : t.Consistent) (hbs : t.AreBubbles most bs)
    (hone : t.OneStroke) : (t.drawLines bs).LaidOutBy t bs (lineOrder t.size bs) := by
  have hshowable := hbs.showable_lineOrder ht
  have hconsistent := hbs.consistent_drawLines ht
  refine ⟨?_, filter_lineOrder _ _, fun b hb => hbs.merge_chain_infix ht hb, ?_, fun i j s => ?_,
    fun i m => ?_, fun i j s => hconsistent.mem_upOf⟩
  · refine (List.perm_ext_iff_of_nodup (hbs.nodup_lineOrder ht) List.nodup_range).mpr fun x => ?_
    rw [hbs.mem_lineOrder ht, List.mem_range]
  · exact node?_drawn hshowable
  · rw [drawLines_eq_drawn]
    simp only [hbs.lineEdge_iff ht]
    constructor
    · intro hmem
      obtain ⟨r, hr⟩ := exists_shown_of_mem_downOf hmem
      obtain ⟨x, hx, ⟨s', hs'⟩, husual⟩ := (mem_row_downOf_drawn hshowable hr).mp hmem
      refine ⟨r, x, hr, hx, ?_⟩
      cases s with
      | usual => exact husual.mp rfl
      | dotted =>
          cases s' with
          | usual => exact absurd (husual.mpr hs') (by decide)
          | dotted => exact hs'
    · rintro ⟨r, x, hr, hx, hedge⟩
      refine (mem_row_downOf_drawn hshowable hr).mpr ⟨x, hx, ⟨s, hedge⟩, ?_, ?_⟩
      · rintro rfl
        exact hedge
      · exact fun husual => hbs.oneStroke_lineTargets ht hone hedge husual
  · rw [drawLines_eq_drawn]
    constructor
    · intro hmem
      obtain ⟨r, hr⟩ := exists_shown_of_mem_downOf hmem
      exact ⟨r, hr, mem_missing_lineTargets.mp ((mem_missing_downOf_drawn hr).mp hmem)⟩
    · rintro ⟨r, hr, hmem⟩
      exact (mem_missing_downOf_drawn hr).mpr (mem_missing_lineTargets.mpr hmem)

/-- The layer `t'` is `t` with all its bubbles of at most `most` rows a side drawn
as lines. -/
structure Straightens (t' t : Rows) (most : Nat) (bs : List Bubble) : Prop where
  /-- Every bubble is drawn as a line, and nothing else. -/
  mem_iff : ∀ b, b ∈ bs ↔ ∃ second, t.IsBubble most b second
  disjoint : bs.Pairwise fun b c => List.Disjoint b.rows c.rows
  /-- They are found at their merges from the top, whether or not the rows of
  those that were found before are marked. -/
  unmarked : bs = (List.range t.size).filterMap (t.bubbleAt? (Marks.blank t.size) most)
  laidOut : ∃ shown, t'.LaidOutBy t bs shown

theorem straightens_straightened (ht : t.Consistent) (hone : t.OneStroke) (most : Nat) :
    (t.straightened most).Straightens t most (t.bubbles most) := by
  have hbs := areBubbles_bubbles t most
  refine ⟨fun b => mem_bubbles ht, hbs.disjoint, bubbles_eq_filterMap ht most,
    lineOrder t.size (t.bubbles most), ?_⟩
  rw [straightened_eq_drawLines]
  exact hbs.laidOutBy_drawLines ht hone

end Rows

namespace Stack

theorem oneStroke_rows (h : History) (s : Stack) : (s.rows h).OneStroke := by
  cases s with
  | base order => exact Rows.oneStroke_ofHistory h order
  | straightened most s => exact Rows.oneStroke_straightened _ _
  | commitsOnly keep s => exact Rows.oneStroke_projected _ _ _
  | historyOnly keep s => exact Rows.oneStroke_projected _ _ _
  | collapsible isBranch least folded s =>
      cases folded with
      | true => exact Rows.oneStroke_projected _ _ _
      | false => exact Rows.oneStroke_projected _ _ _

variable {α : Type} [BEq α] [Hashable α] [EquivBEq α] [LawfulHashable α]
  {commits : List (Commit α)} {slots slots' : Placeholders α} {h : History}

/-- Straightening a stack of layers over a history that loads draws exactly its
bubbles as lines and leaves everything else as it is. -/
theorem straightens_rows (hload : History.load commits slots = .ok (h, slots')) (s : Stack)
    (hbase : s.baseOrder = h.order ∨ ∃ compare timestamp,
      s.baseOrder = h.rebaseOrder (Lanes.ofHistory h compare) timestamp) (most : Nat) :
    ((Stack.straightened most s).rows h).Straightens (s.rows h) most ((s.rows h).bubbles most) := by
  have hs := History.sound_of_load hload
  refine Rows.straightens_straightened (consistent_rows hs s ?_) (oneStroke_rows h s) most
  rcases hbase with hbase | ⟨compare, timestamp, hbase⟩
  · rw [hbase]
    exact hs.topological
  · rw [hbase]
    exact hs.rebaseOrder _ timestamp

/-- The side of a merge is drawn in line with its path. -/
theorem straightens_rows_fork :
    History.load Graph.forkCommits .empty = .ok (Graph.fork.history, .empty) ∧
    ((Stack.straightened 1 (.base Graph.fork.history.order)).rows Graph.fork.history).Straightens
      ((Stack.base Graph.fork.history.order).rows Graph.fork.history) 1 [⟨0, 1, [2], [1], 3⟩] := by
  have hload := Graph.load_history_fork
  have hbubbles : ((Stack.base Graph.fork.history.order).rows Graph.fork.history).bubbles 1 =
      [⟨0, 1, [2], [1], 3⟩] := by
    cbv
  have hlines := straightens_rows hload (.base Graph.fork.history.order) (Or.inl rfl) 1
  rw [hbubbles] at hlines
  exact ⟨hload, hlines⟩

end Stack

end Lineage
