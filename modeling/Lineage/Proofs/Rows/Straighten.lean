import Mathlib.Data.List.Flatten
import Mathlib.Data.List.Nodup
import Lineage.Proofs.Rows.Bubbles

/-!
# Lineage.Proofs.Rows.Straighten

Bubbles drawn as lines.  Every row keeps its place among the others unless it
is in a chain, which moves up to stand under its merge.  An edge into a chain
comes from the merge or from the chain itself, so none is turned around.

* `Rows.AreBubbles.mem_lineOrder`, `Rows.AreBubbles.nodup_lineOrder` — every row
  is shown once; `Rows.AreBubbles.merge_chain_infix` and `Rows.filter_lineOrder`
  say where.
* `Rows.AreBubbles.mem_row_lineTargets` — the edges after rewiring.
* `Rows.consistent_straightened` — straightening keeps a layer consistent.
-/

namespace Lineage

namespace Rows

variable {t : Rows} {most : Nat} {bs : List Bubble}

/-! ## the order of the rows -/

/-- The rows of all chains, each with the merge it moves under. -/
def chainPairs (bs : List Bubble) : List (Nat × Nat) :=
  bs.flatMap fun b => b.chain.map (b.merge, ·)

theorem mem_chainPairs {r x : Nat} :
    (r, x) ∈ chainPairs bs ↔ ∃ b ∈ bs, b.merge = r ∧ x ∈ b.chain := by
  rw [chainPairs, List.mem_flatMap]
  refine exists_congr fun b => and_congr_right fun _ => ?_
  rw [List.mem_map]
  constructor
  · rintro ⟨y, hy, heq⟩
    obtain ⟨rfl, rfl⟩ := Prod.mk.inj heq
    exact ⟨rfl, hy⟩
  · rintro ⟨rfl, hx⟩
    exact ⟨x, hx, rfl⟩

/-- The rows that stand where one row did: none if it is in a chain, else the
row itself and the chains that move under it. -/
def block (size : Nat) (bs : List Bubble) (row : Nat) : List Nat :=
  if ((Marks.blank size).markAll (bs.flatMap (·.chain))).has row then []
  else row :: (gather size (chainPairs bs)).getD row []

theorem lineOrder_eq_flatMap_block (size : Nat) (bs : List Bubble) :
    lineOrder size bs = (List.range size).flatMap (block size bs) := rfl

/-- What stands where a row did that is in no chain. -/
theorem block_of_stays {size row : Nat} (hrow : row < size) (hstays : ∀ b ∈ bs, row ∉ b.chain) :
    block size bs row = row :: (gather size (chainPairs bs)).getD row [] := by
  refine if_neg ?_
  rw [Marks.has_markAll, Marks.has_blank, List.mem_flatMap, not_or, Nat.not_le]
  exact ⟨fun ⟨b, hb, hmem⟩ => hstays b hb hmem, hrow⟩

/-- Nothing stands where a row of a chain did. -/
theorem block_of_moves {size row : Nat} (hmoves : ¬ ∀ b ∈ bs, row ∉ b.chain) :
    block size bs row = [] := by
  refine if_pos ?_
  rw [Marks.has_markAll, List.mem_flatMap]
  push Not at hmoves
  exact Or.inl hmoves

theorem mem_block {size row x : Nat} (hrow : row < size) : x ∈ block size bs row ↔
    (∀ b ∈ bs, row ∉ b.chain) ∧ (x = row ∨ ∃ b ∈ bs, b.merge = row ∧ x ∈ b.chain) := by
  by_cases hstays : ∀ b ∈ bs, row ∉ b.chain
  · rw [block_of_stays hrow hstays, List.mem_cons, mem_gather_getD, mem_chainPairs,
      and_iff_right hrow, and_iff_right hstays]
  · rw [block_of_moves hstays]
    exact ⟨fun h => absurd h List.not_mem_nil, fun h => absurd h.1 hstays⟩

/-- The rows that are in no chain keep their order. -/
theorem filter_lineOrder (size : Nat) (bs : List Bubble) :
    (lineOrder size bs).filter (fun r => decide (∀ b ∈ bs, r ∉ b.chain)) =
      (List.range size).filter (fun r => decide (∀ b ∈ bs, r ∉ b.chain)) := by
  rw [lineOrder_eq_flatMap_block]
  refine filter_flatMap_eq_filter fun r hr => ?_
  by_cases hstays : ∀ b ∈ bs, r ∉ b.chain
  · have hmoved : ∀ x ∈ (gather size (chainPairs bs)).getD r [],
        ¬ decide (∀ b ∈ bs, x ∉ b.chain) = true := by
      intro x hx
      obtain ⟨b, hb, _, hmem⟩ := mem_chainPairs.mp (mem_gather_getD.mp hx).2
      rw [decide_eq_true_eq]
      exact fun hall => hall b hb hmem
    rw [block_of_stays (List.mem_range.mp hr) hstays, List.filter_cons,
      List.filter_eq_nil_iff.mpr hmoved]
  · rw [block_of_moves hstays, if_neg (by rwa [decide_eq_true_eq]), List.filter_nil]

namespace AreBubbles

/-- No merge is on a side of a bubble. -/
theorem merge_notMem_sides (hbs : t.AreBubbles most bs) {b c : Bubble} (hb : b ∈ bs)
    (hc : c ∈ bs) : b.merge ∉ c.chain ++ c.path := by
  obtain ⟨_, hbubble⟩ := hbs.isBubble hb
  obtain ⟨_, hbubble'⟩ := hbs.isBubble hc
  exact hbubble.merge_notMem hbubble'

theorem merge_notMem_chain (hbs : t.AreBubbles most bs) {b c : Bubble} (hb : b ∈ bs)
    (hc : c ∈ bs) : b.merge ∉ c.chain := fun hmem =>
  hbs.merge_notMem_sides hb hc (List.mem_append_left _ hmem)

theorem merge_lt_size (ht : t.Consistent) (hbs : t.AreBubbles most bs) {b : Bubble}
    (hb : b ∈ bs) : b.merge < t.size := by
  obtain ⟨second, hbubble⟩ := hbs.isBubble hb
  exact ht.lt_size_of_mem_downOf hbubble.below_first.choose_spec

/-- Chains of different bubbles share no row. -/
theorem eq_of_mem_chain (hbs : t.AreBubbles most bs) {b c : Bubble} (hb : b ∈ bs) (hc : c ∈ bs)
    {x : Nat} (hxb : x ∈ b.chain) (hxc : x ∈ c.chain) : b = c :=
  hbs.eq_of_mem hb hc (List.mem_cons_of_mem _ (List.mem_append_left _ hxb))
    (List.mem_cons_of_mem _ (List.mem_append_left _ hxc))

theorem nodup_chainPairs (ht : t.Consistent) (hbs : t.AreBubbles most bs) :
    (chainPairs bs).Nodup := by
  rw [chainPairs, List.nodup_flatMap]
  refine ⟨fun b hb => ?_, hbs.disjoint.imp fun {b c} hdisjoint p hpb hpc => ?_⟩
  · obtain ⟨second, hbubble⟩ := hbs.isBubble hb
    exact (hbubble.chain_line.nodup ht).map fun _ _ h => (Prod.mk.inj h).2
  · obtain ⟨x, _, rfl⟩ := List.mem_map.mp hpb
    obtain ⟨y, _, heq⟩ := List.mem_map.mp hpc
    refine hdisjoint List.mem_cons_self (?_ : b.merge ∈ c.rows)
    rw [← (Prod.mk.inj heq).1]
    exact List.mem_cons_self

theorem nodup_block (ht : t.Consistent) (hbs : t.AreBubbles most bs) {row : Nat}
    (hrow : row < t.size) : (block t.size bs row).Nodup := by
  by_cases hstays : ∀ b ∈ bs, row ∉ b.chain
  · rw [block_of_stays hrow hstays, List.nodup_cons, mem_gather_getD, mem_chainPairs]
    refine ⟨fun ⟨_, b, hb, _, hmem⟩ => hstays b hb hmem, ?_⟩
    refine List.nodup_iff_count_le_one.mpr fun x => ?_
    rw [count_gather_getD _ hrow]
    exact List.nodup_iff_count_le_one.mp (hbs.nodup_chainPairs ht) _
  · rw [block_of_moves hstays]
    exact List.nodup_nil

/-- A row in two blocks makes them one. -/
theorem eq_of_mem_block (hbs : t.AreBubbles most bs) {i j x : Nat}
    (hi : i < t.size) (hj : j < t.size) (hxi : x ∈ block t.size bs i)
    (hxj : x ∈ block t.size bs j) : i = j := by
  obtain ⟨hstays, hxi⟩ := (mem_block hi).mp hxi
  obtain ⟨hstays', hxj⟩ := (mem_block hj).mp hxj
  rcases hxi with rfl | ⟨b, hb, rfl, hxb⟩
  · rcases hxj with rfl | ⟨c, hc, rfl, hxc⟩
    · rfl
    · exact absurd hxc (hstays c hc)
  · rcases hxj with rfl | ⟨c, hc, rfl, hxc⟩
    · exact absurd hxb (hstays' b hb)
    · rw [hbs.eq_of_mem_chain hb hc hxb hxc]

/-- Every row stands in the block of the merge above its chain, or in its own
one. -/
theorem exists_block (ht : t.Consistent) (hbs : t.AreBubbles most bs) {x : Nat}
    (hx : x < t.size) : ∃ i, i ≤ x ∧ x ∈ block t.size bs i := by
  by_cases hstays : ∀ b ∈ bs, x ∉ b.chain
  · exact ⟨x, Nat.le_refl x, (mem_block hx).mpr ⟨hstays, Or.inl rfl⟩⟩
  · push Not at hstays
    obtain ⟨b, hb, hmem⟩ := hstays
    obtain ⟨second, hbubble⟩ := hbs.isBubble hb
    refine ⟨b.merge, Nat.le_of_lt (hbubble.merge_lt_chain ht hmem), ?_⟩
    exact (mem_block (hbs.merge_lt_size ht hb)).mpr
      ⟨fun c hc => hbs.merge_notMem_chain hb hc, Or.inr ⟨b, hb, rfl, hmem⟩⟩

theorem mem_lineOrder (ht : t.Consistent) (hbs : t.AreBubbles most bs) {x : Nat} :
    x ∈ lineOrder t.size bs ↔ x < t.size := by
  rw [lineOrder_eq_flatMap_block, List.mem_flatMap]
  constructor
  · rintro ⟨i, hi, hx⟩
    rcases ((mem_block (List.mem_range.mp hi)).mp hx).2 with rfl | ⟨b, hb, _, hmem⟩
    · exact List.mem_range.mp hi
    · obtain ⟨second, hbubble⟩ := hbs.isBubble hb
      exact hbubble.chain_line.lt_size ht hmem
  · intro hx
    obtain ⟨i, hi, hmem⟩ := hbs.exists_block ht hx
    exact ⟨i, List.mem_range.mpr (by omega), hmem⟩

theorem nodup_lineOrder (ht : t.Consistent) (hbs : t.AreBubbles most bs) :
    (lineOrder t.size bs).Nodup := by
  rw [lineOrder_eq_flatMap_block, List.nodup_flatMap]
  refine ⟨fun i hi => hbs.nodup_block ht (List.mem_range.mp hi), ?_⟩
  refine List.Pairwise.imp_of_mem (fun {i j} hi hj hne x hxi hxj => ?_) List.nodup_range
  exact hne (hbs.eq_of_mem_block (List.mem_range.mp hi) (List.mem_range.mp hj) hxi hxj)

theorem showable_lineOrder (ht : t.Consistent) (hbs : t.AreBubbles most bs) :
    t.Showable (lineOrder t.size bs) :=
  ⟨hbs.nodup_lineOrder ht, fun _ hx => (hbs.mem_lineOrder ht).mp hx⟩

theorem nodup (hbs : t.AreBubbles most bs) : bs.Nodup := by
  refine hbs.disjoint.imp fun {b c} hdisjoint heq => ?_
  subst heq
  exact hdisjoint List.mem_cons_self List.mem_cons_self

/-- In the place of a merge stand the merge and its chain. -/
theorem block_merge (ht : t.Consistent) (hbs : t.AreBubbles most bs) {b : Bubble} (hb : b ∈ bs) :
    block t.size bs b.merge = b.merge :: b.chain := by
  have hlt := hbs.merge_lt_size ht hb
  have hother : ∀ c ∈ bs, c ≠ b → (c.chain.map (c.merge, ·)).filter (·.1 == b.merge) = [] := by
    intro c hc hne
    have hmerge : c.merge ≠ b.merge := fun heq =>
      hne (hbs.eq_of_mem hc hb List.mem_cons_self (heq ▸ List.mem_cons_self))
    simp [hmerge]
  have hpairs : (chainPairs bs).filter (·.1 == b.merge) = b.chain.map (b.merge, ·) := by
    rw [chainPairs, List.filter_flatMap, flatMap_eq_of_nodup hbs.nodup hb hother]
    simp
  rw [block_of_stays hlt fun c hc => hbs.merge_notMem_chain hb hc, gather_getD _ _ hlt, hpairs,
    List.map_map]
  simp [Function.comp_def]

/-- The chain of a bubble stands directly under its merge. -/
theorem merge_chain_infix (ht : t.Consistent) (hbs : t.AreBubbles most bs) {b : Bubble}
    (hb : b ∈ bs) : (b.merge :: b.chain) <:+: lineOrder t.size bs := by
  rw [lineOrder_eq_flatMap_block, ← hbs.block_merge ht hb]
  exact List.infix_flatMap_of_mem (List.mem_range.mpr (hbs.merge_lt_size ht hb)) _

/-- A row that is in no chain stays below the rows above it. -/
theorem pair_sublist_of_lt (ht : t.Consistent) (hbs : t.AreBubbles most bs) {r x : Nat}
    (hrx : r < x) (hx : x < t.size) (hstays : ∀ b ∈ bs, x ∉ b.chain) :
    [r, x].Sublist (lineOrder t.size bs) := by
  obtain ⟨i, hi, hmem⟩ := hbs.exists_block ht (Nat.lt_trans hrx hx)
  exact pair_sublist_flatMap (pair_sublist_range (by omega) hx) hmem
    ((mem_block hx).mpr ⟨hstays, Or.inl rfl⟩)

end AreBubbles

/-! ## the edges after rewiring -/

/-- The last row of the chain of a bubble has its edge moved from the base to
the first parent, unless these are one row. -/
def Redirects (b : Bubble) (r : Nat) : Prop :=
  b.firstParent ≠ b.base ∧ b.chain.getLast? = some r

theorem mem_hidden {size r x : Nat} : x ∈ (Rewiring.ofBubbles size bs).hidden.getD r [] ↔
    r < size ∧ ∃ b ∈ bs, b.merge = r ∧ b.firstParent = x := by
  simp only [Rewiring.ofBubbles, mem_gather_getD, List.mem_map, Prod.mk.injEq]

theorem mem_redirected {size r d x : Nat} :
    (d, x) ∈ (Rewiring.ofBubbles size bs).redirected.getD r [] ↔
      r < size ∧ ∃ b ∈ bs, Redirects b r ∧ b.base = d ∧ b.firstParent = x := by
  rw [Rewiring.ofBubbles, mem_gather_getD, List.mem_filterMap]
  refine and_congr_right fun _ => exists_congr fun b => and_congr_right fun _ => ?_
  by_cases hb : b.firstParent = b.base
  · rw [if_pos hb]
    exact ⟨fun h => by contradiction, fun h => absurd hb h.1.1⟩
  · rw [if_neg hb, Option.map_eq_some_iff]
    constructor
    · rintro ⟨y, hlast, heq⟩
      obtain ⟨hrow, hends⟩ := Prod.mk.inj heq
      obtain ⟨rfl, rfl⟩ := Prod.mk.inj hends
      exact ⟨⟨hb, hrow ▸ hlast⟩, rfl, rfl⟩
    · rintro ⟨⟨_, hlast⟩, rfl, rfl⟩
      exact ⟨r, hlast, rfl⟩

/-- An edge after rewiring: a hidden one is gone, a moved one is dotted, any
other one stays. -/
theorem apply_row_eq_some_iff {w : Rewiring} {r d x : Nat} {k s : Stroke} :
    w.apply r (.row d k) = some (.row x s) ↔ d ∉ w.hidden.getD r [] ∧
      ((s = .dotted ∧ (w.redirected.getD r []).find? (·.1 == d) = some (d, x)) ∨
        (s = k ∧ x = d ∧ ∀ y, (d, y) ∉ w.redirected.getD r [])) := by
  rw [Rewiring.apply]
  by_cases hhidden : d ∈ w.hidden.getD r []
  · rw [if_pos (by rwa [List.contains_iff_mem])]
    exact iff_of_false (by simp) fun h => h.1 hhidden
  · rw [if_neg (by rwa [List.contains_iff_mem]), and_iff_right hhidden]
    cases hfind : (w.redirected.getD r []).find? (·.1 == d) with
    | none =>
        have hstays : ∀ y, (d, y) ∉ w.redirected.getD r [] := fun y hy => by
          simpa using List.find?_eq_none.mp hfind _ hy
        constructor
        · intro h
          cases h
          exact Or.inr ⟨rfl, rfl, hstays⟩
        · rintro (⟨_, h⟩ | ⟨rfl, rfl, _⟩)
          · contradiction
          · rfl
    | some p =>
        obtain ⟨e, y⟩ := p
        have hmem := List.mem_of_find?_eq_some hfind
        obtain rfl : e = d := by simpa using List.find?_some hfind
        constructor
        · intro h
          cases h
          exact Or.inl ⟨rfl, rfl⟩
        · rintro (⟨rfl, h⟩ | ⟨_, _, hstays⟩)
          · cases h
            rfl
          · exact absurd hmem (hstays y)

/-- The targets of a row when bubbles are drawn as lines. -/
def lineTargets (t : Rows) (bs : List Bubble) (r : Nat) : List Down :=
  (t.downOf r).filterMap ((Rewiring.ofBubbles t.size bs).apply r)

theorem drawLines_eq_drawn (t : Rows) (bs : List Bubble) :
    t.drawLines bs = t.drawn (lineOrder t.size bs) (t.lineTargets bs) := rfl

theorem mem_missing_lineTargets {r m : Nat} :
    .missing m ∈ t.lineTargets bs r ↔ .missing m ∈ t.downOf r := by
  rw [lineTargets, List.mem_filterMap]
  constructor
  · rintro ⟨e, he, hm⟩
    cases e with
    | missing k => cases hm; exact he
    | row d k =>
        rw [Rewiring.apply] at hm
        split at hm
        · contradiction
        · split at hm
          · cases hm
          · cases hm
  · exact fun hm => ⟨_, hm, rfl⟩

namespace AreBubbles

/-- The row whose edge a bubble moves has that edge only, to the base. -/
theorem onlyParent?_of_redirects (hbs : t.AreBubbles most bs) {b : Bubble} (hb : b ∈ bs)
    {r : Nat} (hr : Redirects b r) : t.onlyParent? r = some b.base := by
  obtain ⟨second, hbubble⟩ := hbs.isBubble hb
  exact hbubble.chain_line.getLast? hr.2

theorem eq_of_redirects (hbs : t.AreBubbles most bs) {b c : Bubble} (hb : b ∈ bs) (hc : c ∈ bs)
    {r : Nat} (hr : Redirects b r) (hr' : Redirects c r) : b = c :=
  hbs.eq_of_mem_chain hb hc (List.mem_of_getLast? hr.2) (List.mem_of_getLast? hr'.2)

/-- The edges of a row after rewiring: those it had, except the edge of a
merge to its first parent and the edge of a chain to its base, which leads to
the first parent instead. -/
theorem mem_row_lineTargets (ht : t.Consistent) (hbs : t.AreBubbles most bs) {r x : Nat}
    {s : Stroke} : .row x s ∈ t.lineTargets bs r ↔
      (.row x s ∈ t.downOf r ∧ (¬ ∃ b ∈ bs, b.merge = r ∧ b.firstParent = x) ∧
        ¬ ∃ b ∈ bs, Redirects b r ∧ b.base = x) ∨
      (s = .dotted ∧ ∃ b ∈ bs, Redirects b r ∧ b.firstParent = x) := by
  rw [lineTargets, List.mem_filterMap]
  constructor
  · rintro ⟨e, he, hx⟩
    cases e with
    | missing m => cases hx
    | row d k =>
        have hlt := ht.lt_size_of_mem_downOf he
        obtain ⟨hshown, hmoved⟩ := apply_row_eq_some_iff.mp hx
        rw [mem_hidden, and_iff_right hlt] at hshown
        rcases hmoved with ⟨rfl, hmem⟩ | ⟨rfl, rfl, hstays⟩
        · obtain ⟨_, b, hb, hr, _, hfirst⟩ := mem_redirected.mp (List.mem_of_find?_eq_some hmem)
          exact Or.inr ⟨rfl, b, hb, hr, hfirst⟩
        · refine Or.inl ⟨he, hshown, fun ⟨b, hb, hr, hbase⟩ => ?_⟩
          exact hstays _ (mem_redirected.mpr ⟨hlt, b, hb, hr, hbase, rfl⟩)
  · rintro (⟨he, hshown, hstays⟩ | ⟨rfl, b, hb, hr, rfl⟩)
    · have hlt := ht.lt_size_of_mem_downOf he
      refine ⟨_, he, apply_row_eq_some_iff.mpr ⟨?_, Or.inr ⟨rfl, rfl, fun y hy => ?_⟩⟩⟩
      · rwa [mem_hidden, and_iff_right hlt]
      · obtain ⟨_, b, hb, hr, hbase, _⟩ := mem_redirected.mp hy
        exact hstays ⟨b, hb, hr, hbase⟩
    · have hdown := onlyParent?_eq_some_iff.mp (hbs.onlyParent?_of_redirects hb hr)
      have he : .row b.base .usual ∈ t.downOf r := by simp [hdown]
      have hlt := ht.lt_size_of_mem_downOf he
      refine ⟨_, he, apply_row_eq_some_iff.mpr ⟨?_, Or.inl ⟨rfl, ?_⟩⟩⟩
      · rw [mem_hidden]
        rintro ⟨_, c, hc, rfl, _⟩
        exact hbs.merge_notMem_chain hc hb (List.mem_of_getLast? hr.2)
      · -- all entries of the row are those of one bubble
        have hmem := mem_redirected.mpr ⟨hlt, b, hb, hr, rfl, rfl⟩
        cases hfind : ((Rewiring.ofBubbles t.size bs).redirected.getD r []).find?
          (·.1 == b.base) with
        | none => exact absurd (by simp) (List.find?_eq_none.mp hfind _ hmem)
        | some p =>
            obtain ⟨d, x⟩ := p
            obtain ⟨_, c, hc, hr', rfl, rfl⟩ :=
              mem_redirected.mp (List.mem_of_find?_eq_some hfind)
            rw [hbs.eq_of_redirects hb hc hr hr']

/-- Every edge leads down the new order. -/
theorem pair_sublist_of_target (ht : t.Consistent) (hbs : t.AreBubbles most bs) {r x : Nat}
    {s : Stroke} (hx : .row x s ∈ t.lineTargets bs r) : [r, x].Sublist (lineOrder t.size bs) := by
  rcases (hbs.mem_row_lineTargets ht).mp hx with ⟨he, _, _⟩ | ⟨_, b, hb, hr, rfl⟩
  · obtain ⟨hrx, hxlt⟩ := ht.below he
    by_cases hstays : ∀ b ∈ bs, x ∉ b.chain
    · exact hbs.pair_sublist_of_lt ht hrx hxlt hstays
    · push Not at hstays
      obtain ⟨b, hb, hmem⟩ := hstays
      obtain ⟨second, hbubble⟩ := hbs.isBubble hb
      refine List.Sublist.trans ?_ (hbs.merge_chain_infix ht hb).sublist
      rcases hbubble.above_chain ht hmem ⟨s, he⟩ with rfl | hpair
      · exact (List.singleton_sublist.mpr hmem).cons_cons _
      · exact hpair.cons _
  · obtain ⟨second, hbubble⟩ := hbs.isBubble hb
    have hmem := List.mem_of_getLast? hr.2
    have hpath := hbubble.path_line.start_mem hr.1
    -- the chain stands in the block of the merge, which is above the first parent
    have hstays : ∀ c ∈ bs, b.firstParent ∉ c.chain := by
      intro c hc hchain
      have hb' : b.firstParent ∈ b.rows := List.mem_cons_of_mem _ (List.mem_append_right _ hpath)
      have hc' : b.firstParent ∈ c.rows := List.mem_cons_of_mem _ (List.mem_append_left _ hchain)
      obtain rfl := hbs.eq_of_mem hb hc hb' hc'
      exact hbubble.disjoint ht hchain hpath
    obtain ⟨hlt, hltsize⟩ := ht.below_lt hbubble.below_first
    have hmerge : [b.merge, b.firstParent].Sublist (List.range t.size) :=
      pair_sublist_range hlt hltsize
    rw [lineOrder_eq_flatMap_block]
    refine pair_sublist_flatMap hmerge ?_ ((mem_block hltsize).mpr ⟨hstays, Or.inl rfl⟩)
    exact (mem_block (Nat.lt_trans hlt hltsize)).mpr
      ⟨fun c hc => hbs.merge_notMem_chain hb hc, Or.inr ⟨b, hb, rfl, hmem⟩⟩

theorem consistent_drawLines (ht : t.Consistent) (hbs : t.AreBubbles most bs) :
    (t.drawLines bs).Consistent := by
  rw [drawLines_eq_drawn]
  exact consistent_drawn ht (hbs.showable_lineOrder ht) fun _ _ hx =>
    hbs.pair_sublist_of_target ht hx

end AreBubbles

/-- Straightening keeps a layer consistent. -/
theorem consistent_straightened (ht : t.Consistent) (most : Nat) :
    (t.straightened most).Consistent := by
  rw [straightened]
  split
  · exact consistent_redrawn ht
  · exact (areBubbles_bubbles t most).consistent_drawLines ht

end Rows

end Lineage
