import Lineage.Proofs.LanePaths.Chains

/-!
# Lineage.Proofs.LanePaths.Downward

Each lane is one way down, and the lanes hang on each other.  The walk gives a
lane to a head or to a parent of the node it stands on, which has a lane
already and not a greater one.  So the first node of a lane is a head or hangs
on a smaller lane: a child of it in its own lane would be below it.

* `Painting.Hung` — the invariant of the walk.
* `Painting.starts_paintAll` — the first lane of each head is its own.
* `Lanes.runDown_of_load` — the lanes of every history that loads.
-/

namespace Lineage

open Relation (TransGen)

namespace Painting

open History

variable {h : History} {p : Painting} {node : Nat} {heads stack : List Nat} {arrived : Bool}

/-! ## what a node hangs on -/

/-- The node is a head, or a child of it has a lane up to `bound`. -/
def Hangs (h : History) (p : Painting) (bound n : Nat) : Prop :=
  h.IsHead n ∨ ∃ c, h.IsParent c n ∧ p.laneOf c ≠ 0 ∧ p.laneOf c ≤ bound

/-- Every node of the stack has a lane, and whoever has one is a head or has a
child with a lane that is not greater. -/
structure Hung (h : History) (p : Painting) (stack : List Nat) : Prop where
  painted : ∀ s ∈ stack, p.laneOf s ≠ 0
  hangs : ∀ {n}, p.laneOf n ≠ 0 → Hangs h p (p.laneOf n) n

namespace Hung

theorem give (hu : Hung h p stack) (hfree : p.isFree node = true)
    (hnode : Hangs h p p.current node) : Hung h (p.give node) (node :: stack) := by
  have hgrows : Grows (fun _ => True) p (p.give node) := .give hfree trivial
  have hkept : ∀ {bound n}, Hangs h p bound n → Hangs h (p.give node) bound n := by
    rintro bound n (hhead | ⟨c, hc, hpainted, hle⟩)
    · exact Or.inl hhead
    · exact Or.inr ⟨c, hc, hgrows.ne_zero hpainted, by rwa [hgrows.kept hpainted]⟩
  have hlane : (p.give node).laneOf node = p.current := by simp [laneOf_give hfree]
  refine ⟨List.forall_mem_cons.mpr ⟨by simp [hlane, current], fun s hs =>
    hgrows.ne_zero (hu.painted s hs)⟩, fun {n} hpainted => ?_⟩
  by_cases heq : n = node
  · rw [heq, hlane]
    exact hkept hnode
  · rw [laneOf_give hfree, if_neg heq] at hpainted ⊢
    exact hkept (hu.hangs hpainted)

theorem leave (hu : Hung h p (node :: stack)) : Hung h (p.leave arrived) stack where
  painted s hs := by simpa using hu.painted s (List.mem_cons_of_mem node hs)
  hangs {n} := by simpa [Hangs] using hu.hangs (n := n)

theorem descend (hl : Linked h.size h.loadedParents h.loadedChildren)
    (hw : Walking h p stack arrived) (hu : Hung h p stack) :
    Hung h (p.descend h stack arrived) [] := by
  fun_induction Painting.descend h p stack arrived with
  | case1 p arrived => exact hu
  | case2 p arrived node rest parent hfound ih =>
      have hfree : p.isFree parent = true := List.find?_some hfound
      have hparent : h.IsParent node parent := List.mem_of_find?_eq_some hfound
      have hle : p.laneOf node ≤ p.current :=
        Nat.le_trans (hw.lane_le node) (Nat.add_le_add_left (Bool.toNat_le arrived) _)
      exact ih (hw.push hfree) (hu.give hfree
        (Or.inr ⟨node, hparent, hu.painted node List.mem_cons_self, hle⟩))
  | case3 p arrived node rest hnone ih =>
      have hdone : ∀ m ∈ h.loadedParents node, ¬ p.isFree m := by
        simpa using List.find?_eq_none.mp hnone
      exact ih (hw.pop hl hdone) hu.leave

/-- The walks from heads that are all free. -/
theorem paintAll (hl : Linked h.size h.loadedParents h.loadedChildren)
    (hw : Walking h p [] false) (hu : Hung h p []) (hnodup : heads.Nodup)
    (hheads : ∀ head ∈ heads, h.IsHead head ∧ p.laneOf head = 0) :
    Hung h (p.paintAll h heads).1 [] := by
  induction heads generalizing p with
  | nil => exact hu
  | cons head heads ih =>
      obtain ⟨hfree, hrest⟩ := hw.free_heads hl hnodup hheads
      have hgive := hu.give hfree (Or.inl (hheads head List.mem_cons_self).1)
      exact ih (hw.paint hl hfree).1 (hgive.descend hl (hw.push hfree)) hnodup.of_cons hrest

end Hung

/-! ## where heads start -/

/-- The first lane of each head is its own. -/
theorem starts_paintAll (hl : Linked h.size h.loadedParents h.loadedChildren)
    (hw : Walking h p [] false) (hnodup : heads.Nodup)
    (hheads : ∀ head ∈ heads, h.IsHead head ∧ p.laneOf head = 0) :
    (p.paintAll h heads).2 = heads.map (p.paintAll h heads).1.laneOf := by
  induction heads generalizing p with
  | nil => rfl
  | cons head heads ih =>
      obtain ⟨hfree, hrest⟩ := hw.free_heads hl hnodup hheads
      obtain ⟨hw', _, hlane⟩ := hw.paint hl hfree
      have hgrows := (regions_paintAll hl hw' hnodup.of_cons hrest).grows
      have hkept := hgrows.kept (n := head) (by simp [hlane, current])
      rw [hlane] at hkept
      exact List.cons_eq_cons.mpr ⟨hkept.symm, ih hw' hnodup.of_cons hrest⟩

theorem head?_paintAll (heads : List Nat) :
    (p.paintAll h heads).2.head? = heads.head?.map fun _ => p.current := by
  cases heads <;> rfl

end Painting

namespace History

variable {h : History} {lane : Nat → Nat} {l : Nat} {path : List Nat}

/-! ## the nodes of a lane -/

/-- A lane as a way down: each of its nodes is a parent of the one before it.
The first one is a head or has a child in a smaller lane; the last one has all
its parents in smaller lanes. -/
structure Downward (h : History) (lane : Nat → Nat) (l : Nat) (path : List Nat) : Prop where
  nonempty : path ≠ []
  nodup : path.Nodup
  mem_iff : ∀ {n}, n ∈ path ↔ lane n = l
  chain : path.IsChain h.IsParent
  first : ∀ n ∈ path.head?, h.IsHead n ∨ ∃ c, h.IsParent c n ∧ lane c < l
  last : ∀ n ∈ path.getLast?, ∀ m, h.IsParent n m → lane m < l

/-- Each node of a lane is an ancestor of the nodes before it. -/
theorem LanePath.pairwise (hpath : h.LanePath lane l path) : path.Pairwise (TransGen h.IsParent) :=
  (hpath.chain.imp fun _ _ hlead => TransGen.single hlead.isParent).pairwise

/-- Where no node is its own ancestor, the way down a lane starts at a head or
below a smaller lane. -/
theorem LanePath.downward (hacyclic : ∀ n, ¬ TransGen h.IsParent n n)
    (hpath : h.LanePath lane l path) (hends : ∃ last ∈ path.getLast?, h.Ends lane last)
    (hhangs : ∀ n ∈ path.head?, h.IsHead n ∨ ∃ c, h.IsParent c n ∧ lane c ≤ lane n) :
    h.Downward lane l path := by
  obtain ⟨last, hlast, hends⟩ := hends
  refine ⟨List.ne_nil_of_mem (List.mem_of_getLast? hlast), hpath.pairwise.imp ?_, hpath.mem_iff,
    hpath.chain.imp fun _ _ hlead => hlead.isParent, fun n hn => ?_, fun n hn m hm => ?_⟩
  · rintro m n hmn rfl
    exact hacyclic m hmn
  · refine (hhangs n hn).imp_right fun ⟨c, hc, hle⟩ => ⟨c, hc, ?_⟩
    obtain ⟨rest, rfl⟩ := List.head?_eq_some_iff.mp hn
    rw [hpath.mem_iff.mp List.mem_cons_self] at hle
    refine Nat.lt_of_le_of_ne hle fun heq => ?_
    rcases List.mem_cons.mp (hpath.mem_iff.mpr heq) with rfl | hmem
    · exact hacyclic c (.single hc)
    · exact hacyclic n (.tail (List.rel_of_pairwise_cons hpath.pairwise hmem) hc)
  · obtain rfl : last = n := Option.some.inj (hlast.symm.trans hn)
    have hlt := (hends m hm).2
    rwa [hpath.mem_iff.mp (List.mem_of_getLast? hlast)] at hlt

end History

namespace Lanes

open History

variable {h : History}

/-! ## the lanes of a history -/

theorem starts_ofHistory (hs : h.Sound) (compare : Nat → Nat → Ordering) :
    (ofHistory h compare).starts = (ofHistory h compare).heads.map (ofHistory h compare).lane :=
  Painting.starts_paintAll hs.linked (walking_blank h)
    (nodup_heads_ofHistory h compare) (free_heads_ofHistory h compare)

theorem hung_ofHistory (hs : h.Sound) (compare : Nat → Nat → Ordering) :
    Painting.Hung h ((blank h).paintAll h (ofHistory h compare).heads).1 [] := by
  have hblank : Painting.Hung h (blank h) [] :=
    ⟨by simp, fun hpainted => absurd (laneOf_blank h _) hpainted⟩
  exact hblank.paintAll hs.linked (walking_blank h)
    (nodup_heads_ofHistory h compare) (free_heads_ofHistory h compare)

/-- The lanes of a history, which are those from `1` to `count`: each is a way
down, and the first lanes of the heads are their own, the first of them `1`. -/
structure RunDown (h : History) (l : Lanes) (count : Nat) : Prop where
  pos_iff : ∀ {n}, 1 ≤ l.lane n ↔ n < h.size
  lane_le : ∀ n, l.lane n ≤ count
  exists_downward : ∀ {i}, 1 ≤ i → i ≤ count → ∃ path, h.Downward l.lane i path
  mem_heads : ∀ {n}, n ∈ l.heads ↔ h.IsHead n
  starts_eq : l.starts = l.heads.map l.lane
  ascending : l.starts.Pairwise (· < ·)
  start : ∀ s ∈ l.starts.head?, s = 1

theorem runDown_of_sound (hs : h.Sound) (compare : Nat → Nat → Ordering) :
    ∃ count, RunDown h (ofHistory h compare) count := by
  obtain ⟨count, hpos, hle, hpaths⟩ := exists_lanePaths hs compare
  refine ⟨count, hpos, hle, fun {i} hi hcount => ?_, mem_heads_ofHistory,
    starts_ofHistory hs compare, (regions_ofHistory hs.linked compare).ascending,
    fun s hstart => ?_⟩
  · obtain ⟨path, hpath, hends⟩ := hpaths hi hcount
    refine ⟨path, hpath.downward hs.acyclic hends fun n hn => ?_⟩
    have hlane : (ofHistory h compare).lane n ≠ 0 := by
      rw [hpath.mem_iff.mp (List.mem_of_mem_head? hn)]
      omega
    exact ((hung_ofHistory hs compare).hangs hlane).imp_right fun ⟨c, hc, _, hle⟩ => ⟨c, hc, hle⟩
  · have hfirst : (ofHistory h compare).starts.head? = _ :=
      Painting.head?_paintAll (h := h) (p := blank h) (ofHistory h compare).heads
    rw [hfirst] at hstart
    obtain ⟨_, _, rfl⟩ := Option.map_eq_some_iff.mp hstart
    rfl

variable {α : Type} [BEq α] [Hashable α] [EquivBEq α] [LawfulHashable α]
  {commits : List (Commit α)} {slots slots' : Placeholders α}

/-- The lanes of every history that loads are ways down, however its heads are
ranked. -/
theorem runDown_of_load (hload : load commits slots = .ok (h, slots'))
    (compare : Nat → Nat → Ordering) : ∃ count, RunDown h (ofHistory h compare) count :=
  runDown_of_sound (sound_of_load hload) compare

/-- The lanes of a merge, its heads ranked by their numbers. -/
theorem runDown_of_load_merge :
    (∃ slots, load mergeCommits .empty = .ok (mergeHistory, slots)) ∧
      ∃ count, RunDown mergeHistory (ofHistory mergeHistory Ord.compare) count := by
  obtain ⟨slots, hload⟩ := load_mergeHistory
  exact ⟨⟨slots, hload⟩, runDown_of_load hload Ord.compare⟩

end Lanes

end Lineage
