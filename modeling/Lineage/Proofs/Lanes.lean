import Mathlib.Order.Bounds.Defs
import Mathlib.Order.Nat
import Lineage.Lanes
import Lineage.Proofs.ChildrenFirst

/-!
# Lineage.Proofs.Lanes

The lanes of a history and the heads they belong to.  A walk paints what is
free below its start; the walks start from the heads in turn, so the lanes of a
head go to the nodes that no head before it reaches.

* `Painting.Walking.push`, `Painting.Walking.pop` — the two steps of a walk,
  and `Painting.Walking.descend` — a whole one.
* `Painting.regions_paintAll` — the walks from several heads, each with the
  lanes from its first one up to that of the next.
* `Lanes.partition_of_load` — the head of a lane is the first one that
  reaches the node.
-/

namespace Lineage

open Relation (ReflTransGen)

namespace Painting

/-! ## one node -/

/-- The lane of a node so far, `0` if it has none. -/
def laneOf (p : Painting) (node : Nat) : Nat := p.lanes.getD node 0

variable {h : History} {p q r : Painting} {node start : Nat} {stack : List Nat} {arrived : Bool}
  {below below' : Nat → Prop}

theorem isFree_iff : p.isFree node = true ↔ node < p.lanes.size ∧ p.laneOf node = 0 := by
  rw [isFree, laneOf, Array.getD_eq_getD_getElem?, beq_iff_eq]
  rcases Nat.lt_or_ge node p.lanes.size with hn | hn
  · simp [hn]
  · simp [Nat.not_lt.mpr hn]

theorem laneOf_give (hfree : p.isFree start = true) (n : Nat) :
    (p.give start).laneOf n = if n = start then p.current else p.laneOf n := by
  have hstart := (isFree_iff.mp hfree).1
  simp only [laneOf, give, getD_setIfInBounds, hstart, and_true, eq_comm]

@[simp] theorem size_give : (p.give node).lanes.size = p.lanes.size := by
  simp [give]

@[simp] theorem closed_give : (p.give node).closed = p.closed := rfl

@[simp] theorem laneOf_leave (n : Nat) : (p.leave arrived).laneOf n = p.laneOf n := by
  cases arrived <;> rfl

@[simp] theorem size_leave : (p.leave arrived).lanes.size = p.lanes.size := by
  cases arrived <;> rfl

@[simp] theorem closed_leave : (p.leave arrived).closed = p.closed + arrived.toNat := by
  cases arrived <;> rfl

/-! ## what is added -/

/-- What a painting adds to an earlier one: lanes stay, and new ones come after
those that were closed, on nodes with the property `below`. -/
structure Grows (below : Nat → Prop) (p q : Painting) : Prop where
  closed_le : p.closed ≤ q.closed
  kept : ∀ {n}, p.laneOf n ≠ 0 → q.laneOf n = p.laneOf n
  added : ∀ {n}, p.laneOf n = 0 → q.laneOf n ≠ 0 → p.closed < q.laneOf n ∧ below n

namespace Grows

theorem refl (below : Nat → Prop) (p : Painting) : Grows below p p :=
  ⟨Nat.le_refl _, fun _ => rfl, fun hfree hpainted => absurd hfree hpainted⟩

theorem mono (hbelow : ∀ {n}, below n → below' n) (hpq : Grows below p q) :
    Grows below' p q :=
  ⟨hpq.closed_le, hpq.kept, fun hfree hpainted => (hpq.added hfree hpainted).imp_right hbelow⟩

theorem ne_zero (hpq : Grows below p q) {n : Nat} (hpainted : p.laneOf n ≠ 0) :
    q.laneOf n ≠ 0 := by
  rwa [hpq.kept hpainted]

theorem trans (hpq : Grows below p q) (hqr : Grows below q r) : Grows below p r := by
  refine ⟨Nat.le_trans hpq.closed_le hqr.closed_le, fun hpainted => ?_,
    fun {n} hfree hpainted => ?_⟩
  · rw [hqr.kept (hpq.ne_zero hpainted), hpq.kept hpainted]
  · by_cases hmid : q.laneOf n = 0
    · obtain ⟨hlane, hbelow⟩ := hqr.added hmid hpainted
      exact ⟨Nat.lt_of_le_of_lt hpq.closed_le hlane, hbelow⟩
    · rw [hqr.kept hmid]
      exact hpq.added hfree hmid

theorem give (hfree : p.isFree start = true) (hstart : below start) :
    Grows below p (p.give start) := by
  have hzero := (isFree_iff.mp hfree).2
  refine ⟨Nat.le_refl _, fun {n} hpainted => ?_, fun {n} hn hpainted => ?_⟩
  · have hne : n ≠ start := fun heq => hpainted (heq ▸ hzero)
    rw [laneOf_give hfree, if_neg hne]
  · rw [laneOf_give hfree] at hpainted ⊢
    by_cases heq : n = start
    · subst heq
      exact ⟨by simp [current], hstart⟩
    · rw [if_neg heq] at hpainted
      contradiction

theorem leave (below : Nat → Prop) (p : Painting) (arrived : Bool) :
    Grows below p (p.leave arrived) := by
  refine ⟨by simp, fun _ => laneOf_leave _, fun hfree hpainted => ?_⟩
  rw [laneOf_leave] at hpainted
  contradiction

end Grows

/-! ## walks -/

/-- The nodes on or below a stack. -/
def Below (h : History) (stack : List Nat) (n : Nat) : Prop :=
  ∃ s ∈ stack, ReflTransGen h.IsParent s n

/-- What holds while a walk goes on from a stack: the lanes are closed, or the
next one if the walk has just arrived; and whoever is painted and not on the
stack has painted parents. -/
structure Walking (h : History) (p : Painting) (stack : List Nat) (arrived : Bool) : Prop where
  size_eq : p.lanes.size = h.size
  lane_le : ∀ n, p.laneOf n ≤ p.closed + arrived.toNat
  parents : ∀ {n}, p.laneOf n ≠ 0 → n ∉ stack → ∀ m ∈ h.loadedParents n, p.laneOf m ≠ 0

namespace Walking

/-- A walk goes on to a free node. -/
theorem push (hw : Walking h p stack arrived) (hfree : p.isFree node = true) :
    Walking h (p.give node) (node :: stack) true := by
  have hgrows : Grows (fun _ => True) p (p.give node) := .give hfree trivial
  refine ⟨by simp [hw.size_eq], fun n => ?_, fun {n} hpainted hn m hm => ?_⟩
  · rw [laneOf_give hfree]
    have hle := hw.lane_le n
    have harrived := Bool.toNat_le arrived
    split
    · simp [current]
    · simp only [closed_give, Bool.toNat_true]
      omega
  · obtain ⟨hne, hn⟩ : n ≠ node ∧ n ∉ stack := by simpa using hn
    rw [laneOf_give hfree, if_neg hne] at hpainted
    exact hgrows.ne_zero (hw.parents hpainted hn m hm)

/-- A walk goes back from a node without free parents. -/
theorem pop (hl : Linked h.size h.loadedParents h.loadedChildren)
    (hw : Walking h p (node :: stack) arrived) (hdone : ∀ m ∈ h.loadedParents node, ¬ p.isFree m) :
    Walking h (p.leave arrived) stack false := by
  refine ⟨by simp [hw.size_eq], fun n => ?_, fun {n} hpainted hn m hm => ?_⟩
  · simpa using hw.lane_le n
  · rw [laneOf_leave] at hpainted ⊢
    by_cases hnode : n = node
    · subst hnode
      have hsize : m < p.lanes.size := by
        rw [hw.size_eq]
        exact hl.parent_lt hm
      exact fun hzero => hdone m hm (isFree_iff.mpr ⟨hsize, hzero⟩)
    · exact hw.parents hpainted (by simp [hnode, hn]) m hm

/-- A walk ends with all parents painted, and it has only painted what is on or
below its stack. -/
theorem descend (hl : Linked h.size h.loadedParents h.loadedChildren)
    (hw : Walking h p stack arrived) (hstack : arrived = true → stack ≠ []) :
    Walking h (p.descend h stack arrived) [] false ∧
      Grows (Below h stack) p (p.descend h stack arrived) := by
  fun_induction Painting.descend h p stack arrived with
  | case1 p arrived =>
      obtain rfl : arrived = false := by simpa using hstack
      exact ⟨hw, .refl _ p⟩
  | case2 p arrived node rest parent hfound ih =>
      have hfree : p.isFree parent = true := List.find?_some hfound
      have hparent : h.IsParent node parent := List.mem_of_find?_eq_some hfound
      obtain ⟨hend, hgrows⟩ := ih (hw.push hfree) (by simp)
      have hgive : Grows (Below h (node :: rest)) p (p.give parent) :=
        .give hfree ⟨node, List.mem_cons_self, .single hparent⟩
      refine ⟨hend, hgive.trans (hgrows.mono ?_)⟩
      rintro n ⟨s, hs, hreach⟩
      rcases List.mem_cons.mp hs with rfl | hs
      · exact ⟨node, List.mem_cons_self, .head hparent hreach⟩
      · exact ⟨s, hs, hreach⟩
  | case3 p arrived node rest hnone ih =>
      have hdone : ∀ m ∈ h.loadedParents node, ¬ p.isFree m := by
        simpa using List.find?_eq_none.mp hnone
      obtain ⟨hend, hgrows⟩ := ih (hw.pop hl hdone) (by simp)
      refine ⟨hend, (Grows.leave _ p arrived).trans (hgrows.mono ?_)⟩
      rintro n ⟨s, hs, hreach⟩
      exact ⟨s, List.mem_cons_of_mem node hs, hreach⟩

/-- Between two walks, whatever is below a painted node is painted. -/
theorem ne_zero_of_reach (hw : Walking h p [] false) {s n : Nat} (hs : p.laneOf s ≠ 0)
    (hreach : ReflTransGen h.IsParent s n) : p.laneOf n ≠ 0 := by
  induction hreach with
  | refl => exact hs
  | tail _ hparent ih => exact hw.parents ih List.not_mem_nil _ hparent

/-- A walk from a free node paints what is free on and below it. -/
theorem paint (hl : Linked h.size h.loadedParents h.loadedChildren) (hw : Walking h p [] false)
    (hfree : p.isFree start = true) :
    Walking h (p.paint h start) [] false ∧
      Grows (ReflTransGen h.IsParent start) p (p.paint h start) ∧
      (p.paint h start).laneOf start = p.current := by
  obtain ⟨hend, hgrows⟩ := (hw.push hfree).descend hl (by simp)
  have hgive : Grows (ReflTransGen h.IsParent start) p (p.give start) := .give hfree .refl
  have hstart : (p.give start).laneOf start = p.current := by simp [laneOf_give hfree]
  refine ⟨hend, hgive.trans (hgrows.mono ?_), ?_⟩
  · rintro n ⟨s, hs, hreach⟩
    rwa [List.mem_singleton.mp hs] at hreach
  · rw [← hstart]
    exact hgrows.kept (by simp [hstart, current])

end Walking

end Painting

/-! ## heads -/

namespace History

variable {h : History} {heads : List Nat} {n : Nat}

/-- A node without loaded children. -/
def IsHead (h : History) (n : Nat) : Prop := n < h.size ∧ h.loadedChildren n = []

/-- The places of the heads that are a node or have it as an ancestor. -/
def reaching (h : History) (heads : List Nat) (n : Nat) : Set Nat :=
  {i | ∃ head, heads[i]? = some head ∧ ReflTransGen h.IsParent head n}

theorem mem_headsOf : n ∈ Lanes.headsOf h ↔ h.IsHead n := by
  simp [Lanes.headsOf, IsHead, loadedChildren]

/-- Nothing but a head reaches it. -/
theorem IsHead.eq_of_reach (hl : Linked h.size h.loadedParents h.loadedChildren)
    (hn : h.IsHead n) {m : Nat} (hreach : ReflTransGen h.IsParent m n) : m = n := by
  rcases ReflTransGen.cases_tail hreach with heq | ⟨c, _, hc⟩
  · exact heq.symm
  · have hchild := hl.mem_children.mpr hc
    rw [hn.2] at hchild
    contradiction

/-- Every node is a head or below one. -/
theorem Sound.exists_head (hs : h.Sound) (hn : n < h.size) :
    ∃ head, h.IsHead head ∧ ReflTransGen h.IsParent head n := by
  induction n using hs.wellFounded.induction with
  | _ n ih =>
      cases hchildren : h.loadedChildren n with
      | nil => exact ⟨n, ⟨hn, hchildren⟩, .refl⟩
      | cons c cs =>
          have hparent : h.IsParent c n := hs.linked.mem_children.mp (by simp [hchildren])
          obtain ⟨head, hhead, hreach⟩ := ih c hparent (hs.linked.child_lt hparent)
          exact ⟨head, hhead, hreach.tail hparent⟩

/-- Of a list with all heads, some head is the first to reach a node. -/
theorem Sound.exists_isLeast_reaching (hs : h.Sound) (hheads : ∀ {m}, m ∈ heads ↔ h.IsHead m)
    (hn : n < h.size) : ∃ i, IsLeast (h.reaching heads n) i := by
  classical
  obtain ⟨head, hhead, hreach⟩ := hs.exists_head hn
  obtain ⟨i, hi⟩ := List.mem_iff_getElem?.mp (hheads.mpr hhead)
  exact ⟨_, Nat.isLeast_find ⟨i, head, hi, hreach⟩⟩

/-- The first head of a longer list that reaches a node. -/
theorem isLeast_reaching_cons {head i : Nat} (hi : IsLeast (h.reaching (head :: heads) n) i) :
    i = 0 ∧ ReflTransGen h.IsParent head n ∨
      ∃ k, i = k + 1 ∧ ¬ ReflTransGen h.IsParent head n ∧ IsLeast (h.reaching heads n) k := by
  obtain ⟨⟨first, hfirst, hreach⟩, hleast⟩ := hi
  cases i with
  | zero =>
      obtain rfl : head = first := by simpa using hfirst
      exact Or.inl ⟨rfl, hreach⟩
  | succ k =>
      refine Or.inr ⟨k, rfl, fun hhead => ?_, ⟨first, hfirst, hreach⟩, fun j hj => ?_⟩
      · have hle := hleast (show 0 ∈ h.reaching (head :: heads) n from ⟨head, rfl, hhead⟩)
        omega
      · have hle := hleast (show j + 1 ∈ h.reaching (head :: heads) n from hj)
        omega

end History

namespace Painting

open History

variable {h : History} {p q : Painting} {head : Nat} {heads starts : List Nat}

/-! ## several walks -/

/-- What the walks from a list of heads add to a painting: each head gets a
region of lanes from its first one on, and a node that is free is painted in
the region of the first head that reaches it. -/
structure Regions (h : History) (heads : List Nat) (p q : Painting) (starts : List Nat) :
    Prop where
  grows : Grows (Below h heads) p q
  length_starts : starts.length = heads.length
  closed_lt : ∀ s ∈ starts, p.closed < s
  ascending : starts.Pairwise (· < ·)
  start_le_iff : ∀ {n i}, p.laneOf n = 0 → IsLeast (h.reaching heads n) i →
    ∀ {j s}, starts[j]? = some s → (s ≤ q.laneOf n ↔ j ≤ i)

namespace Regions

theorem lt_length_starts (hr : Regions h heads p q starts) {n i : Nat}
    (hi : i ∈ h.reaching heads n) : i < starts.length := by
  obtain ⟨head, hhead, _⟩ := hi
  rw [hr.length_starts]
  exact (List.getElem?_eq_some_iff.mp hhead).1

/-- The lane of a node that a head reaches is a new one. -/
theorem closed_lt_lane (hr : Regions h heads p q starts) {n i : Nat} (hn : p.laneOf n = 0)
    (hi : IsLeast (h.reaching heads n) i) : p.closed < q.laneOf n := by
  have hstart := List.getElem?_eq_getElem (hr.lt_length_starts hi.1)
  have hle := (hr.start_le_iff hn hi hstart).mpr (Nat.le_refl i)
  exact Nat.lt_of_lt_of_le (hr.closed_lt _ (List.mem_of_getElem? hstart)) hle

/-- One more head in front. -/
theorem cons (hl : Linked h.size h.loadedParents h.loadedChildren) (hw : Walking h p [] false)
    (hfree : p.isFree head = true) (hr : Regions h heads (p.paint h head) q starts) :
    Regions h (head :: heads) p q (p.current :: starts) := by
  obtain ⟨hw', hgrows, hlane⟩ := hw.paint hl hfree
  have hstart : (p.paint h head).laneOf head ≠ 0 := by simp [hlane, current]
  have hclosed : p.closed < (p.paint h head).closed := by
    have hle := hw'.lane_le head
    rw [hlane] at hle
    exact hle
  refine ⟨?_, by simp [hr.length_starts], ?_, ?_, ?_⟩
  · have hfirst : Grows (Below h (head :: heads)) p (p.paint h head) :=
      hgrows.mono fun hreach => ⟨head, List.mem_cons_self, hreach⟩
    refine hfirst.trans (hr.grows.mono ?_)
    rintro n ⟨s, hs, hreach⟩
    exact ⟨s, List.mem_cons_of_mem head hs, hreach⟩
  · exact List.forall_mem_cons.mpr
      ⟨Nat.lt_succ_self _, fun s hs => Nat.lt_trans hclosed (hr.closed_lt s hs)⟩
  · exact List.pairwise_cons.mpr
      ⟨fun s hs => Nat.lt_of_le_of_lt hclosed (hr.closed_lt s hs), hr.ascending⟩
  · intro n i hn hi j s hs
    rcases isLeast_reaching_cons hi with ⟨rfl, hreach⟩ | ⟨k, rfl, hreach, hk⟩
    · -- the first walk paints the node, and its lane stays
      have hkept := hr.grows.kept (hw'.ne_zero_of_reach hstart hreach)
      have hle : (p.paint h head).laneOf n ≤ (p.paint h head).closed := hw'.lane_le n
      have hlt := (hgrows.added hn (hw'.ne_zero_of_reach hstart hreach)).1
      rw [hkept]
      cases j with
      | zero =>
          obtain rfl : p.current = s := by simpa using hs
          simp only [current, Nat.le_refl, iff_true]
          omega
      | succ j =>
          have hafter := hr.closed_lt s (List.mem_of_getElem? (by simpa using hs))
          omega
    · -- the first walk leaves the node to a later one
      have hn' : (p.paint h head).laneOf n = 0 := by
        by_contra hpainted
        exact hreach (hgrows.added hn hpainted).2
      cases j with
      | zero =>
          obtain rfl : p.current = s := by simpa using hs
          have hlt := hr.closed_lt_lane hn' hk
          simp only [current, Nat.zero_le, iff_true]
          omega
      | succ j =>
          rw [hr.start_le_iff hn' hk (by simpa using hs), Nat.add_le_add_iff_right]

end Regions

/-- Of several heads without a lane the first one is free, and the walk from it
leaves the others so: it reaches no head but its own. -/
theorem Walking.free_heads (hl : Linked h.size h.loadedParents h.loadedChildren)
    (hw : Walking h p [] false) (hnodup : (head :: heads).Nodup)
    (hheads : ∀ x ∈ head :: heads, h.IsHead x ∧ p.laneOf x = 0) :
    p.isFree head = true ∧ ∀ x ∈ heads, h.IsHead x ∧ (p.paint h head).laneOf x = 0 := by
  obtain ⟨hnew, _⟩ := List.nodup_cons.mp hnodup
  obtain ⟨⟨hhead, hzero⟩, hheads⟩ := List.forall_mem_cons.mp hheads
  have hsize : head < p.lanes.size := by
    rw [hw.size_eq]
    exact hhead.1
  have hfree : p.isFree head = true := isFree_iff.mpr ⟨hsize, hzero⟩
  refine ⟨hfree, fun x hx => ?_⟩
  obtain ⟨hxhead, hxzero⟩ := hheads x hx
  refine ⟨hxhead, ?_⟩
  by_contra hpainted
  obtain ⟨_, hgrows, _⟩ := hw.paint hl hfree
  have heq := hxhead.eq_of_reach hl (hgrows.added hxzero hpainted).2
  exact hnew (heq ▸ hx)

/-- The walks from heads that are all free. -/
theorem regions_paintAll (hl : Linked h.size h.loadedParents h.loadedChildren)
    (hw : Walking h p [] false) (hnodup : heads.Nodup)
    (hheads : ∀ head ∈ heads, h.IsHead head ∧ p.laneOf head = 0) :
    Regions h heads p (p.paintAll h heads).1 (p.paintAll h heads).2 := by
  induction heads generalizing p with
  | nil =>
      refine ⟨.refl _ p, rfl, by simp [paintAll], by simp [paintAll], ?_⟩
      rintro n i _ ⟨⟨head, hhead, _⟩, _⟩
      simp at hhead
  | cons head heads ih =>
      obtain ⟨hfree, hrest⟩ := hw.free_heads hl hnodup hheads
      obtain ⟨hw', _⟩ := hw.paint hl hfree
      exact (ih hw' hnodup.of_cons hrest).cons hl hw hfree

end Painting

namespace Lanes

open History

/-! ## the lanes of a history -/

/-- How the lanes of a history divide it.  Its heads are the nodes without
children, ranked by `compare` and among equals by their number.  Every node
belongs to the first head that reaches it, and which head that is can be told
from its lane. -/
structure Partition (h : History) (compare : Nat → Nat → Ordering) (l : Lanes) : Prop where
  mem_heads : ∀ {n}, n ∈ l.heads ↔ h.IsHead n
  ranked : l.heads.Pairwise fun a b => compare a b = .lt ∨ compare a b = .eq ∧ a < b
  first : ∀ {n}, n < h.size → IsLeast (h.reaching l.heads n) (l.headPosition n)
  head : ∀ {n}, n < h.size → ∃ head ∈ l.headOf? n, ReflTransGen h.IsParent head n
  lane_pos : ∀ {n}, n < h.size → 1 ≤ l.lane n
  length_starts : l.starts.length = l.heads.length
  ascending : l.starts.Pairwise (· < ·)
  start_le_iff : ∀ {n}, n < h.size → ∀ {i s}, l.starts[i]? = some s →
    (s ≤ l.lane n ↔ i ≤ l.headPosition n)

variable {h : History} {compare : Nat → Nat → Ordering}

theorem pair_sublist_headsOf {a b : Nat} (ha : h.IsHead a) (hb : h.IsHead b) (hab : a < b) :
    [a, b].Sublist (headsOf h) := by
  have hpair := (pair_sublist_range hab hb.1).filter
    fun n => (h.childrenOf (.loaded n)).isEmpty
  rwa [List.filter_eq_self.mpr] at hpair
  intro n hn
  have hhead : h.IsHead n := by
    rcases List.mem_pair.mp hn with rfl | rfl
    · exact ha
    · exact hb
  exact List.isEmpty_iff.mpr hhead.2

theorem nodup_headsOf (h : History) : (headsOf h).Nodup := List.nodup_range.filter _

section Ranking

variable [Std.TransCmp compare]

theorem ne_gt_trans (a b c : Nat) (hab : (compare a b != .gt) = true)
    (hbc : (compare b c != .gt) = true) : (compare a c != .gt) = true := by
  simp only [bne_iff_ne, ne_eq, Ordering.ne_gt_iff_isLE] at hab hbc ⊢
  exact Std.TransCmp.isLE_trans hab hbc

theorem ne_gt_total (a b : Nat) : ((compare a b != .gt) || (compare b a != .gt)) = true := by
  have hswap : compare b a = (compare a b).swap := Std.OrientedCmp.eq_swap
  rw [hswap]
  cases compare a b <;> rfl

/-- A stable sort ranks the heads, equal ones as they are numbered. -/
theorem ranked_mergeSort :
    ((headsOf h).mergeSort fun a b => compare a b != .gt).Pairwise fun a b =>
      compare a b = .lt ∨ compare a b = .eq ∧ a < b := by
  have hperm := (headsOf h).mergeSort_perm fun a b => compare a b != .gt
  have hnodup := hperm.nodup_iff.mpr (nodup_headsOf h)
  have hsorted := List.pairwise_mergeSort (@ne_gt_trans compare _) ne_gt_total (headsOf h)
  rw [List.pairwise_iff_forall_sublist] at hsorted ⊢
  intro a b hab
  have hmem : ∀ n ∈ [a, b], h.IsHead n := fun n hn =>
    mem_headsOf.mp (hperm.mem_iff.mp (hab.subset hn))
  have hle := hsorted hab
  cases hcompare : compare a b with
  | lt => exact Or.inl rfl
  | gt => simp [hcompare] at hle
  | eq =>
      refine Or.inr ⟨rfl, ?_⟩
      by_contra hge
      have hne : a ≠ b := by simpa using hab.nodup hnodup
      -- the sort leaves equal heads as they stood, `b` in front
      have hpair := pair_sublist_headsOf (hmem b (by simp)) (hmem a (by simp)) (by omega)
      have hswap : compare b a = (compare a b).swap := Std.OrientedCmp.eq_swap
      have heq : (compare b a != .gt) = true := by simp [hswap, hcompare]
      exact not_pair_sublist_swap hnodup hab
        (List.pair_sublist_mergeSort ne_gt_trans ne_gt_total heq hpair)

end Ranking

/-- The place of the last first lane that is not above a given one. -/
theorem headPosition_eq {l : Lanes} {n i : Nat} (hi : i < l.starts.length)
    (hstart : ∀ {j s}, l.starts[j]? = some s → (s ≤ l.lane n ↔ j ≤ i)) : l.headPosition n = i := by
  have hlen : (l.starts.takeWhile (· ≤ l.lane n)).length = i + 1 :=
    length_takeWhile (by omega) fun j s hs => by simpa [Nat.lt_succ_iff] using hstart hs
  simp [headPosition, hlen]

/-- The painting of a history before the first walk. -/
def blank (h : History) : Painting := ⟨Array.replicate h.size 0, 0⟩

@[simp] theorem laneOf_blank (h : History) (n : Nat) : (blank h).laneOf n = 0 := by
  rw [blank, Painting.laneOf, Array.getD_eq_getD_getElem?, Array.getElem?_replicate]
  split <;> rfl

theorem walking_blank (h : History) : Painting.Walking h (blank h) [] false :=
  ⟨by simp [blank], by simp, fun hpainted => absurd (laneOf_blank h _) hpainted⟩

theorem perm_heads (h : History) (compare : Nat → Nat → Ordering) :
    (ofHistory h compare).heads.Perm (headsOf h) := List.mergeSort_perm _ _

theorem mem_heads_ofHistory {n : Nat} : n ∈ (ofHistory h compare).heads ↔ h.IsHead n :=
  (perm_heads h compare).mem_iff.trans mem_headsOf

theorem nodup_heads_ofHistory (h : History) (compare : Nat → Nat → Ordering) :
    (ofHistory h compare).heads.Nodup :=
  (perm_heads h compare).nodup_iff.mpr (nodup_headsOf h)

/-- Before the first walk, no head has a lane. -/
theorem free_heads_ofHistory (h : History) (compare : Nat → Nat → Ordering) :
    ∀ head ∈ (ofHistory h compare).heads, h.IsHead head ∧ (blank h).laneOf head = 0 :=
  fun head hhead => ⟨mem_heads_ofHistory.mp hhead, laneOf_blank h head⟩

/-- The heads of a history have the regions of walks from nothing. -/
theorem regions_ofHistory (hl : Linked h.size h.loadedParents h.loadedChildren)
    (compare : Nat → Nat → Ordering) :
    Painting.Regions h (ofHistory h compare).heads (blank h)
      ((blank h).paintAll h (ofHistory h compare).heads).1 (ofHistory h compare).starts :=
  Painting.regions_paintAll hl (walking_blank h)
    (nodup_heads_ofHistory h compare) (free_heads_ofHistory h compare)

/-- The head whose lanes a node is in is the first one that reaches it. -/
theorem isLeast_headPosition (hs : h.Sound) (compare : Nat → Nat → Ordering) {n : Nat}
    (hn : n < h.size) :
    IsLeast (h.reaching (ofHistory h compare).heads n)
      ((ofHistory h compare).headPosition n) := by
  have hr := regions_ofHistory hs.linked compare
  obtain ⟨i, hi⟩ := hs.exists_isLeast_reaching mem_heads_ofHistory hn
  have hplace := headPosition_eq (hr.lt_length_starts hi.1)
    (hr.start_le_iff (laneOf_blank h n) hi)
  rwa [hplace]

/-- Every node is in the lanes of a head that reaches it. -/
theorem exists_headOf? (hs : h.Sound) (compare : Nat → Nat → Ordering) {n : Nat}
    (hn : n < h.size) :
    ∃ head ∈ (ofHistory h compare).headOf? n, ReflTransGen h.IsParent head n := by
  obtain ⟨head, hhead, hreach⟩ := (isLeast_headPosition hs compare hn).1
  exact ⟨head, hhead, hreach⟩

/-- The lanes of a sound history divide it by the first head that reaches each
node. -/
theorem partition_of_sound [Std.TransCmp compare] (hs : h.Sound) :
    Partition h compare (ofHistory h compare) := by
  have hr := regions_ofHistory hs.linked compare
  refine ⟨mem_heads_ofHistory, ranked_mergeSort, isLeast_headPosition hs compare,
    exists_headOf? hs compare, fun {n} hn => ?_, hr.length_starts, hr.ascending,
    fun {n} hn i s hstart => ?_⟩
  · exact hr.closed_lt_lane (laneOf_blank h n) (isLeast_headPosition hs compare hn)
  · exact hr.start_le_iff (laneOf_blank h n) (isLeast_headPosition hs compare hn) hstart

variable {α : Type} [BEq α] [Hashable α] [EquivBEq α] [LawfulHashable α]
  {commits : List (Commit α)} {slots slots' : Placeholders α}

/-- The lanes of every history that loads divide it by the first head that
reaches each node, whatever total preorder ranks the heads. -/
theorem partition_of_load [Std.TransCmp compare] (hload : load commits slots = .ok (h, slots')) :
    Partition h compare (ofHistory h compare) :=
  partition_of_sound (sound_of_load hload)

/-- The lanes of a merge, its heads ranked by their numbers. -/
theorem partition_of_load_merge :
    (∃ slots, load mergeCommits .empty = .ok (mergeHistory, slots)) ∧
      Partition mergeHistory Ord.compare (ofHistory mergeHistory Ord.compare) := by
  obtain ⟨slots, hload⟩ := load_mergeHistory
  exact ⟨⟨slots, hload⟩, partition_of_load hload⟩

end Lanes

end Lineage
