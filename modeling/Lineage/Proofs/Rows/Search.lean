import Lineage.Proofs.Rows.Bubbles

/-!
# Lineage.Proofs.Rows.Search

What the search for bubbles leaves out: nothing.  Two bubbles that share a row
are one, since every row of a side hangs from one row only and the row at the
top of it is the merge.  So the marks never stand in the way of a bubble: rows
are searched from the top, and a merge is above its base.

* `Rows.IsBubble.eq_of_mem` — bubbles share no row.
* `Rows.bubbleAt?_of_isBubble` — a bubble is found where no mark is.
* `Rows.bubbles_eq_filterMap`, `Rows.mem_bubbles` — the search finds all
  bubbles, and would find the same without marks.
-/

namespace Lineage

namespace Rows

variable {t : Rows} {most : Nat}

/-! ## bubbles share no row -/

namespace Line

variable {start base : Nat} {rows : List Nat}

/-- From one start there is one line down to a row with several edges up. -/
theorem unique (hl : t.Line start rows base) {rows' : List Nat} {base' : Nat}
    (hl' : t.Line start rows' base') (hbase : 2 ≤ (t.upOf base).length)
    (hbase' : 2 ≤ (t.upOf base').length) : rows = rows' ∧ base = base' := by
  induction hl generalizing rows' with
  | nil =>
      cases hl' with
      | nil => exact ⟨rfl, rfl⟩
      | cons hup _ _ => omega
  | cons hup hdown _ ih =>
      cases hl' with
      | nil => omega
      | cons _ hdown' hl' =>
          obtain rfl := Option.some.inj (hdown.symm.trans hdown')
          obtain ⟨rfl, rfl⟩ := ih hl' hbase
          exact ⟨rfl, rfl⟩

end Line

namespace IsBubble

variable {b c : Bubble} {second second' : Nat}

/-- A row on a side is on a line that hangs from the merge. -/
theorem exists_line (hb : t.IsBubble most b second) {x : Nat} (hx : x ∈ b.chain ++ b.path) :
    ∃ start rows, t.Line start rows b.base ∧ t.Below b.merge start ∧ x ∈ rows ∧
      ∀ y ∈ rows, y ∈ b.chain ++ b.path := by
  rcases List.mem_append.mp hx with hx | hx
  · exact ⟨_, _, hb.chain_line, hb.below_second, hx, fun _ hy => List.mem_append_left _ hy⟩
  · exact ⟨_, _, hb.path_line, hb.below_first, hx, fun _ hy => List.mem_append_right _ hy⟩

theorem merge_eq_of_mem (ht : t.Consistent) (hb : t.IsBubble most b second)
    (hc : t.IsBubble most c second') {x : Nat} (hxb : x ∈ b.rows) (hxc : x ∈ c.rows) :
    b.merge = c.merge := by
  rcases List.mem_cons.mp hxb with rfl | hxb
  · rcases List.mem_cons.mp hxc with heq | hxc
    · exact heq
    · exact absurd hxc (hb.merge_notMem hc)
  · rcases List.mem_cons.mp hxc with rfl | hxc
    · exact absurd hxb (hc.merge_notMem hb)
    · obtain ⟨start, rows, hl, htop, hx, hrows⟩ := hb.exists_line hxb
      obtain ⟨start', rows', hl', htop', hx', hrows'⟩ := hc.exists_line hxc
      exact (hl.hangs_unique ht hl' htop htop' (fun h => hb.merge_notMem hc (hrows' _ h))
        (fun h => hc.merge_notMem hb (hrows _ h)) hx hx').1

/-- A merge has one bubble. -/
theorem eq_of_merge_eq (hb : t.IsBubble most b second) (hc : t.IsBubble most c second')
    (hmerge : b.merge = c.merge) : b = c := by
  have hdown := hb.downOf_merge
  rw [hmerge, hc.downOf_merge] at hdown
  obtain ⟨hfirst, hsecond⟩ : c.firstParent = b.firstParent ∧ second' = second := by simpa using hdown
  subst hsecond
  obtain ⟨hchain, hbase⟩ := hb.chain_line.unique hc.chain_line hb.base_branches hc.base_branches
  obtain ⟨hpath, _⟩ :=
    hb.path_line.unique (hfirst ▸ hc.path_line) hb.base_branches hc.base_branches
  cases b
  cases c
  simp_all

/-- Bubbles that share a row are one. -/
theorem eq_of_mem (ht : t.Consistent) (hb : t.IsBubble most b second)
    (hc : t.IsBubble most c second') {x : Nat} (hxb : x ∈ b.rows) (hxc : x ∈ c.rows) : b = c :=
  hb.eq_of_merge_eq hc (hb.merge_eq_of_mem ht hc hxb hxc)

theorem merge_lt_base (ht : t.Consistent) (hb : t.IsBubble most b second) : b.merge < b.base :=
  Nat.lt_of_lt_of_le (ht.below_lt hb.below_first).1 (hb.path_line.bounds ht).1

/-- The base is in another bubble as its merge at most. -/
theorem eq_merge_of_base_mem (hb : t.IsBubble most b second) (hc : t.IsBubble most c second')
    (hmem : b.base ∈ c.rows) : b.base = c.merge := by
  rcases List.mem_cons.mp hmem with heq | hmem
  · exact heq
  · rcases List.mem_append.mp hmem with hmem | hmem
    · exact absurd hmem (hb.base_not_mem hc.chain_line)
    · exact absurd hmem (hb.base_not_mem hc.path_line)

end IsBubble

/-! ## the searches miss nothing -/

/-- The search for a chain, one row further down. -/
theorem chainFrom?_of_inner (ht : t.Consistent) {used : Marks} {r x : Nat}
    (hinner : t.isInner used r = true) (hmost : 0 < most) (hbelow : t.onlyParent? r = some x)
    (hup : (t.upOf x).length < 2) :
    t.chainFrom? used most r =
      (t.chainFrom? used (most - 1) x).map fun p => (r :: p.1, p.2) := by
  rw [chainFrom?, hinner, decide_eq_true hmost, Bool.and_true, if_pos rfl, hbelow]
  simp only [if_neg (Nat.not_le.mpr hup), if_pos (ht.below_lt (below_of_onlyParent? hbelow))]

/-- The search for a path, one row further down. -/
theorem pathTo?_of_inner (ht : t.Consistent) {used : Marks} {base r x : Nat} (hne : r ≠ base)
    (hinner : t.isInner used r = true) (hmost : 0 < most) (hbelow : t.onlyParent? r = some x) :
    t.pathTo? used base most r = (t.pathTo? used base (most - 1) x).map (r :: ·) := by
  rw [pathTo?, if_neg hne, hinner, decide_eq_true hmost, Bool.and_true, if_pos rfl, hbelow]
  simp only [if_pos (ht.below_lt (below_of_onlyParent? hbelow))]

/-- The search for a chain finds every line of free rows that is short enough. -/
theorem chainFrom?_of_line (ht : t.Consistent) {used : Marks} {r base : Nat} {chain : List Nat}
    (hl : t.Line r chain base) (hbase : 2 ≤ (t.upOf base).length) (hne : chain ≠ [])
    (hlen : chain.length ≤ most) (hfree : ∀ x ∈ chain, used.has x = false) :
    t.chainFrom? used most r = some (chain, base) := by
  induction hl generalizing most with
  | nil => contradiction
  | @cons r d base rows hup hdown hl ih =>
      obtain ⟨hr, hrest⟩ := List.forall_mem_cons.mp hfree
      have hinner : t.isInner used r = true := isInner_iff.mpr ⟨hr, hup⟩
      rw [List.length_cons] at hlen
      have hmost : 0 < most := by omega
      cases hl with
      | nil =>
          rw [chainFrom?, hinner, decide_eq_true hmost, Bool.and_true, if_pos rfl, hdown]
          simp only [if_pos hbase]
      | cons hup' hdown' hl =>
          rw [List.length_cons] at hlen
          rw [chainFrom?_of_inner ht hinner hmost hdown (by omega),
            ih hbase (by simp) (by simp; omega) hrest, Option.map_some]

/-- The search for the path finds every line of free rows that is short
enough. -/
theorem pathTo?_of_line (ht : t.Consistent) {used : Marks} {r base : Nat} {path : List Nat}
    (hl : t.Line r path base) (hbase : 2 ≤ (t.upOf base).length) (hlen : path.length ≤ most)
    (hfree : ∀ x ∈ path, used.has x = false) : t.pathTo? used base most r = some path := by
  induction hl generalizing most with
  | nil => rw [pathTo?, if_pos rfl]
  | @cons r d base rows hup hdown hl ih =>
      obtain ⟨hr, hrest⟩ := List.forall_mem_cons.mp hfree
      rw [List.length_cons] at hlen
      have hne : r ≠ base := by
        rintro rfl
        omega
      rw [pathTo?_of_inner ht hne (isInner_iff.mpr ⟨hr, hup⟩) (by omega) hdown,
        ih hbase (by omega) hrest, Option.map_some]

/-- A bubble is found if its sides and its base are free. -/
theorem bubbleAt?_of_isBubble (ht : t.Consistent) {used : Marks} {b : Bubble} {second : Nat}
    (hb : t.IsBubble most b second) (hfree : ∀ x ∈ b.chain ++ b.path, used.has x = false)
    (hbase : used.has b.base = false) : t.bubbleAt? used most b.merge = some b := by
  obtain ⟨hchain, hpath⟩ := List.forall_mem_append.mp hfree
  rw [bubbleAt?, hb.downOf_merge]
  simp only [if_neg hb.first_ne, chainFrom?_of_line ht hb.chain_line hb.base_branches
    hb.chain_ne_nil hb.chain_le hchain, hbase, Bool.false_eq_true, if_false,
    pathTo?_of_line ht hb.path_line hb.base_branches hb.path_le hpath, Option.map_some]

/-- Where the rows of its bubble are free, a search finds the bubble of a merge,
and nothing else. -/
theorem bubbleAt?_eq_some_iff (ht : t.Consistent) {used : Marks} {r : Nat}
    (hfree : ∀ {b second}, t.IsBubble most b second → b.merge = r →
      ∀ x ∈ b.base :: b.rows, used.has x = false) {b : Bubble} :
    t.bubbleAt? used most r = some b ↔ b.merge = r ∧ ∃ second, t.IsBubble most b second := by
  constructor
  · intro h
    obtain ⟨hmerge, hbubble, _⟩ := isBubble_of_bubbleAt? h
    exact ⟨hmerge, hbubble⟩
  · rintro ⟨rfl, second, hb⟩
    obtain ⟨hbase, hrows⟩ := List.forall_mem_cons.mp (hfree hb rfl)
    exact bubbleAt?_of_isBubble ht hb (List.forall_mem_cons.mp hrows).2 hbase

theorem IsBubble.lt_size (ht : t.Consistent) {b : Bubble} {second : Nat}
    (hb : t.IsBubble most b second) : ∀ x ∈ b.base :: b.rows, x < t.size := by
  refine List.forall_mem_cons.mpr ⟨?_, List.forall_mem_cons.mpr ⟨?_, ?_⟩⟩
  · obtain ⟨e, he⟩ := List.exists_mem_of_length_pos (Nat.lt_of_lt_of_le Nat.two_pos hb.base_branches)
    exact (ht.up_lt he).2
  · exact ht.lt_size_of_mem_downOf hb.below_first.choose_spec
  · exact List.forall_mem_append.mpr
      ⟨fun _ hx => hb.chain_line.lt_size ht hx, fun _ hx => hb.path_line.lt_size ht hx⟩

/-- Without marks, every bubble is found. -/
theorem bubbleAt?_blank (ht : t.Consistent) {r : Nat} {b : Bubble} :
    t.bubbleAt? (Marks.blank t.size) most r = some b ↔
      b.merge = r ∧ ∃ second, t.IsBubble most b second := by
  refine bubbleAt?_eq_some_iff ht fun hb _ x hx => ?_
  rw [← Bool.not_eq_true, Marks.has_blank, Nat.not_le]
  exact hb.lt_size ht x hx

/-! ## marks -/

/-- Only the rows of bubbles are marked, and only of those whose merges are above
the rows that are still to be searched. -/
def Marked (t : Rows) (most : Nat) (used : Marks) (rows : List Nat) : Prop :=
  ∀ x < t.size, used.has x = true →
    ∃ c second, t.IsBubble most c second ∧ x ∈ c.rows ∧ ∀ r ∈ rows, c.merge < r

variable {used : Marks} {r : Nat} {rows : List Nat}

theorem Marked.tail (hm : t.Marked most used (r :: rows)) : t.Marked most used rows := by
  intro x hx hused
  obtain ⟨c, second, hc, hxc, hlt⟩ := hm x hx hused
  exact ⟨c, second, hc, hxc, fun r' hr' => hlt r' (List.mem_cons_of_mem _ hr')⟩

/-- The marks of a bubble that has been found. -/
theorem Marked.markAll (hm : t.Marked most used (r :: rows)) {b : Bubble} {second : Nat}
    (hb : t.IsBubble most b second) (hmerge : ∀ r' ∈ rows, b.merge < r') :
    t.Marked most (used.markAll b.rows) rows := by
  intro x hx hused
  rcases (Marks.has_markAll used b.rows x).mp hused with hxb | hold
  · exact ⟨b, second, hb, hxb, hmerge⟩
  · exact hm.tail x hx hold

/-- The rows of a bubble are free when its merge is searched. -/
theorem Marked.free (ht : t.Consistent) (hm : t.Marked most used (r :: rows)) {b : Bubble}
    {second : Nat} (hb : t.IsBubble most b second) (hmerge : b.merge = r) :
    ∀ x ∈ b.base :: b.rows, used.has x = false := by
  intro x hx
  by_contra hused
  obtain ⟨c, _, hc, hxc, hlt⟩ :=
    hm x (hb.lt_size ht x hx) (Bool.eq_true_of_not_eq_false hused)
  have habove : c.merge < b.merge := hmerge ▸ hlt r List.mem_cons_self
  rcases List.mem_cons.mp hx with rfl | hxb
  · have hbase := hb.eq_merge_of_base_mem hc hxc
    have := hb.merge_lt_base ht
    omega
  · obtain rfl := hb.eq_of_mem ht hc hxb hxc
    exact Nat.lt_irrefl _ habove

/-- The marks make no difference to a search from the top. -/
theorem bubblesAmong_eq_filterMap (ht : t.Consistent) (hrows : rows.Pairwise (· < ·))
    (hm : t.Marked most used rows) :
    t.bubblesAmong most used rows = rows.filterMap (t.bubbleAt? (Marks.blank t.size) most) := by
  induction rows generalizing used with
  | nil => rfl
  | cons r rows ih =>
      obtain ⟨hbelow, hrest⟩ := List.pairwise_cons.mp hrows
      have hsame : t.bubbleAt? used most r = t.bubbleAt? (Marks.blank t.size) most r :=
        Option.ext fun b =>
          (bubbleAt?_eq_some_iff ht (hm.free ht)).trans (bubbleAt?_blank ht).symm
      rw [bubblesAmong, List.filterMap_cons, ← hsame]
      cases hfound : t.bubbleAt? used most r with
      | none =>
          simp only [ite_self]
          exact ih hrest hm.tail
      | some b =>
          obtain ⟨hmerge, ⟨second, hb⟩, _⟩ := isBubble_of_bubbleAt? hfound
          have hfree : used.has r = false :=
            hmerge ▸ hm.free ht hb hmerge b.merge (List.mem_cons_of_mem _ List.mem_cons_self)
          simp only [hfree, Bool.false_eq_true, if_false]
          rw [ih hrest (hm.markAll hb (hmerge ▸ hbelow))]

/-- The bubbles of a layer are those that a search without marks finds at its
rows. -/
theorem bubbles_eq_filterMap (ht : t.Consistent) (most : Nat) : t.bubbles most =
    (List.range t.size).filterMap (t.bubbleAt? (Marks.blank t.size) most) := by
  refine bubblesAmong_eq_filterMap ht List.pairwise_lt_range fun x hx hused => ?_
  rw [Marks.has_blank] at hused
  omega

/-- The bubbles of a layer are all that there are. -/
theorem mem_bubbles (ht : t.Consistent) {b : Bubble} :
    b ∈ t.bubbles most ↔ ∃ second, t.IsBubble most b second := by
  simp only [bubbles_eq_filterMap ht, List.mem_filterMap, List.mem_range, bubbleAt?_blank ht]
  constructor
  · rintro ⟨_, _, _, hb⟩
    exact hb
  · rintro ⟨second, hb⟩
    have hlt := hb.lt_size ht b.merge (List.mem_cons_of_mem _ List.mem_cons_self)
    exact ⟨b.merge, hlt, rfl, second, hb⟩

end Rows

end Lineage
