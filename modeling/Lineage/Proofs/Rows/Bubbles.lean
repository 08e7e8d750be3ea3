import Mathlib.Data.List.Pairwise
import Lineage.Proofs.Rows.Projection
import Lineage.Rows.Straighten

/-!
# Lineage.Proofs.Rows.Bubbles

What the search for bubbles finds.  A row inside a bubble has one edge up, so
it hangs from one row only; this keeps the two sides of a bubble apart, and
the marks keep bubbles apart.

* `Rows.Line` — rows each the only parent of the one before, down to a base;
  `Rows.Line.hangs_unique` — where two lines meet, they are one.
* `Rows.IsBubble`, `Rows.AreBubbles` — a bubble, and bubbles that share no
  row.
* `Rows.areBubbles_bubbles` — the search finds such bubbles.
-/

namespace Lineage

namespace Rows

variable {t : Rows}

/-! ## rows in a line -/

/-- Rows from a start down to a base, which is not one of them: each has one
edge up, and one edge down, which is usual. -/
inductive Line (t : Rows) : Nat → List Nat → Nat → Prop where
  | nil {base : Nat} : Line t base [] base
  | cons {r d base : Nat} {rows : List Nat} : (t.upOf r).length = 1 →
      t.onlyParent? r = some d → Line t d rows base → Line t r (r :: rows) base

theorem onlyParent?_eq_some_iff {r d : Nat} :
    t.onlyParent? r = some d ↔ t.downOf r = [.row d .usual] := by
  rw [onlyParent?]
  constructor
  · intro h
    split at h
    · next d' hdown => rw [hdown, Option.some.inj h]
    · contradiction
  · intro h
    rw [h]

theorem below_of_onlyParent? {r d : Nat} (h : t.onlyParent? r = some d) : t.Below r d :=
  ⟨.usual, by rw [onlyParent?_eq_some_iff.mp h]; exact List.mem_singleton_self _⟩

theorem eq_of_below_of_onlyParent? {r d x : Nat} (h : t.onlyParent? r = some d)
    (hx : t.Below r x) : x = d := by
  obtain ⟨s, hs⟩ := hx
  rw [onlyParent?_eq_some_iff.mp h, List.mem_singleton] at hs
  exact (Down.row.inj hs).1

/-- A row with one edge up hangs from one row only. -/
theorem Consistent.below_unique (ht : t.Consistent) {a b x : Nat} (hx : (t.upOf x).length = 1)
    (ha : t.Below a x) (hb : t.Below b x) : a = b := by
  obtain ⟨e, he⟩ := List.length_eq_one_iff.mp hx
  have hrow : ∀ {c}, t.Below c x → c = e.row := by
    rintro c ⟨s, hs⟩
    have hmem := ht.mem_upOf.mpr hs
    rw [he, List.mem_singleton] at hmem
    rw [← hmem]
  exact (hrow ha).trans (hrow hb).symm

namespace Line

variable {start base : Nat} {rows : List Nat}

theorem upOf_length (hl : t.Line start rows base) {x : Nat} (hx : x ∈ rows) :
    (t.upOf x).length = 1 := by
  induction hl with
  | nil => exact absurd hx List.not_mem_nil
  | cons hup _ _ ih =>
      rcases List.mem_cons.mp hx with rfl | hx
      · exact hup
      · exact ih hx

theorem onlyParent? (hl : t.Line start rows base) {x : Nat} (hx : x ∈ rows) :
    ∃ d, t.onlyParent? x = some d := by
  induction hl with
  | nil => exact absurd hx List.not_mem_nil
  | @cons r d base rows _ hdown _ ih =>
      rcases List.mem_cons.mp hx with rfl | hx
      · exact ⟨d, hdown⟩
      · exact ih hx

theorem start_mem (hl : t.Line start rows base) (hne : start ≠ base) : start ∈ rows := by
  cases hl with
  | nil => exact absurd rfl hne
  | cons _ _ _ => exact List.mem_cons_self

theorem bounds (ht : t.Consistent) (hl : t.Line start rows base) :
    start ≤ base ∧ ∀ x ∈ rows, start ≤ x ∧ x < base := by
  induction hl with
  | nil => exact ⟨Nat.le_refl _, fun x hx => absurd hx List.not_mem_nil⟩
  | cons _ hdown _ ih =>
      have hlt := (ht.below_lt (below_of_onlyParent? hdown)).1
      refine ⟨by omega, fun x hx => ?_⟩
      rcases List.mem_cons.mp hx with rfl | hx
      · omega
      · have := ih.2 x hx
        omega

theorem ascending (ht : t.Consistent) (hl : t.Line start rows base) : rows.Pairwise (· < ·) := by
  induction hl with
  | nil => exact .nil
  | cons _ hdown hl ih =>
      have hlt := (ht.below_lt (below_of_onlyParent? hdown)).1
      refine List.pairwise_cons.mpr ⟨fun x hx => ?_, ih⟩
      have := (hl.bounds ht).2 x hx
      omega

theorem nodup (ht : t.Consistent) (hl : t.Line start rows base) : rows.Nodup :=
  (hl.ascending ht).imp Nat.ne_of_lt

theorem lt_size (ht : t.Consistent) (hl : t.Line start rows base) {x : Nat} (hx : x ∈ rows) :
    x < t.size := by
  induction hl with
  | nil => exact absurd hx List.not_mem_nil
  | cons _ hdown _ ih =>
      rcases List.mem_cons.mp hx with rfl | hx
      · exact ht.lt_size_of_mem_downOf (below_of_onlyParent? hdown).choose_spec
      · exact ih hx

/-- A row of a line is its start, or hangs from the row of the line in front
of it. -/
theorem eq_start_or (hl : t.Line start rows base) {x : Nat} (hx : x ∈ rows) :
    x = start ∨ ∃ y, [y, x].Sublist rows ∧ t.Below y x := by
  induction hl with
  | nil => exact absurd hx List.not_mem_nil
  | @cons r d base rows _ hdown hl ih =>
      rcases List.mem_cons.mp hx with rfl | hx
      · exact Or.inl rfl
      · refine Or.inr ?_
        rcases ih hx with rfl | ⟨y, hyx, hbelow⟩
        · exact ⟨r, (List.singleton_sublist.mpr hx).cons_cons r, below_of_onlyParent? hdown⟩
        · exact ⟨y, hyx.cons r, hbelow⟩

/-- The last row of a line hangs over the base. -/
theorem getLast? (hl : t.Line start rows base) {x : Nat} (hx : rows.getLast? = some x) :
    t.onlyParent? x = some base := by
  induction hl with
  | nil => contradiction
  | @cons r d base rows _ hdown hl ih =>
      cases hl with
      | nil =>
          obtain rfl := Option.some.inj hx
          exact hdown
      | cons _ _ _ => exact ih (by simpa using hx)

/-- Of two lines that share a row, neither of which passes through the row that
the other one hangs from, both hang from one row, by one start. -/
theorem hangs_unique (ht : t.Consistent) {top top' start' base' : Nat} {rows' : List Nat}
    (hl : t.Line start rows base) (hl' : t.Line start' rows' base') (htop : t.Below top start)
    (htop' : t.Below top' start') (hout : top ∉ rows') (hout' : top' ∉ rows) {x : Nat}
    (hx : x ∈ rows) (hx' : x ∈ rows') : top = top' ∧ start = start' := by
  induction x using Nat.strongRecOn with
  | _ x ih =>
      have hup := hl.upOf_length hx
      rcases hl.eq_start_or hx with rfl | ⟨y, hy, hyx⟩
      · rcases hl'.eq_start_or hx' with rfl | ⟨z, hz, hzx⟩
        · exact ⟨ht.below_unique hup htop htop', rfl⟩
        · obtain rfl := ht.below_unique hup htop hzx
          exact absurd (hz.subset (by simp)) hout
      · rcases hl'.eq_start_or hx' with rfl | ⟨z, hz, hzx⟩
        · obtain rfl := ht.below_unique hup htop' hyx
          exact absurd (hy.subset (by simp)) hout'
        · obtain rfl := ht.below_unique hup hyx hzx
          exact ih y (ht.below_lt hyx).1 (hy.subset (by simp)) (hz.subset (by simp))

/-- A line does not pass through the row it hangs from. -/
theorem top_notMem (ht : t.Consistent) {top : Nat} (hl : t.Line start rows base)
    (htop : t.Below top start) : top ∉ rows := fun hmem =>
  absurd ((hl.bounds ht).2 top hmem).1 (Nat.not_le.mpr (ht.below_lt htop).1)

/-- Two lines that hang from one row by different starts share no row. -/
theorem disjoint (ht : t.Consistent) {top start' base' : Nat} {rows' : List Nat}
    (hl : t.Line start rows base) (hl' : t.Line start' rows' base') (htop : t.Below top start)
    (htop' : t.Below top start') (hne : start ≠ start') : List.Disjoint rows rows' :=
  fun _ hx hx' => hne (hl.hangs_unique ht hl' htop htop' (hl'.top_notMem ht htop')
    (hl.top_notMem ht htop) hx hx').2

end Line

/-! ## bubbles -/

/-- A bubble whose merge has its second parent at `second` and whose sides
have at most `most` rows. -/
structure IsBubble (t : Rows) (most : Nat) (b : Bubble) (second : Nat) : Prop where
  downOf_merge : t.downOf b.merge = [.row b.firstParent .usual, .row second .usual]
  first_ne : b.firstParent ≠ second
  chain_line : t.Line second b.chain b.base
  path_line : t.Line b.firstParent b.path b.base
  base_branches : 2 ≤ (t.upOf b.base).length
  chain_ne_nil : b.chain ≠ []
  chain_le : b.chain.length ≤ most
  path_le : b.path.length ≤ most

namespace IsBubble

variable {most second : Nat} {b : Bubble}

theorem below_first (hb : t.IsBubble most b second) : t.Below b.merge b.firstParent :=
  ⟨.usual, by simp [hb.downOf_merge]⟩

theorem below_second (hb : t.IsBubble most b second) : t.Below b.merge second :=
  ⟨.usual, by simp [hb.downOf_merge]⟩

theorem merge_lt_chain (ht : t.Consistent) (hb : t.IsBubble most b second) {x : Nat}
    (hx : x ∈ b.chain) : b.merge < x := by
  have hlt := (ht.below_lt hb.below_second).1
  have := ((hb.chain_line.bounds ht).2 x hx).1
  omega

/-- No row is on both sides of a bubble. -/
theorem disjoint (ht : t.Consistent) (hb : t.IsBubble most b second) :
    List.Disjoint b.chain b.path :=
  hb.chain_line.disjoint ht hb.path_line hb.below_second hb.below_first hb.first_ne.symm

/-- The base of a bubble is inside none. -/
theorem base_not_mem {start base : Nat} {rows : List Nat} (hb : t.IsBubble most b second)
    (hl : t.Line start rows base) : b.base ∉ rows := by
  intro hmem
  have hone := hl.upOf_length hmem
  have htwo := hb.base_branches
  omega

/-- A merge is on no side. -/
theorem merge_notMem (hb : t.IsBubble most b second) {c : Bubble} {second' : Nat}
    (hc : t.IsBubble most c second') : b.merge ∉ c.chain ++ c.path := by
  intro hmem
  have hside : ∃ d, t.onlyParent? b.merge = some d := by
    rcases List.mem_append.mp hmem with hmem | hmem
    · exact hc.chain_line.onlyParent? hmem
    · exact hc.path_line.onlyParent? hmem
  obtain ⟨d, hd⟩ := hside
  rw [onlyParent?_eq_some_iff, hb.downOf_merge] at hd
  exact absurd hd (by simp)

/-- What hangs from a row of the chain: the merge is above its first row, the
row in front is above any other. -/
theorem above_chain (ht : t.Consistent) (hb : t.IsBubble most b second) {r x : Nat}
    (hx : x ∈ b.chain) (hr : t.Below r x) : r = b.merge ∨ [r, x].Sublist b.chain := by
  have hup := hb.chain_line.upOf_length hx
  rcases hb.chain_line.eq_start_or hx with rfl | ⟨y, hy, hyx⟩
  · exact Or.inl (ht.below_unique hup hr hb.below_second)
  · obtain rfl := ht.below_unique hup hr hyx
    exact Or.inr hy

end IsBubble

/-- Bubbles that share no row. -/
structure AreBubbles (t : Rows) (most : Nat) (bs : List Bubble) : Prop where
  isBubble : ∀ {b}, b ∈ bs → ∃ second, t.IsBubble most b second
  disjoint : bs.Pairwise fun b c => List.Disjoint b.rows c.rows

/-- A row of two bubbles makes them one. -/
theorem AreBubbles.eq_of_mem {most : Nat} {bs : List Bubble} (hbs : t.AreBubbles most bs)
    {b c : Bubble} (hb : b ∈ bs) (hc : c ∈ bs) {x : Nat} (hxb : x ∈ b.rows) (hxc : x ∈ c.rows) :
    b = c := by
  have : Std.Symm fun b c : Bubble => List.Disjoint b.rows c.rows := ⟨fun _ _ h _ hx hy => h hy hx⟩
  by_contra hne
  exact hbs.disjoint.forall hb hc hne hxb hxc

/-! ## the search -/

theorem isInner_iff {used : Marks} {r : Nat} :
    t.isInner used r = true ↔ used.has r = false ∧ (t.upOf r).length = 1 := by
  simp [isInner]

/-- The search for a chain finds rows in a line that are in no bubble yet. -/
theorem line_of_chainFrom? {used : Marks} {most r base : Nat} {chain : List Nat}
    (h : t.chainFrom? used most r = some (chain, base)) :
    t.Line r chain base ∧ 2 ≤ (t.upOf base).length ∧ chain ≠ [] ∧ chain.length ≤ most ∧
      ∀ x ∈ chain, used.has x = false := by
  fun_induction chainFrom? t used most r generalizing chain with
  | case1 most r hinner hnone => contradiction
  | case2 most r hinner d hd hbase =>
      obtain ⟨rfl, rfl⟩ := Prod.mk.inj (Option.some.inj h)
      simp only [Bool.and_eq_true, decide_eq_true_eq, isInner_iff] at hinner
      obtain ⟨⟨hfree, hup⟩, hpos⟩ := hinner
      exact ⟨.cons hup hd .nil, hbase, by simp, hpos, by simpa using hfree⟩
  | case3 most r hinner d hd hbase hlt ih =>
      obtain ⟨⟨rows, base'⟩, hrows, heq⟩ := Option.map_eq_some_iff.mp h
      obtain ⟨rfl, rfl⟩ := Prod.mk.inj heq
      simp only [Bool.and_eq_true, decide_eq_true_eq, isInner_iff] at hinner
      obtain ⟨⟨hfree, hup⟩, hpos⟩ := hinner
      obtain ⟨hline, hbranches, hne, hle, hrest⟩ := ih hrows
      exact ⟨.cons hup hd hline, hbranches, by simp, by rw [List.length_cons]; omega,
        List.forall_mem_cons.mpr ⟨hfree, hrest⟩⟩
  | case4 most r hinner d hd hbase hlt => contradiction
  | case5 most r hinner => contradiction

/-- The search for the path finds rows in a line that are in no bubble yet. -/
theorem line_of_pathTo? {used : Marks} {base most r : Nat} {path : List Nat}
    (h : t.pathTo? used base most r = some path) :
    t.Line r path base ∧ path.length ≤ most ∧ ∀ x ∈ path, used.has x = false := by
  fun_induction pathTo? t used base most r generalizing path with
  | case1 most =>
      obtain rfl := Option.some.inj h
      exact ⟨.nil, Nat.zero_le _, by simp⟩
  | case2 most r hne hinner hnone => contradiction
  | case3 most r hne hinner d hd hlt ih =>
      obtain ⟨rows, hrows, rfl⟩ := Option.map_eq_some_iff.mp h
      simp only [Bool.and_eq_true, decide_eq_true_eq, isInner_iff] at hinner
      obtain ⟨⟨hfree, hup⟩, hpos⟩ := hinner
      obtain ⟨hline, hle, hrest⟩ := ih hrows
      exact ⟨.cons hup hd hline, by rw [List.length_cons]; omega,
        List.forall_mem_cons.mpr ⟨hfree, hrest⟩⟩
  | case4 most r hne hinner d hd hlt => contradiction
  | case5 most r hne hinner => contradiction

/-- What is found at a merge row is a bubble, inside of which no row is in
one yet. -/
theorem isBubble_of_bubbleAt? {used : Marks} {most r : Nat} {b : Bubble}
    (h : t.bubbleAt? used most r = some b) : b.merge = r ∧
      (∃ second, t.IsBubble most b second) ∧ ∀ x ∈ b.chain ++ b.path, used.has x = false := by
  rw [bubbleAt?] at h
  split at h
  · next first second hdown =>
      split at h
      · contradiction
      · next hne =>
          split at h
          · contradiction
          · next chain base hchain =>
              split at h
              · contradiction
              · obtain ⟨path, hpath, rfl⟩ := Option.map_eq_some_iff.mp h
                obtain ⟨hcl, hbranches, hcne, hcle, hcfree⟩ := line_of_chainFrom? hchain
                obtain ⟨hpl, hple, hpfree⟩ := line_of_pathTo? hpath
                refine ⟨rfl, ⟨second, hdown, hne, hcl, hpl, hbranches, hcne, hcle, hple⟩, ?_⟩
                exact List.forall_mem_append.mpr ⟨hcfree, hpfree⟩
  · contradiction

/-- Each bubble marks its rows, so the bubbles after it have none of them. -/
theorem areBubbles_bubblesAmong (most : Nat) (used : Marks) (rows : List Nat) :
    t.AreBubbles most (t.bubblesAmong most used rows) ∧
      ∀ b ∈ t.bubblesAmong most used rows, ∀ x ∈ b.rows, used.has x = false := by
  fun_induction bubblesAmong t most used rows with
  | case1 used => exact ⟨⟨by simp, .nil⟩, by simp⟩
  | case2 used r rows hused ih => exact ih
  | case3 used r rows hused hnone ih => exact ih
  | case4 used r rows hused b hb ih =>
      obtain ⟨hall, hfree⟩ := ih
      obtain ⟨hmerge, hbubble, hinner⟩ := isBubble_of_bubbleAt? hb
      have hunused : ∀ x ∈ b.rows, used.has x = false := by
        refine List.forall_mem_cons.mpr ⟨?_, hinner⟩
        rw [hmerge]
        exact Bool.eq_false_iff.mpr hused
      have hlater : ∀ c ∈ bubblesAmong t most (used.markAll b.rows) rows, ∀ x ∈ c.rows,
          x ∉ b.rows ∧ used.has x = false := by
        intro c hc x hx
        have hnot := Bool.eq_false_iff.mp (hfree c hc x hx)
        rw [ne_eq, Marks.has_markAll, not_or] at hnot
        exact ⟨hnot.1, Bool.eq_false_iff.mpr hnot.2⟩
      refine ⟨⟨fun {c} hc => ?_, List.pairwise_cons.mpr ⟨fun c hc x hxb hxc => ?_, hall.disjoint⟩⟩,
        List.forall_mem_cons.mpr ⟨hunused, fun c hc x hx => (hlater c hc x hx).2⟩⟩
      · rcases List.mem_cons.mp hc with rfl | hc
        · exact hbubble
        · exact hall.isBubble hc
      · exact (hlater c hc x hxc).1 hxb

/-- The bubbles of a layer. -/
theorem areBubbles_bubbles (t : Rows) (most : Nat) : t.AreBubbles most (t.bubbles most) :=
  (areBubbles_bubblesAmong most _ _).1

end Rows

end Lineage
