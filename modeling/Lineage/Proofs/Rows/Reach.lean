import Lineage.Proofs.Rows.Links
import Lineage.Proofs.Rows.Straighten

/-!
# Lineage.Proofs.Rows.Reach

What can be reached along the lines that bubbles are drawn as.  From its merge
a line leads down the chain and then the path of the bubble to the base, so it
reaches all that its merge reached before.  A row of the chain now has the
path on its way to the base, and a filter that hides part of the path may cut
it off.

* `Rows.AreBubbles.via_of_transGen` — what a row reached, it still reaches.
* `Rows.AreBubbles.transGen_kept_iff` — what is left of that by filters.
* `Rows.Consistent.mirrors_kept` — the links of the filters.
-/

namespace Lineage

namespace Rows

variable {t : Rows} {most : Nat} {bs : List Bubble}

/-! ## along a line -/

namespace Line

variable {start base : Nat} {rows : List Nat}

theorem start_mem_of_ne_nil (hl : t.Line start rows base) (hne : rows ≠ []) : start ∈ rows := by
  cases hl with
  | nil => exact absurd rfl hne
  | cons _ _ _ => exact List.mem_cons_self

/-- A property that passes down edges holds in all of a line when it holds at
its start. -/
theorem forall_mem {P : Nat → Prop} (hclosed : ∀ {r x}, P r → t.Below r x → P x)
    (hl : t.Line start rows base) (hstart : P start) : ∀ x ∈ rows, P x := by
  induction hl with
  | nil => exact fun x hx => absurd hx List.not_mem_nil
  | cons _ hdown _ ih =>
      exact List.forall_mem_cons.mpr ⟨hstart, ih (hclosed hstart (below_of_onlyParent? hdown))⟩

/-- A row of a line passes such a property to the rows after it. -/
theorem forall_mem_of_le (ht : t.Consistent) {P : Nat → Prop}
    (hclosed : ∀ {r x}, P r → t.Below r x → P x) (hl : t.Line start rows base) {r : Nat}
    (hr : r ∈ rows) (hP : P r) : ∀ x ∈ rows, r ≤ x → P x := by
  induction hl with
  | nil => exact absurd hr List.not_mem_nil
  | @cons y d base rows hup hdown hl ih =>
      rcases List.mem_cons.mp hr with rfl | hr
      · exact fun x hx _ => (Line.cons hup hdown hl).forall_mem hclosed hP x hx
      · have hyr := ((hl.bounds ht).2 r hr).1
        have hlt := (ht.below_lt (below_of_onlyParent? hdown)).1
        exact List.forall_mem_cons.mpr ⟨fun h => by omega, ih hr⟩

/-- Links between the rows of a line and one that leaves its last row make a
path. -/
theorem via {link : Nat → Nat → Prop} {G : Nat → Prop} {x : Nat} (hl : t.Line start rows base)
    (hne : rows ≠ []) (hG : ∀ r ∈ rows, G r)
    (hlink : ∀ {r d}, r ∈ rows → t.onlyParent? r = some d → d ∈ rows → link r d)
    (hlast : ∀ {r}, rows.getLast? = some r → link r x) : Via link G start x := by
  induction hl with
  | nil => exact absurd rfl hne
  | @cons r d base rows _ hdown hl ih =>
      cases hl with
      | nil => exact .single (hlast rfl)
      | @cons _ d' _ rows' _ _ _ =>
          have hmem : d ∈ d :: rows' := List.mem_cons_self
          refine .cons (hlink List.mem_cons_self hdown (List.mem_cons_of_mem _ hmem))
            (hG d (List.mem_cons_of_mem _ hmem)) (ih (by simp) ?_ ?_ ?_)
          · exact fun y hy => hG y (List.mem_cons_of_mem _ hy)
          · exact fun hy hdown hd => hlink (List.mem_cons_of_mem _ hy) hdown
              (List.mem_cons_of_mem _ hd)
          · exact fun hy => hlast (by simpa using hy)

/-- The row below one of a line comes before all others that are further
down, unless it is the base. -/
theorem next (ht : t.Consistent) (hl : t.Line start rows base) {r d : Nat} (hr : r ∈ rows)
    (hd : t.onlyParent? r = some d) : (d ∈ rows ∧ ∀ x ∈ rows, r < x → d ≤ x) ∨
      (d = base ∧ rows.getLast? = some r ∧ ∀ x ∈ rows, x ≤ r) := by
  induction hl with
  | nil => exact absurd hr List.not_mem_nil
  | @cons y d' base rows _ hdown hl ih =>
      have hbounds := (hl.bounds ht).2
      have hlt := (ht.below_lt (below_of_onlyParent? hdown)).1
      rcases List.mem_cons.mp hr with rfl | hr
      · obtain rfl := Option.some.inj (hdown.symm.trans hd)
        cases hl with
        | nil => exact Or.inr ⟨rfl, rfl, by simp⟩
        | cons _ _ _ =>
            refine Or.inl ⟨by simp, List.forall_mem_cons.mpr ⟨?_, fun x hx _ => (hbounds x hx).1⟩⟩
            exact fun h => absurd h (Nat.lt_irrefl _)
      · have hyr := (hbounds r hr).1
        rcases ih hr with ⟨hd, hnext⟩ | ⟨hd, hlast, hle⟩
        · refine Or.inl ⟨List.mem_cons_of_mem _ hd, List.forall_mem_cons.mpr ⟨?_, hnext⟩⟩
          exact fun h => by omega
        · refine Or.inr ⟨hd, ?_, List.forall_mem_cons.mpr ⟨by omega, hle⟩⟩
          rw [List.getLast?_cons, hlast, Option.getD_some]

end Line

/-! ## the links of a drawing -/

/-- An edge leads from a row to another one when bubbles are drawn as
lines. -/
def LineBelow (t : Rows) (bs : List Bubble) (r x : Nat) : Prop := ∃ s, .row x s ∈ t.lineTargets bs r

namespace AreBubbles

theorem lineBelow_iff (ht : t.Consistent) (hbs : t.AreBubbles most bs) {r x : Nat} :
    t.LineBelow bs r x ↔
      (t.Below r x ∧ (¬ ∃ b ∈ bs, b.merge = r ∧ b.firstParent = x) ∧
        ¬ ∃ b ∈ bs, Redirects b r ∧ b.base = x) ∨
      ∃ b ∈ bs, Redirects b r ∧ b.firstParent = x := by
  simp only [LineBelow, hbs.mem_row_lineTargets ht, exists_or, exists_and_right, exists_eq,
    true_and, Below]

variable {b : Bubble}

/-- No edge of the path is moved. -/
theorem not_redirects_path (ht : t.Consistent) (hbs : t.AreBubbles most bs) (hb : b ∈ bs)
    {c : Bubble} (hc : c ∈ bs) {x : Nat} (hx : x ∈ b.path) : ¬ Redirects c x := by
  intro hr
  have hchain := List.mem_of_getLast? hr.2
  obtain rfl := hbs.eq_of_mem hb hc (List.mem_cons_of_mem _ (List.mem_append_right _ hx))
    (List.mem_cons_of_mem _ (List.mem_append_left _ hchain))
  obtain ⟨second, hbubble⟩ := hbs.isBubble hb
  exact hbubble.disjoint ht hchain hx

/-- The rows of the path keep their edges. -/
theorem lineBelow_path_iff (ht : t.Consistent) (hbs : t.AreBubbles most bs) (hb : b ∈ bs)
    {r x : Nat} (hr : r ∈ b.path) : t.LineBelow bs r x ↔ t.Below r x := by
  rw [hbs.lineBelow_iff ht]
  constructor
  · rintro (⟨h, _⟩ | ⟨c, hc, hredirects, _⟩)
    · exact h
    · exact absurd hredirects (hbs.not_redirects_path ht hb hc hr)
  · intro h
    refine Or.inl ⟨h, fun ⟨c, hc, hmerge, _⟩ => ?_, fun ⟨c, hc, hredirects, _⟩ => ?_⟩
    · exact hbs.merge_notMem_sides hc hb (List.mem_append_right _ (hmerge ▸ hr))
    · exact hbs.not_redirects_path ht hb hc hr hredirects

/-- The rows of the chain lead down to its last row, and from there to the
first parent. -/
theorem lineBelow_chain_iff (ht : t.Consistent) (hbs : t.AreBubbles most bs) (hb : b ∈ bs)
    {r x : Nat} (hr : r ∈ b.chain) : t.LineBelow bs r x ↔
      (x ∈ b.chain ∧ t.onlyParent? r = some x) ∨
      (b.chain.getLast? = some r ∧ b.firstParent = x) := by
  obtain ⟨second, hbubble⟩ := hbs.isBubble hb
  have hmerge : ¬ ∃ c ∈ bs, c.merge = r ∧ c.firstParent = x := fun ⟨c, hc, hmerge, _⟩ =>
    hbs.merge_notMem_chain hc hb (hmerge ▸ hr)
  have hsame : ∀ {c}, c ∈ bs → Redirects c r → c = b := fun hc hredirects =>
    hbs.eq_of_mem_chain hc hb (List.mem_of_getLast? hredirects.2) hr
  rw [hbs.lineBelow_iff ht, and_iff_right hmerge]
  constructor
  · rintro (⟨hbelow, hstays⟩ | ⟨c, hc, hredirects, hfirst⟩)
    · obtain ⟨d, hd⟩ := hbubble.chain_line.onlyParent? hr
      obtain rfl := eq_of_below_of_onlyParent? hd hbelow
      rcases hbubble.chain_line.next ht hr hd with ⟨hmem, _⟩ | ⟨rfl, hlast, _⟩
      · exact Or.inl ⟨hmem, hd⟩
      · refine Or.inr ⟨hlast, ?_⟩
        by_contra hne
        exact hstays ⟨b, hb, ⟨hne, hlast⟩, rfl⟩
    · obtain rfl := hsame hc hredirects
      exact Or.inr ⟨hredirects.2, hfirst⟩
  · rintro (⟨hmem, hd⟩ | ⟨hlast, rfl⟩)
    · refine Or.inl ⟨below_of_onlyParent? hd, fun ⟨c, hc, hredirects, hbase⟩ => ?_⟩
      obtain rfl := hsame hc hredirects
      rw [← hbase] at hmem
      exact hbubble.base_not_mem hbubble.chain_line hmem
    · by_cases hne : b.firstParent = b.base
      · refine Or.inl ⟨?_, fun ⟨c, hc, hredirects, _⟩ => ?_⟩
        · rw [hne]
          exact below_of_onlyParent? (hbubble.chain_line.getLast? hlast)
        · obtain rfl := hsame hc hredirects
          exact hredirects.1 hne
      · exact Or.inr ⟨b, hb, ⟨hne, hlast⟩, rfl⟩

/-- The merge keeps its edge to the chain. -/
theorem lineBelow_second (ht : t.Consistent) (hbs : t.AreBubbles most bs) (hb : b ∈ bs)
    {second : Nat} (hbubble : t.IsBubble most b second) : t.LineBelow bs b.merge second := by
  refine (hbs.lineBelow_iff ht).mpr (Or.inl ⟨hbubble.below_second, ?_, ?_⟩)
  · rintro ⟨c, hc, hmerge, hfirst⟩
    obtain rfl := hbs.eq_of_mem hc hb List.mem_cons_self (hmerge ▸ List.mem_cons_self)
    exact hbubble.first_ne hfirst
  · rintro ⟨c, hc, hredirects, _⟩
    exact hbs.merge_notMem_chain hb hc (List.mem_of_getLast? hredirects.2)

/-! ## paths along the lines -/

section Paths

variable {G : Nat → Prop}

/-- The way down the path of a bubble. -/
theorem via_path (ht : t.Consistent) (hbs : t.AreBubbles most bs) (hb : b ∈ bs)
    (hne : b.firstParent ≠ b.base) (hG : ∀ r ∈ b.path, G r) :
    Via (t.LineBelow bs) G b.firstParent b.base := by
  obtain ⟨second, hbubble⟩ := hbs.isBubble hb
  have hline := hbubble.path_line
  refine hline.via (List.ne_nil_of_mem (hline.start_mem hne)) hG (fun hr hd _ => ?_) fun hr => ?_
  · exact (hbs.lineBelow_path_iff ht hb hr).mpr (below_of_onlyParent? hd)
  · exact (hbs.lineBelow_path_iff ht hb (List.mem_of_getLast? hr)).mpr
      (below_of_onlyParent? (hline.getLast? hr))

/-- The way from a merge down the chain to the first parent. -/
theorem via_chain (ht : t.Consistent) (hbs : t.AreBubbles most bs) (hb : b ∈ bs)
    (hG : ∀ r ∈ b.chain, G r) : Via (t.LineBelow bs) G b.merge b.firstParent := by
  obtain ⟨second, hbubble⟩ := hbs.isBubble hb
  have hline := hbubble.chain_line
  have hmem := hline.start_mem_of_ne_nil hbubble.chain_ne_nil
  refine .cons (hbs.lineBelow_second ht hb hbubble) (hG second hmem) ?_
  refine hline.via hbubble.chain_ne_nil hG (fun hr hd hmem => ?_) fun hr => ?_
  · exact (hbs.lineBelow_chain_iff ht hb hr).mpr (Or.inl ⟨hmem, hd⟩)
  · exact (hbs.lineBelow_chain_iff ht hb (List.mem_of_getLast? hr)).mpr (Or.inr ⟨hr, rfl⟩)

variable {H : Nat → Prop}

/-- An edge of a row in a set that holds the rows below its own is a way along
the lines.  Only an edge that a bubble moves to its path needs that path to be
passable. -/
theorem via_of_below (ht : t.Consistent) (hbs : t.AreBubbles most bs)
    (hclosed : ∀ {r x}, H r → t.Below r x → H x) (hG : ∀ {r}, H r → G r) {r x : Nat} (hr : H r)
    (hx : t.Below r x) (hpath : ∀ b ∈ bs, Redirects b r → b.base = x → ∀ p ∈ b.path, G p) :
    Via (t.LineBelow bs) G r x := by
  by_cases hhidden : ∃ b ∈ bs, b.merge = r ∧ b.firstParent = x
  · obtain ⟨b, hb, rfl, rfl⟩ := hhidden
    obtain ⟨second, hbubble⟩ := hbs.isBubble hb
    have hchain := hbubble.chain_line.forall_mem hclosed (hclosed hr hbubble.below_second)
    exact hbs.via_chain ht hb fun y hy => hG (hchain y hy)
  · by_cases hmoved : ∃ b ∈ bs, Redirects b r ∧ b.base = x
    · obtain ⟨b, hb, hredirects, rfl⟩ := hmoved
      obtain ⟨second, hbubble⟩ := hbs.isBubble hb
      have hpassable := hpath b hb hredirects rfl
      refine .cons ((hbs.lineBelow_iff ht).mpr (Or.inr ⟨b, hb, hredirects, rfl⟩))
        (hpassable _ (hbubble.path_line.start_mem hredirects.1)) ?_
      exact hbs.via_path ht hb hredirects.1 hpassable
    · exact .single ((hbs.lineBelow_iff ht).mpr (Or.inl ⟨hx, hhidden, hmoved⟩))

/-- What a row of the set reaches it reaches along the lines, if it is in no
chain whose path is closed to it. -/
theorem via_of_transGen (ht : t.Consistent) (hbs : t.AreBubbles most bs)
    (hclosed : ∀ {r x}, H r → t.Below r x → H x) (hG : ∀ {r}, H r → G r) {u v : Nat}
    (huv : Relation.TransGen t.Below u v) (hu : H u)
    (hopen : ∀ b ∈ bs, u ∈ b.chain → v ∉ b.chain → ∀ p ∈ b.path, G p) :
    Via (t.LineBelow bs) G u v := by
  -- the base of a bubble is below its chain, so nothing at or under it is in the chain
  have hbelow : ∀ {b x}, b ∈ bs → b.base ≤ x → x ∉ b.chain := by
    intro b x hb hx hmem
    obtain ⟨second, hbubble⟩ := hbs.isBubble hb
    have := ((hbubble.chain_line.bounds ht).2 x hmem).2
    omega
  induction huv using Relation.TransGen.head_induction_on with
  | single hx =>
      refine hbs.via_of_below ht hclosed hG hu hx fun b hb hredirects hbase => ?_
      exact hopen b hb (List.mem_of_getLast? hredirects.2) (hbelow hb (Nat.le_of_eq hbase))
  | @head u m hm hmv ih =>
      have hlt := (ht.via_lt (via_true_iff.mpr hmv)).1
      refine (hbs.via_of_below ht hclosed hG hu hm fun b hb hredirects hbase => ?_).trans
        (hG (hclosed hu hm)) (ih (hclosed hu hm) fun b hb hchain hout => ?_)
      · exact hopen b hb (List.mem_of_getLast? hredirects.2) (hbelow hb (by omega))
      · obtain ⟨second, hbubble⟩ := hbs.isBubble hb
        rcases hbubble.above_chain ht hchain hm with rfl | hpair
        · have hpath := hbubble.path_line.forall_mem hclosed (hclosed hu hbubble.below_first)
          exact fun p hp => hG (hpath p hp)
        · exact hopen b hb (hpair.subset (by simp)) hout

end Paths

end AreBubbles

/-! ## filters over the lines -/

/-- An edge between rows of two filters over the lines: one hides rows and
leads past them, the other one drops the edges of the rows it hides. -/
structure Kept (t : Rows) (bs : List Bubble) (S H : Nat → Prop) (r x : Nat) : Prop where
  shown : S r ∧ S x
  inside : H r ∧ H x
  via : Via (t.LineBelow bs) (fun y => ¬ S y) r x

namespace AreBubbles

variable {b : Bubble} {S H : Nat → Prop}

/-- From a chain no filtered edge leads past a row of the path that is shown
by the one filter and hidden by the other. -/
theorem mem_chain_of_kept (ht : t.Consistent) (hbs : t.AreBubbles most bs)
    (hclosed : ∀ {r x}, H r → t.Below r x → H x) (hb : b ∈ bs) {p : Nat} (hp : p ∈ b.path)
    (hpS : S p) (hpH : ¬ H p) {r x : Nat} (hr : r ∈ b.chain) (hx : Kept t bs S H r x) :
    x ∈ b.chain := by
  obtain ⟨second, hbubble⟩ := hbs.isBubble hb
  have hfirst : b.firstParent ∈ b.path ∧ b.firstParent ≤ p := by
    have hbounds := (hbubble.path_line.bounds ht).2 p hp
    exact ⟨hbubble.path_line.start_mem (by omega), hbounds.1⟩
  have hstep : ∀ {y z}, (y ∈ b.chain ∨ y ∈ b.path ∧ y < p) → t.LineBelow bs y z →
      z ∈ b.chain ∨ z ∈ b.path ∧ z ≤ p := by
    rintro y z (hy | ⟨hy, hlt⟩) hyz
    · rcases (hbs.lineBelow_chain_iff ht hb hy).mp hyz with ⟨hz, _⟩ | ⟨_, rfl⟩
      · exact Or.inl hz
      · exact Or.inr hfirst
    · obtain ⟨d, hd⟩ := hbubble.path_line.onlyParent? hy
      obtain rfl := eq_of_below_of_onlyParent? hd ((hbs.lineBelow_path_iff ht hb hy).mp hyz)
      rcases hbubble.path_line.next ht hy hd with ⟨hz, hle⟩ | ⟨_, _, hle⟩
      · exact Or.inr ⟨hz, hle p hp hlt⟩
      · exact absurd (hle p hp) (by omega)
  have hrun : ∀ {y z}, Via (t.LineBelow bs) (fun y => ¬ S y) y z →
      (y ∈ b.chain ∨ y ∈ b.path ∧ y < p) → z ∈ b.chain ∨ z ∈ b.path ∧ z ≤ p := by
    intro y z hvia hy
    induction hvia with
    | single hyz => exact hstep hy hyz
    | @cons y m z hym hm _ ih =>
        refine ih ((hstep hy hym).imp id fun ⟨hmem, hle⟩ => ⟨hmem, Nat.lt_of_le_of_ne hle ?_⟩)
        exact fun heq => hm (heq ▸ hpS)
  rcases hrun hx.via (Or.inl hr) with hmem | ⟨hmem, hle⟩
  · exact hmem
  · exact absurd (hbubble.path_line.forall_mem_of_le ht hclosed hmem hx.inside.2 p hp hle) hpH

/-- Two filters over the lines lose what a row reached exactly when the row is
in the chain of a bubble, not so what it reached, and the one filter shows
a row of the path that the other one hides. -/
theorem transGen_kept_iff (ht : t.Consistent) (hbs : t.AreBubbles most bs)
    (hclosed : ∀ {r x}, H r → t.Below r x → H x) {u v : Nat} (huv : Relation.TransGen t.Below u v)
    (hshown : S u ∧ S v) (hu : H u) : Relation.TransGen (Kept t bs S H) u v ↔
      ∀ b ∈ bs, u ∈ b.chain → v ∉ b.chain → ∀ p ∈ b.path, S p → H p := by
  constructor
  · intro hreach b hb huchain hv p hp hpS
    by_contra hpH
    refine hv ?_
    clear huv hshown hu hv
    induction hreach using Relation.TransGen.head_induction_on with
    | single hedge => exact hbs.mem_chain_of_kept ht hclosed hb hp hpS hpH huchain hedge
    | head hedge _ ih => exact ih (hbs.mem_chain_of_kept ht hclosed hb hp hpS hpH huchain hedge)
  · intro hopen
    have hv : H v := by
      clear hopen hshown
      induction huv with
      | single h => exact hclosed hu h
      | tail _ h ih => exact hclosed ih h
    have hvia := hbs.via_of_transGen (G := fun p => S p → H p) ht hclosed (fun h _ => h)
      huv hu hopen
    have hgroup := hvia.group (S := S) (H := H) (fun h hS => h hS) hshown.1 hshown.2
    clear hopen huv hvia hshown
    induction hgroup with
    | single hedge => exact .single ⟨⟨hedge.1, hedge.2.1⟩, ⟨hu, hv⟩, hedge.2.2⟩
    | cons hedge hm _ ih =>
        exact .head ⟨⟨hedge.1, hedge.2.1⟩, ⟨hu, hm⟩, hedge.2.2⟩ (ih hm hv)

end AreBubbles

/-! ## the layers -/

/-- The links of the straightened rows. -/
theorem Consistent.links_straightened (ht : t.Consistent) {u v : Nat} :
    (t.straightened most).Links u v ↔ ∃ r x, t.node? r = some u ∧ t.node? x = some v ∧
      t.LineBelow (t.bubbles most) r x := by
  have hbs := areBubbles_bubbles t most
  rw [straightened]
  split
  · next hnil =>
      rw [hnil] at hbs ⊢
      rw [redrawn, projected_eq_drawn, links_drawn (showable_filter t _)]
      simp only [node?_and_mem_filter, and_true, mem_row_targetsOf, List.not_mem_nil, and_false,
        exists_false, or_false, true_and, hbs.lineBelow_iff ht, false_and, not_false_eq_true, Below]
  · have hshown : ∀ {r n}, (t.node? r = some n ∧ r ∈ lineOrder t.size (t.bubbles most)) ↔
        t.node? r = some n := fun {r n} => by
      rw [hbs.mem_lineOrder ht, and_iff_left_iff_imp]
      exact lt_size_of_node?
    rw [drawLines_eq_drawn, links_drawn (hbs.showable_lineOrder ht)]
    simp only [hshown, LineBelow]

/-- The straightened rows have the paths along the lines. -/
theorem Consistent.mirrors_straightened (ht : t.Consistent) (most : Nat) :
    Mirrors (fun r n => t.node? r = some n) (t.LineBelow (t.bubbles most))
      (t.straightened most).Links := by
  have hbs := areBubbles_bubbles t most
  refine ht.mirrors_of_iff (fun ⟨_, h⟩ => ?_) ht.links_straightened
  exact (hbs.mem_lineOrder ht).mp ((hbs.pair_sublist_of_target ht h).subset (by simp))

/-- The edges kept by a history filter, over a layer that links the nodes of
`S` along the lines past the other ones. -/
theorem Consistent.mirrors_kept (ht : t.Consistent) {inner : Rows} {S : Nat → Prop}
    (hinner : ∀ {u v}, inner.Links u v ↔
      S u ∧ S v ∧ Via (t.straightened most).Links (fun n => ¬ S n) u v) (keep : NodeId → Bool) :
    Mirrors (fun r n => t.node? r = some n)
      (Kept t (t.bubbles most) (fun r => ∃ n, t.node? r = some n ∧ S n)
        (fun r => t.keeps keep r = true)) (inner.historyOnly keep).Links := by
  have hS : ∀ {r n}, t.node? r = some n → ((∃ n, t.node? r = some n ∧ S n) ↔ S n) := by
    intro r n hn
    simp [hn]
  have hlines := ht.mirrors_straightened most
  refine ht.mirrors_of_iff (fun h => ?_) fun {u v} => ?_
  · obtain ⟨_, _, hlast⟩ := h.via.ends
    obtain ⟨_, hshown⟩ := hlines.target hlast
    exact lt_size_of_node? hshown
  · rw [links_historyOnly, hinner]
    have hvia : ∀ {r x}, t.node? r = some u → t.node? x = some v →
        (Via (t.LineBelow (t.bubbles most)) (fun r => ¬ ∃ n, t.node? r = some n ∧ S n) r x ↔
          Via (t.straightened most).Links (fun n => ¬ S n) u v) := fun hr hx =>
      hlines.via_iff (fun hn => not_congr (hS hn)) hr hx
    constructor
    · rintro ⟨hku, hkv, hSu, hSv, h⟩
      obtain ⟨⟨_, hfirst⟩, ⟨_, hlast⟩⟩ := h.ends
      obtain ⟨r, _, hr, _⟩ := ht.links_straightened.mp hfirst
      obtain ⟨_, x, _, hx, _⟩ := ht.links_straightened.mp hlast
      exact ⟨r, x, hr, hx, ⟨(hS hr).mpr hSu, (hS hx).mpr hSv⟩,
        ⟨by rwa [keeps_iff hr], by rwa [keeps_iff hx]⟩, (hvia hr hx).mpr h⟩
    · rintro ⟨r, x, hr, hx, ⟨hSr, hSx⟩, ⟨hkr, hkx⟩, h⟩
      rw [keeps_iff hr] at hkr
      rw [keeps_iff hx] at hkx
      exact ⟨hkr, hkx, (hS hr).mp hSr, (hS hx).mp hSx, (hvia hr hx).mp h⟩

end Rows

end Lineage
