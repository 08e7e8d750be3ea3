import Lineage.Proofs.LinearView
import Lineage.Proofs.Stack

/-!
# Lineage.Proofs.FalseAncestry

What straightening adds to the paths of a layer.  A line leads from the chain
of its bubble to the path, so a row of the chain reaches the rows of the path,
which are no ancestors of it.  Nothing else is reached that was not before, and
everything that was is reached still, however many bubbles a way leads through.

* `Rows.AreBubbles.transGen_lineBelow_iff` — the paths along the lines.
* `Stack.reach_straightened` — the paths of a straightened layer over any stack.
-/

namespace Lineage

open Relation (ReflTransGen TransGen)

namespace Rows

variable {t : Rows} {most : Nat} {bs : List Bubble}

/-! ## along a line -/

namespace Line

variable {start base : Nat} {rows : List Nat}

/-- A property of the last row of a line that passes up the line holds in all
of it. -/
theorem forall_mem_of_last {P : Nat → Prop} (hl : t.Line start rows base)
    (hlast : ∀ {r}, rows.getLast? = some r → P r)
    (hup : ∀ {r d}, r ∈ rows → d ∈ rows → t.onlyParent? r = some d → P d → P r) :
    ∀ r ∈ rows, P r := by
  induction hl with
  | nil => exact fun r hr => absurd hr List.not_mem_nil
  | @cons r d base rows _ hdown hl ih =>
      cases hl with
      | nil => simpa using hlast rfl
      | @cons _ d' _ rows' _ _ _ =>
          have hrest := ih (fun hr => hlast (by simpa using hr)) fun hr hd =>
            hup (List.mem_cons_of_mem _ hr) (List.mem_cons_of_mem _ hd)
          refine List.forall_mem_cons.mpr ⟨?_, hrest⟩
          exact hup List.mem_cons_self (by simp) hdown (hrest d List.mem_cons_self)

/-- A line leads from its start to each of its rows. -/
theorem reach (hl : t.Line start rows base) {x : Nat} (hx : x ∈ rows) :
    ReflTransGen (fun r d => r ∈ rows ∧ t.Below r d) start x := by
  induction hl with
  | nil => exact absurd hx List.not_mem_nil
  | @cons r d base rows _ hdown _ ih =>
      rcases List.mem_cons.mp hx with rfl | hx
      · exact .refl
      · have hfirst : r ∈ r :: rows ∧ t.Below r d :=
          ⟨List.mem_cons_self, below_of_onlyParent? hdown⟩
        exact .head hfirst ((ih hx).lift id fun _ _ h => ⟨List.mem_cons_of_mem r h.1, h.2⟩)

/-- Whatever the start of a line reaches is in the line, or reached from its
base. -/
theorem mem_or_reach (hl : t.Line start rows base) {x : Nat} (hx : ReflTransGen t.Below start x) :
    x ∈ rows ∨ ReflTransGen t.Below base x := by
  induction hl with
  | nil => exact Or.inr hx
  | @cons r d base rows _ hdown _ ih =>
      rcases ReflTransGen.cases_head hx with rfl | ⟨m, hm, hx⟩
      · exact Or.inl List.mem_cons_self
      · obtain rfl := eq_of_below_of_onlyParent? hdown hm
        exact (ih hx).imp_left (List.mem_cons_of_mem r)

end Line

/-! ## along the lines of bubbles -/

namespace AreBubbles

variable {b : Bubble}

/-- Every row of a chain leads to the first parent. -/
theorem transGen_first (ht : t.Consistent) (hbs : t.AreBubbles most bs) (hb : b ∈ bs) :
    ∀ r ∈ b.chain, TransGen (t.LineBelow bs) r b.firstParent := by
  obtain ⟨second, hbubble⟩ := hbs.isBubble hb
  refine hbubble.chain_line.forall_mem_of_last (fun {r} hlast => ?_) fun {r d} hr hd hdown ih => ?_
  · have hr : r ∈ b.chain := List.mem_of_getLast? hlast
    exact .single ((hbs.lineBelow_chain_iff ht hb hr).mpr (Or.inr ⟨hlast, rfl⟩))
  · exact .head ((hbs.lineBelow_chain_iff ht hb hr).mpr (Or.inl ⟨hd, hdown⟩)) ih

/-- Every row of a chain reaches every row of the path. -/
theorem transGen_chain_path (ht : t.Consistent) (hbs : t.AreBubbles most bs) (hb : b ∈ bs)
    {r x : Nat} (hr : r ∈ b.chain) (hx : x ∈ b.path) : TransGen (t.LineBelow bs) r x := by
  obtain ⟨second, hbubble⟩ := hbs.isBubble hb
  have hpath : ReflTransGen (t.LineBelow bs) b.firstParent x :=
    (hbubble.path_line.reach hx).lift id fun _ _ h => (hbs.lineBelow_path_iff ht hb h.1).mpr h.2
  exact (hbs.transGen_first ht hb r hr).trans_left hpath

/-- An edge of a line is an edge, or leads from the last row of a chain to the
first row of the path. -/
theorem below_or_redirected (ht : t.Consistent) (hbs : t.AreBubbles most bs) {r x : Nat}
    (h : t.LineBelow bs r x) :
    t.Below r x ∨ ∃ b ∈ bs, Redirects b r ∧ b.firstParent = x := by
  rcases (hbs.lineBelow_iff ht).mp h with ⟨hbelow, _⟩ | hredirected
  · exact Or.inl hbelow
  · exact Or.inr hredirected

/-- Along the lines a row reaches what it reached before, and from a chain the
rows of the path. -/
theorem transGen_lineBelow_iff (ht : t.Consistent) (hbs : t.AreBubbles most bs) {r x : Nat} :
    TransGen (t.LineBelow bs) r x ↔
      TransGen t.Below r x ∨ ∃ b ∈ bs, r ∈ b.chain ∧ x ∈ b.path := by
  constructor
  · intro h
    induction h using TransGen.head_induction_on with
    | @single r h =>
        rcases hbs.below_or_redirected ht h with hbelow | ⟨b, hb, hredirects, rfl⟩
        · exact Or.inl (.single hbelow)
        · obtain ⟨second, hbubble⟩ := hbs.isBubble hb
          exact Or.inr ⟨b, hb, List.mem_of_getLast? hredirects.2,
            hbubble.path_line.start_mem hredirects.1⟩
    | @head r m h _ ih =>
        rcases hbs.below_or_redirected ht h with hbelow | ⟨b, hb, hredirects, rfl⟩
        · rcases ih with hx | ⟨b, hb, hm, hx⟩
          · exact Or.inl (.head hbelow hx)
          · obtain ⟨second, hbubble⟩ := hbs.isBubble hb
            rcases hbubble.above_chain ht hm hbelow with rfl | hpair
            · -- from the merge the path is reached by its own edges
              have hpath : ReflTransGen t.Below b.firstParent x :=
                (hbubble.path_line.reach hx).lift id fun _ _ h => h.2
              exact Or.inl (TransGen.head' hbubble.below_first hpath)
            · exact Or.inr ⟨b, hb, hpair.subset (by simp), hx⟩
        · obtain ⟨second, hbubble⟩ := hbs.isBubble hb
          have hr : r ∈ b.chain := List.mem_of_getLast? hredirects.2
          have hfirst := hbubble.path_line.start_mem hredirects.1
          rcases ih with hx | ⟨c, hc, hm, _⟩
          · rcases hbubble.path_line.mem_or_reach hx.to_reflTransGen with hpath | hbase
            · exact Or.inr ⟨b, hb, hr, hpath⟩
            · -- past the path, the moved edge led there before
              have hbelow := below_of_onlyParent? (hbubble.chain_line.getLast? hredirects.2)
              exact Or.inl (TransGen.head' hbelow hbase)
          · -- the first parent is in no chain
            obtain rfl := hbs.eq_of_mem hb hc
              (List.mem_cons_of_mem _ (List.mem_append_right _ hfirst))
              (List.mem_cons_of_mem _ (List.mem_append_left _ hm))
            exact absurd hfirst (hbubble.disjoint ht hm)
  · rintro (h | ⟨b, hb, hr, hx⟩)
    · have hvia := hbs.via_of_transGen (H := fun _ => True) (G := fun _ => True) ht
        (fun _ _ => trivial) (fun _ => trivial) h trivial fun _ _ _ _ _ _ => trivial
      exact hvia.transGen
    · exact hbs.transGen_chain_path ht hb hr hx

end AreBubbles

/-! ## straightened layers -/

/-- A node in the chain of a straightened bubble and one in its path, between
the first parent and the base.  The second is drawn as an ancestor of the
first. -/
def FalseAncestor (t : Rows) (most u v : Nat) : Prop :=
  ∃ b ∈ t.bubbles most, (∃ r ∈ b.chain, t.node? r = some u) ∧ ∃ x ∈ b.path, t.node? x = some v

/-- The paths of a straightened layer. -/
theorem Consistent.transGen_straightened_iff (ht : t.Consistent) (most u v : Nat) :
    TransGen (t.straightened most).Links u v ↔
      TransGen t.Links u v ∨ t.FalseAncestor most u v := by
  have hbs := areBubbles_bubbles t most
  have hlines := ht.mirrors_straightened most
  constructor
  · intro h
    obtain ⟨⟨_, hfirst⟩, _, hlast⟩ := (via_true_iff.mpr h).ends
    obtain ⟨r, _, hr, _⟩ := ht.links_straightened.mp hfirst
    obtain ⟨x, hx⟩ := hlines.target_on hlast
    rcases (hbs.transGen_lineBelow_iff ht).mp ((hlines.transGen_iff hr hx).mpr h) with
      hreach | ⟨b, hb, hrb, hxb⟩
    · exact Or.inl ((ht.mirrors_links.transGen_iff hr hx).mp hreach)
    · exact Or.inr ⟨b, hb, ⟨r, hrb, hr⟩, x, hxb, hx⟩
  · rintro (h | ⟨b, hb, ⟨r, hrb, hr⟩, x, hxb, hx⟩)
    · obtain ⟨⟨_, _, r, _, hr, _⟩, _, hlast⟩ := (via_true_iff.mpr h).ends
      obtain ⟨x, hx⟩ := ht.mirrors_links.target_on hlast
      have hreach := (ht.mirrors_links.transGen_iff hr hx).mpr h
      exact (hlines.transGen_iff hr hx).mp ((hbs.transGen_lineBelow_iff ht).mpr (Or.inl hreach))
    · have hreach := (hbs.transGen_lineBelow_iff ht).mpr (Or.inr ⟨b, hb, hrb, hxb⟩)
      exact (hlines.transGen_iff hr hx).mp hreach

end Rows

namespace Stack

variable {α : Type} [BEq α] [Hashable α] [EquivBEq α] [LawfulHashable α]
  {commits : List (Commit α)} {slots slots' : Placeholders α} {h : History}

/-- A straightened layer over any stack adds to the paths of the stack exactly
those from the chain of a bubble to its path. -/
theorem reach_straightened (hload : History.load commits slots = .ok (h, slots')) (s : Stack)
    (hbase : s.baseOrder = h.order ∨ ∃ compare timestamp,
      s.baseOrder = h.rebaseOrder (Lanes.ofHistory h compare) timestamp) (most u v : Nat) :
    (TransGen ((Stack.straightened most s).rows h).Links u v ↔
      TransGen (s.rows h).Links u v ∨ (s.rows h).FalseAncestor most u v) ∧
    (ReflTransGen ((Stack.straightened most s).rows h).Links u v ↔
      ReflTransGen (s.rows h).Links u v ∨ (s.rows h).FalseAncestor most u v) := by
  have hs := History.sound_of_load hload
  have hrows : (s.rows h).Consistent := by
    refine consistent_rows hs s ?_
    rcases hbase with hbase | ⟨compare, timestamp, hbase⟩
    · rw [hbase]
      exact hs.topological
    · rw [hbase]
      exact hs.rebaseOrder _ timestamp
  have hreach := hrows.transGen_straightened_iff most u v
  refine ⟨hreach, ?_⟩
  rw [Relation.reflTransGen_iff_eq_or_transGen, Relation.reflTransGen_iff_eq_or_transGen, or_assoc]
  exact or_congr_right hreach

/-- Drawn as a line, the side of a merge reaches the path, which it did not
before. -/
theorem reach_straightened_fork :
    History.load Graph.forkCommits .empty = .ok (Graph.fork.history, .empty) ∧
    TransGen ((Stack.straightened 1 (.base Graph.fork.history.order)).rows
      Graph.fork.history).Links 2 1 ∧
    ¬ TransGen ((Stack.base Graph.fork.history.order).rows Graph.fork.history).Links 2 1 := by
  have hload := Graph.load_history_fork
  have hs := History.sound_of_load hload
  have hrows := consistent_rows hs (.base Graph.fork.history.order) hs.topological
  have hnodes : ∀ n < 4, ((Stack.base Graph.fork.history.order).rows
      Graph.fork.history).node? n = some n := by
    decide
  have hside := hnodes 2 (by omega)
  have hpath := hnodes 1 (by omega)
  refine ⟨hload, ?_, fun hreach => ?_⟩
  · have hbubbles : ((Stack.base Graph.fork.history.order).rows Graph.fork.history).bubbles 1 =
        [⟨0, 1, [2], [1], 3⟩] := by
      cbv
    refine (reach_straightened hload (.base Graph.fork.history.order) (Or.inl rfl) 1 2 1).1.mpr
      (Or.inr ⟨⟨0, 1, [2], [1], 3⟩, ?_, ⟨2, by simp, hside⟩, 1, by simp, hpath⟩)
    simp [hbubbles]
  · have hbelow := (hrows.mirrors_links.transGen_iff hside hpath).mpr hreach
    have hlt := (hrows.via_lt (via_true_iff.mpr hbelow)).1
    omega

end Stack

end Lineage
