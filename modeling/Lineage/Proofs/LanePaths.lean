import Lineage.Proofs.Lanes

/-!
# Lineage.Proofs.LanePaths

The nodes of one lane are on one way down.  While a lane is open the walk only
descends, so the node that it has arrived at is below all others in the lane;
as soon as it turns back, the lane is closed.

* `Painting.Descends.give`, `Painting.Descends.leave` — the two steps.
* `Lanes.reach_of_lane_eq` — of two nodes in one lane, one is the other or an
  ancestor of it.
-/

namespace Lineage

open Relation (ReflTransGen)

namespace Painting

open History

variable {h : History} {p : Painting} {node : Nat} {heads stack : List Nat} {arrived : Bool}

/-- Of two nodes in one lane, one reaches the other; and when the walk has just
arrived, every node in the open lane reaches the top of its stack. -/
structure Descends (h : History) (p : Painting) (stack : List Nat) (arrived : Bool) : Prop where
  reach : ∀ {m n}, p.laneOf m ≠ 0 → p.laneOf m = p.laneOf n →
    ReflTransGen h.IsParent m n ∨ ReflTransGen h.IsParent n m
  top : arrived = true → ∀ node ∈ stack.head?, ∀ {n}, p.laneOf n = p.current →
    ReflTransGen h.IsParent n node

namespace Descends

/-- The next node in the open lane is below all others there. -/
theorem give (hd : Descends h p stack arrived) (hfree : p.isFree node = true)
    (hopen : ∀ {n}, p.laneOf n = p.current → ReflTransGen h.IsParent n node) (rest : List Nat) :
    Descends h (p.give node) (node :: rest) true := by
  have hnode : (p.give node).laneOf node = p.current := by simp [laneOf_give hfree]
  have hother : ∀ {n}, n ≠ node → (p.give node).laneOf n = p.laneOf n := fun hn => by
    rw [laneOf_give hfree, if_neg hn]
  have hbelow : ∀ {n}, (p.give node).laneOf n = p.current → ReflTransGen h.IsParent n node := by
    intro n hn
    by_cases heq : n = node
    · exact heq ▸ .refl
    · exact hopen (hother heq ▸ hn)
  refine ⟨fun {m n} hm hmn => ?_, fun _ top htop n hn => ?_⟩
  · by_cases hmnode : m = node
    · subst hmnode
      exact Or.inr (hbelow (hmn.symm.trans hnode))
    · by_cases hnnode : n = node
      · subst hnnode
        exact Or.inl (hbelow (hmn.trans hnode))
      · rw [hother hmnode] at hm hmn
        exact hd.reach hm (hother hnnode ▸ hmn)
  · obtain rfl : node = top := by simpa using htop
    exact hbelow hn

/-- A node is left. -/
theorem leave (hd : Descends h p stack arrived) (rest : List Nat) :
    Descends h (p.leave arrived) rest false :=
  ⟨fun hm hmn => hd.reach (by simpa using hm) (by simpa using hmn), fun hfalse => by contradiction⟩

/-- A closed lane is never the open one. -/
theorem not_open (hw : Walking h p stack false) (n : Nat) : p.laneOf n ≠ p.current := by
  have hle := hw.lane_le n
  rw [current]
  simp at hle
  omega

theorem descend (hl : Linked h.size h.loadedParents h.loadedChildren)
    (hw : Walking h p stack arrived) (hd : Descends h p stack arrived) :
    Descends h (p.descend h stack arrived) [] false := by
  fun_induction Painting.descend h p stack arrived with
  | case1 p arrived => exact ⟨hd.reach, by simp⟩
  | case2 p arrived node rest parent hfound ih =>
      have hfree : p.isFree parent = true := List.find?_some hfound
      have hparent : h.IsParent node parent := List.mem_of_find?_eq_some hfound
      refine ih (hw.push hfree) (hd.give hfree (fun {n} hn => ?_) _)
      cases arrived with
      | false => exact absurd hn (not_open hw n)
      | true => exact (hd.top rfl node rfl hn).tail hparent
  | case3 p arrived node rest hnone ih =>
      have hdone : ∀ m ∈ h.loadedParents node, ¬ p.isFree m := by
        simpa using List.find?_eq_none.mp hnone
      exact ih (hw.pop hl hdone) (hd.leave rest)

/-- The walks from heads that are all free. -/
theorem paintAll (hl : Linked h.size h.loadedParents h.loadedChildren)
    (hw : Walking h p [] false) (hd : Descends h p [] false) (hnodup : heads.Nodup)
    (hheads : ∀ head ∈ heads, h.IsHead head ∧ p.laneOf head = 0) :
    Descends h (p.paintAll h heads).1 [] false := by
  induction heads generalizing p with
  | nil => exact hd
  | cons head heads ih =>
      obtain ⟨hfree, hrest⟩ := hw.free_heads hl hnodup hheads
      have hgive := hd.give hfree (fun {n} hn => absurd hn (not_open hw n)) []
      exact ih (hw.paint hl hfree).1 (hgive.descend hl (hw.push hfree)) hnodup.of_cons hrest

end Descends

end Painting

namespace Lanes

open History

variable {h : History} {m n : Nat}

/-- Every node of a sound history has a lane, however its heads are ranked. -/
theorem lane_ne_zero (hs : h.Sound) (compare : Nat → Nat → Ordering) (hn : n < h.size) :
    (ofHistory h compare).lane n ≠ 0 := by
  obtain ⟨i, hi⟩ := hs.exists_isLeast_reaching mem_heads_ofHistory hn
  have hlt := (regions_ofHistory hs.linked compare).closed_lt_lane (laneOf_blank h n) hi
  exact Nat.ne_of_gt (Nat.lt_of_le_of_lt (Nat.zero_le _) hlt)

theorem descends_blank (h : History) : Painting.Descends h (blank h) [] false :=
  ⟨fun hpainted => absurd (laneOf_blank h _) hpainted, fun hfalse => by contradiction⟩

/-- Of two nodes in one lane, one is the other or an ancestor of it. -/
theorem reach_of_lane_eq (hs : h.Sound) (compare : Nat → Nat → Ordering) (hm : m < h.size)
    (hmn : (ofHistory h compare).lane m = (ofHistory h compare).lane n) :
    ReflTransGen h.IsParent m n ∨ ReflTransGen h.IsParent n m := by
  have hall := (descends_blank h).paintAll hs.linked (walking_blank h)
    (nodup_heads_ofHistory h compare) (free_heads_ofHistory h compare)
  exact hall.reach (lane_ne_zero hs compare hm) hmn

end Lanes

end Lineage
