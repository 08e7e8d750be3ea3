import Mathlib.Data.List.Pairwise
import Lineage.Proofs.Loading
import Lineage.Proofs.Strands

/-!
# Lineage.Proofs.Strands.Cover

Every node is on one strand, in whatever order the commits are listed.  A node
that is still free when its turn comes starts a strand, and a strand grows along
parents in no smaller lane.

* `History.isChain_growAll` — where strands lead.
* `Strands.cover_ofHistory` — the strands of a history.
-/

namespace Lineage

namespace History

variable {h : History} {lane : Nat → Nat} {taken : Marks} {node parent n : Nat}
  {nodes path : List Nat}

/-- The second node is a loaded parent of the first one and lies in no smaller
lane. -/
def StepsDown (h : History) (lane : Nat → Nat) (m n : Nat) : Prop :=
  h.IsParent m n ∧ lane m ≤ lane n

theorem stepsDown_of_strandParent? (hsome : h.strandParent? lane taken node = some parent) :
    h.StepsDown lane node parent := by
  have hsuits := List.find?_some hsome
  simp only [Bool.and_eq_true, decide_eq_true_eq] at hsuits
  exact ⟨List.mem_of_find?_eq_some hsome, hsuits.2.1⟩

/-- A strand leads down. -/
theorem isChain_grow : (node :: (h.grow lane taken node).1).IsChain (h.StepsDown lane) := by
  fun_induction h.grow lane taken node with
  | case1 taken node hnone => simp
  | case2 taken node parent hsome rest taken' hgrow ih =>
      rw [hgrow] at ih
      exact List.isChain_cons_cons.mpr ⟨stepsDown_of_strandParent? hsome, ih⟩

/-- No strand is empty, and all lead down. -/
theorem isChain_growAll (hpath : path ∈ h.growAll lane taken nodes) :
    path ≠ [] ∧ path.IsChain (h.StepsDown lane) := by
  induction nodes generalizing taken with
  | nil => simp [growAll] at hpath
  | cons node nodes ih =>
      cases hnode : taken.has node with
      | true =>
          rw [growAll_cons_of_has hnode] at hpath
          exact ih hpath
      | false =>
          rw [growAll_cons_of_free hnode, List.mem_cons] at hpath
          cases hpath with
          | inl hfirst =>
              rw [hfirst]
              exact ⟨List.cons_ne_nil _ _, isChain_grow⟩
          | inr hlater => exact ih hlater

end History

namespace Strands

open History

variable {h : History} {lanes : Lanes} {before after path path' : List Nat} {n b : Nat}

/-! ## the strands of a history -/

/-- No node is on two strands. -/
theorem path_unique (hpath : path ∈ (ofHistory h lanes).paths)
    (hpath' : path' ∈ (ofHistory h lanes).paths) (hn : n ∈ path) (hn' : n ∈ path') :
    path = path' := by
  have hapart := (List.nodup_flatten.mp (nodup_paths h lanes)).2
  have hsymm : Std.Symm (@List.Disjoint Nat) := ⟨fun _ _ hdisjoint => hdisjoint.symm⟩
  by_contra hne
  exact hapart.forall hpath hpath' hne hn hn'

/-- What comes directly after a node of a strand. -/
theorem follows_iff (hpath : before ++ n :: after ∈ (ofHistory h lanes).paths) :
    (ofHistory h lanes).Follows n b ↔ after.head? = some b := by
  constructor
  · intro hfollows
    obtain ⟨path, hmem, x, y, rfl⟩ := hfollows
    rw [List.append_assoc] at hmem
    have hsame := path_unique (n := n) hpath hmem (by simp) (by simp)
    -- the node stands on its strand once, so both ways to find it there are one
    have hnodup := (List.nodup_flatten.mp (nodup_paths h lanes)).1 _ hpath
    have hnot := (List.nodup_cons.mp (List.nodup_middle.mp hnodup)).1
    rw [List.mem_append, not_or] at hnot
    obtain ⟨_, _, hafter⟩ := (List.append_cons_inj_of_notMem hnot.1 hnot.2).mp hsame
    rw [hafter]
    rfl
  · intro hhead
    obtain ⟨rest, rfl⟩ := List.head?_eq_some_iff.mp hhead
    exact ⟨_, hpath, before, rest, by simp⟩

/-- The strands of a history cover it: every node is on one strand and stands
there once, strands lead down to parents in no smaller lane, and the node after
another one is the next on its strand, if there is one. -/
structure Cover (h : History) (lanes : Lanes) (s : Strands) : Prop where
  perm : s.paths.flatten.Perm (List.range h.size)
  nonempty : ∀ path ∈ s.paths, path ≠ []
  chain : ∀ path ∈ s.paths, path.IsChain (h.StepsDown lanes.lane)
  next?_eq : ∀ {before n after}, before ++ n :: after ∈ s.paths → s.next? n = after.head?

/-- The strands of any history cover it, however its commits are listed and its
lanes are given. -/
theorem cover_ofHistory (h : History) (lanes : Lanes) : Cover h lanes (ofHistory h lanes) := by
  constructor
  · exact perm_paths h lanes
  · exact fun path hpath => (isChain_growAll (paths_ofHistory h lanes ▸ hpath)).1
  · exact fun path hpath => (isChain_growAll (paths_ofHistory h lanes ▸ hpath)).2
  · intro before n after hpath
    refine Option.ext fun b => ?_
    rw [next?_eq_some_iff, follows_iff hpath]

/-- A base that is listed first is a strand of its own. -/
example : (ofHistory mergeHistory (Lanes.ofHistory mergeHistory compare)).paths =
    [[0], [1, 2]] := by
  cbv

end Strands

end Lineage
