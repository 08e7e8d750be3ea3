import Mathlib.Algebra.BigOperators.Group.Finset.Basic
import Mathlib.Algebra.GroupWithZero.Nat
import Lineage.Proofs.Translation

/-!
# Lineage.Proofs.Adjacency

The parents of a history by the integers of their nodes.  A parent that is
listed has its position; any other one has the slot that it had before, or the
next one when it is first mentioned.

* `Placeholders.commits_reserve`, `History.slots_of_load` — who gets the next
  slots.
* `History.map_toInt_parentsOf` — the parents of a node as integers.
* `History.edgeCount_of_load` — how many mentions there are.
-/

namespace Lineage

/-- Some distinct values occur in a list as often as it has entries, if it has
no others. -/
theorem sum_count_eq_length {β : Type} [DecidableEq β] {values xs : List β} (hvalues : values.Nodup)
    (hxs : ∀ x ∈ xs, x ∈ values) : (values.map xs.count).sum = xs.length := by
  have hsum := Multiset.sum_count_eq_card (s := values.toFinset) (m := (xs : Multiset β))
    (by simpa using hxs)
  rw [List.sum_toFinset _ hvalues] at hsum
  simpa only [Multiset.coe_count, Multiset.coe_card] using hsum

namespace Placeholders

variable {α : Type} [BEq α] [Hashable α] {p : Placeholders α}

/-! ## the next slots -/

theorem reserve_append (p : Placeholders α) (xs ys : List α) :
    p.reserve (xs ++ ys) = (p.reserve xs).reserve ys := List.foldl_append

variable [LawfulBEq α]

end Placeholders

namespace History

variable {α : Type} [BEq α] [Hashable α] {commits : List (Commit α)}
  {slots slots' : Placeholders α} {h : History} {index : Std.HashMap α Nat}

/-! ## slots of parents -/

theorem resolveAll_snd (index : Std.HashMap α Nat) (slots : Placeholders α) (ps : List α) :
    (resolveAll index slots ps).2 = slots.reserve (ps.filter fun p => index[p]?.isNone) := by
  induction ps generalizing slots with
  | nil => rfl
  | cons p ps ih =>
      rw [resolveAll, List.filter_cons]
      simp only [ih, resolve]
      cases index[p]? <;> rfl

/-- Loading asks for the slots of the parents that are not listed, one mention
after the other. -/
theorem resolveCommits_snd (index : Std.HashMap α Nat) (slots : Placeholders α)
    (cs : List (Commit α)) : (resolveCommits index slots cs).2 =
      slots.reserve ((cs.flatMap (·.parents)).filter fun p => index[p]?.isNone) := by
  induction cs generalizing slots with
  | nil => rfl
  | cons c cs ih =>
      rw [List.flatMap_cons, List.filter_append, Placeholders.reserve_append,
        ← resolveAll_snd index slots c.parents]
      exact ih _

/-- The integer of a parent: its position among the listed commits or else the
one of its slot. -/
def numberOf (listed unlisted : List α) (p : α) : Int :=
  if listed.contains p then listed.idxOf p else -2 - unlisted.idxOf p

variable [LawfulBEq α]

omit [Hashable α] in
theorem idxOf_eq_of_getElem? {xs : List α} (hxs : xs.Nodup) {x : α} {i : Nat}
    (hi : xs[i]? = some x) : xs.idxOf x = i := by
  obtain ⟨hlt, rfl⟩ := List.getElem?_eq_some_iff.mp hi
  exact hxs.idxOf_getElem i hlt

/-- The node of a parent has its integer. -/
theorem Named.toInt_eq (hnodup : (commits.map (·.id)).Nodup) (hslots : slots.Numbered) {p : α}
    {x : NodeId} (hx : Named (indexOf commits) slots p x) :
    x.toInt = numberOf (commits.map (·.id)) slots.commits.toList p := by
  unfold numberOf
  cases x with
  | loaded n =>
      have hn := (getElem?_indexOf hnodup).mp hx
      rw [if_pos (by simpa using List.mem_of_getElem? hn), idxOf_eq_of_getElem? hnodup hn]
      rfl
  | none => contradiction
  | missing s =>
      obtain ⟨hnone, hs⟩ := hx
      have hnew := (getElem?_indexOf_eq_none hnodup).mp hnone
      rw [if_neg (by simpa using hnew),
        idxOf_eq_of_getElem? hslots.nodup (by rwa [Array.getElem?_toList])]
      rfl

theorem numbered_of_load (hslots : slots.Numbered)
    (hload : load commits slots = .ok (h, slots')) : slots'.Numbered := by
  obtain ⟨_, _, hslots', _⟩ := eq_of_load hload
  rw [hslots']
  exact (resolveCommits_spec (indexOf commits) hslots commits).1.numbered

/-- The parents of a node are those of its commit by their integers. -/
theorem map_toInt_parentsOf (hslots : slots.Numbered)
    (hload : load commits slots = .ok (h, slots')) {n : Nat} {c : Commit α}
    (hc : commits[n]? = some c) : (h.parentsOf n).map NodeId.toInt =
      c.parents.map (numberOf (commits.map (·.id)) slots'.commits.toList) := by
  obtain ⟨hrepeated, _⟩ := eq_of_load hload
  have hnames := Graph.parents_of_load hslots hload hc
  rw [← List.forall₂_eq_eq_eq, List.forall₂_map_left_iff, List.forall₂_map_right_iff]
  exact hnames.flip.imp fun _ _ hx =>
    Named.toInt_eq (nodup_of_firstRepeated hrepeated) (numbered_of_load hslots hload) hx

/-! ## edges -/

/-- All mentions of parents, node by node. -/
theorem flatten_parents (h : History) :
    h.parents.toList.flatten = (List.range h.size).flatMap h.parentsOf := by
  have hlines : h.parents.toList = (List.range h.size).map h.parentsOf := by
    refine List.ext_getElem (by simp [size]) fun n hn _ => ?_
    simp [parentsOf, show n < h.parents.size by simpa using hn]
  rw [hlines, List.flatMap_def]

theorem edgeCount_eq_length (h : History) :
    h.edgeCount = ((List.range h.size).flatMap h.parentsOf).length := by
  rw [edgeCount, ← flatten_parents, List.length_flatten, ← Array.foldl_toList,
    ← List.foldl_map (f := List.length) (g := (· + ·)), List.sum_eq_foldl]

theorem edgeCount_of_load (hslots : slots.Numbered)
    (hload : load commits slots = .ok (h, slots')) :
    h.edgeCount = (commits.map (·.parents.length)).sum := by
  have hlengths : (List.range h.size).map (fun n => (h.parentsOf n).length) =
      commits.map (·.parents.length) := by
    refine List.ext_getElem (by simp [(tabulates_of_load hload).size_eq]) fun n _ hn => ?_
    rw [List.length_map] at hn
    have hc := List.getElem?_eq_getElem hn
    simpa using congrArg List.length (map_toInt_parentsOf hslots hload hc)
  rw [edgeCount_eq_length, List.length_flatMap, hlengths]

end History

end Lineage
