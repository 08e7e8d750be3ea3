import Mathlib.Data.List.Permutation
import Lineage.History.Load
import Lineage.Proofs.Ready

/-!
# Lineage.Proofs.Loading

The parent and child lists of a history that loads.  They do not depend on the
order of its nodes, so they are described before one is known.

* `Tabulates.loadedParents_eq` — the loaded parents of a node are the listed
  ones among the parents of its commit, in order and with repetitions.
* `Tabulates.linked` — the child lists mirror the parent lists.
* `tabulates_of_load` — a history that loads has these lists.
-/

namespace Lineage

/-! ## loaded nodes -/

@[simp] theorem loadedNodes_nil : loadedNodes [] = [] := rfl

@[simp] theorem loadedNodes_loaded (p : Nat) (ids : List NodeId) :
    loadedNodes (.loaded p :: ids) = p :: loadedNodes ids := rfl

@[simp] theorem loadedNodes_none (ids : List NodeId) :
    loadedNodes (.none :: ids) = loadedNodes ids := rfl

@[simp] theorem loadedNodes_missing (m : Nat) (ids : List NodeId) :
    loadedNodes (.missing m :: ids) = loadedNodes ids := rfl

theorem loadedNodes_append (ids ids' : List NodeId) :
    loadedNodes (ids ++ ids') = loadedNodes ids ++ loadedNodes ids' :=
  List.filterMap_append

theorem mem_loadedNodes {ids : List NodeId} {n : Nat} :
    n ∈ loadedNodes ids ↔ .loaded n ∈ ids := by
  induction ids with
  | nil => simp [loadedNodes]
  | cons id ids ih => cases id <;> simp [ih]

theorem count_loadedNodes (ids : List NodeId) (n : Nat) :
    (loadedNodes ids).count n = ids.count (.loaded n) := by
  induction ids with
  | nil => rfl
  | cons id ids ih =>
      cases id with
      | loaded p => simp [List.count_cons, ih]
      | none => simp [ih]
      | missing m => simp [ih]

namespace History

/-- The children of a loaded node. -/
def loadedChildren (h : History) (node : Nat) : List Nat := h.childrenOf (.loaded node)

/-- Whether the second node is a parent of the first one, both loaded. -/
def IsParent (h : History) (u v : Nat) : Prop := v ∈ h.loadedParents u

theorem mem_loadedParents {h : History} {n p : Nat} :
    p ∈ h.loadedParents n ↔ .loaded p ∈ h.parentsOf n :=
  mem_loadedNodes

variable {α : Type} [BEq α] [Hashable α]

/-! ## inversion -/

/-- A list that loads has neither a repeated id nor a commit that is its own
parent, and its order was found. -/
theorem eq_of_load {commits : List (Commit α)} {slots slots' : Placeholders α} {h : History}
    (hload : load commits slots = .ok (h, slots')) :
    firstRepeated ∅ (commits.map (·.id)) = none ∧ firstOwnParent commits = none ∧
      slots' = (resolveCommits (indexOf commits) slots commits).2 ∧
      h.parents = (resolveCommits (indexOf commits) slots commits).1.toArray ∧
      h.children = gather commits.length (loadedMentions h.parents.toList) ∧
      h.missingChildren = gather slots'.size (missingMentions h.parents.toList) ∧
      orderOf? h.parents h.children = some h.order := by
  simp only [load] at hload
  split at hload
  · contradiction
  · next hrepeated =>
      split at hload
      · contradiction
      · next hown =>
          split at hload
          · contradiction
          · next order horder =>
              obtain ⟨rfl, rfl⟩ := Prod.mk.inj (Except.ok.inj hload)
              exact ⟨hrepeated, hown, rfl, rfl, rfl, rfl, horder⟩

section Lookup

variable [EquivBEq α] [LawfulHashable α]

/-! ## repeated values -/

/-- No value repeats where none was seen before and no two are equal. -/
theorem firstRepeated_eq_none_iff {seen : Std.HashSet α} {ids : List α} :
    firstRepeated seen ids = none ↔
      ids.Pairwise (fun a b => ¬ a == b) ∧ ∀ a ∈ ids, a ∉ seen := by
  induction ids generalizing seen with
  | nil => simp [firstRepeated]
  | cons id ids ih =>
      rw [firstRepeated]
      by_cases hseen : id ∈ seen
      · simp [hseen]
      · simp only [Std.HashSet.contains_iff_mem, hseen, if_false, ih, Std.HashSet.mem_insert,
          not_or, forall_and, List.pairwise_cons, List.forall_mem_cons, not_false_eq_true,
          true_and]
        tauto

/-- The index knows the ids of the list. -/
theorem mem_indexOf {commits : List (Commit α)} {id : α} :
    id ∈ indexOf commits ↔ ∃ c ∈ commits, c.id == id := by
  have hfold : ∀ (cs : List (Commit α)) (k : Nat) (index : Std.HashMap α Nat),
      id ∈ (cs.zipIdx k).foldl (fun index p => index.insert p.1.id p.2) index ↔
        (∃ c ∈ cs, c.id == id) ∨ id ∈ index := by
    intro cs
    induction cs with
    | nil => simp
    | cons c cs ih =>
        intro k index
        rw [List.zipIdx_cons, List.foldl_cons, ih, Std.HashMap.mem_insert,
          List.exists_mem_cons_iff, or_left_comm, or_assoc]
  simpa [indexOf] using hfold commits 0 ∅

/-- Every entry of the index is the position of a commit with that id. -/
theorem exists_of_getElem?_indexOf {commits : List (Commit α)} {id : α} {n : Nat}
    (hn : (indexOf commits)[id]? = some n) : ∃ c, commits[n]? = some c ∧ c.id == id := by
  have hfold : ∀ (cs : List (Commit α)) (k : Nat) (index : Std.HashMap α Nat),
      ((cs.zipIdx k).foldl (fun index p => index.insert p.1.id p.2) index)[id]? = some n →
      index[id]? = some n ∨ ∃ c, k ≤ n ∧ cs[n - k]? = some c ∧ c.id == id := by
    intro cs
    induction cs with
    | nil => intro k index h; exact Or.inl h
    | cons c cs ih =>
        intro k index h
        rw [List.zipIdx_cons, List.foldl_cons] at h
        rcases ih (k + 1) _ h with h | ⟨d, hk, hd, hid⟩
        · rw [Std.HashMap.getElem?_insert] at h
          by_cases hc : c.id == id
          · rw [if_pos hc] at h
            obtain rfl := Option.some.inj h
            exact Or.inr ⟨c, Nat.le_refl k, by simp, hc⟩
          · rw [if_neg hc] at h
            exact Or.inl h
        · refine Or.inr ⟨d, by omega, ?_, hid⟩
          have hsub : n - k = n - (k + 1) + 1 := by omega
          rw [hsub, List.getElem?_cons_succ]
          exact hd
  rcases hfold commits 0 ∅ hn with h | ⟨c, _, hc, hid⟩
  · simp at h
  · exact ⟨c, hc, hid⟩

end Lookup

theorem loadedNodes_resolveAll (index : Std.HashMap α Nat) (slots : Placeholders α) (ps : List α) :
    loadedNodes (resolveAll index slots ps).1 = ps.filterMap (index[·]?) := by
  induction ps generalizing slots with
  | nil => rfl
  | cons p ps ih =>
      simp only [resolveAll, resolve]
      cases hp : index[p]? with
      | none =>
          rw [List.filterMap_cons_none hp, ← ih (slots.slotFor p).2]
          rfl
      | some n =>
          rw [List.filterMap_cons_some hp, ← ih slots]
          rfl

theorem length_resolveCommits (index : Std.HashMap α Nat) (slots : Placeholders α)
    (cs : List (Commit α)) : (resolveCommits index slots cs).1.length = cs.length := by
  induction cs generalizing slots with
  | nil => rfl
  | cons c cs ih => simp [resolveCommits, ih]

/-- The loaded parents in the table of parents are those of the commits that are
listed. -/
theorem map_loadedNodes_resolveCommits (index : Std.HashMap α Nat) (slots : Placeholders α)
    (cs : List (Commit α)) : (resolveCommits index slots cs).1.map loadedNodes =
      cs.map fun c => c.parents.filterMap (index[·]?) := by
  induction cs generalizing slots with
  | nil => rfl
  | cons c cs ih => simp [resolveCommits, loadedNodes_resolveAll, ih]

/-- The loaded parents in each line of the table of parents. -/
theorem loadedNodes_resolveCommits (index : Std.HashMap α Nat) (slots : Placeholders α)
    (cs : List (Commit α)) (n : Nat) :
    loadedNodes ((resolveCommits index slots cs).1.getD n []) =
      match cs[n]? with
      | some c => c.parents.filterMap (index[·]?)
      | none => [] := by
  have hline := congrArg (·[n]?) (map_loadedNodes_resolveCommits index slots cs)
  simp only [List.getElem?_map] at hline
  rw [List.getD_eq_getElem?_getD]
  cases hc : cs[n]? with
  | none =>
      rw [hc, Option.map_none, Option.map_eq_none_iff] at hline
      rw [hline]
      rfl
  | some c =>
      rw [hc, Option.map_some, Option.map_eq_some_iff] at hline
      obtain ⟨ids, hids, hnodes⟩ := hline
      rw [hids]
      exact hnodes

/-- A history with the parent and child lists of a commit list, whatever its
order. -/
structure Tabulates (h : History) (commits : List (Commit α)) (slots : Placeholders α) :
    Prop where
  parents_eq : h.parents = (resolveCommits (indexOf commits) slots commits).1.toArray
  children_eq : h.children = gather commits.length (loadedMentions h.parents.toList)

variable {commits : List (Commit α)} {slots slots' : Placeholders α} {h : History}

theorem tabulates_of_load (hload : load commits slots = .ok (h, slots')) :
    h.Tabulates commits slots := by
  obtain ⟨_, _, _, hparents, hchildren, _⟩ := eq_of_load hload
  exact ⟨hparents, hchildren⟩

namespace Tabulates

theorem size_eq (ht : h.Tabulates commits slots) : h.size = commits.length := by
  simp [size, ht.parents_eq, length_resolveCommits]

/-- The loaded parents of a node are the listed ones among the parents of its
commit. -/
theorem loadedParents_eq (ht : h.Tabulates commits slots) (n : Nat) :
    h.loadedParents n = match commits[n]? with
      | some c => c.parents.filterMap ((indexOf commits)[·]?)
      | none => [] := by
  have hline := loadedNodes_resolveCommits (indexOf commits) slots commits n
  simpa [loadedParents, parentsOf, ht.parents_eq] using hline

end Tabulates

/-! ## children -/

/-- The pairs of parent and child, line by line. -/
theorem loadedMentions_eq_flatMap (parents : List (List NodeId)) : loadedMentions parents =
    parents.zipIdx.flatMap fun line => (loadedNodes line.1).map (·, line.2) := by
  simp only [loadedMentions, mentions, List.filterMap_flatMap, loadedNodes, List.filterMap_map,
    List.map_filterMap]
  rfl

/-- A parent and a child are paired as often as the child mentions the
parent. -/
theorem count_loadedMentions (parents : List (List NodeId)) (p c : Nat) :
    (loadedMentions parents).count (p, c) = (loadedNodes (parents.getD c [])).count p := by
  rw [loadedMentions_eq_flatMap, count_flatMap_zipIdx _ _ Prod.snd (by simp)]
  cases hline : parents[c]? with
  | none => simp [hline, loadedNodes]
  | some ps =>
      have hinj : Function.Injective fun q : Nat => (q, c) := fun _ _ heq => (Prod.mk.inj heq).1
      simp only [hline, List.getD_eq_getElem?_getD, Option.getD_some]
      exact List.count_map_of_injective _ _ hinj p

section Order

variable [EquivBEq α] [LawfulHashable α]

namespace Tabulates

theorem mem_loadedParents (ht : h.Tabulates commits slots) {n p : Nat}
    (hp : p ∈ h.loadedParents n) : ∃ c d, commits[n]? = some c ∧ commits[p]? = some d ∧
      ∃ id ∈ c.parents, d.id == id := by
  rw [ht.loadedParents_eq] at hp
  split at hp
  · next c hc =>
      obtain ⟨id, hid, hindex⟩ := List.mem_filterMap.mp hp
      obtain ⟨d, hd, hdid⟩ := exists_of_getElem?_indexOf hindex
      exact ⟨c, d, hc, hd, id, hid, hdid⟩
  · simp at hp

/-- The child lists mirror the parent lists. -/
theorem linked (ht : h.Tabulates commits slots) :
    Linked h.size h.loadedParents h.loadedChildren := by
  have hsize := ht.size_eq
  have hparent : ∀ {c p}, p ∈ h.loadedParents c → c < h.size ∧ p < h.size := by
    intro c p hp
    obtain ⟨_, _, hc, hd, _⟩ := ht.mem_loadedParents hp
    rw [hsize]
    exact ⟨(List.getElem?_eq_some_iff.mp hc).1, (List.getElem?_eq_some_iff.mp hd).1⟩
  refine ⟨fun p c => ?_, fun hp => (hparent hp).2, fun hp => (hparent hp).1⟩
  simp only [loadedChildren, childrenOf, ht.children_eq]
  rcases Nat.lt_or_ge p commits.length with hp | hp
  · rw [count_gather_getD _ hp, count_loadedMentions]
    simp [loadedParents, parentsOf]
  · rw [gather_getD_of_le _ hp]
    refine (List.count_eq_zero_of_not_mem fun hmem => ?_).symm
    have := (hparent hmem).2
    omega

/-- Where no commit lists itself, no node is its own parent. -/
theorem ne_of_mem_loadedParents (ht : h.Tabulates commits slots)
    (hown : firstOwnParent commits = none) {n p : Nat} (hp : p ∈ h.loadedParents n) : n ≠ p := by
  rintro rfl
  obtain ⟨c, d, hc, hd, id, hid, hdid⟩ := ht.mem_loadedParents hp
  obtain rfl : c = d := Option.some.inj (hc.symm.trans hd)
  have hnot := List.find?_eq_none.mp hown c (List.mem_of_getElem? hc)
  exact hnot (List.contains_iff_exists_mem_beq.mpr ⟨id, hid, hdid⟩)

end Tabulates

/-- The child lists of a history that loads mirror its parent lists. -/
theorem linked_of_load (hload : load commits slots = .ok (h, slots')) :
    Linked h.size h.loadedParents h.loadedChildren :=
  (tabulates_of_load hload).linked

/-- No commit of a list that loads is its own parent. -/
theorem ne_of_mem_loadedParents (hload : load commits slots = .ok (h, slots')) {n p : Nat}
    (hp : p ∈ h.loadedParents n) : n ≠ p := by
  obtain ⟨_, hown, _⟩ := eq_of_load hload
  exact (tabulates_of_load hload).ne_of_mem_loadedParents hown hp

end Order

/-! ## a small history -/

/-- A merge listed after one of its parents, which has a side parent and one
that is not listed. -/
def mergeCommits : List (Commit String) :=
  [⟨"base", [], 1⟩, ⟨"merge", ["side", "base", "gone"], 3⟩, ⟨"side", ["base"], 2⟩]

/-- The history of the merge. -/
def mergeHistory : History where
  parents := #[[], [.loaded 2, .loaded 0, .missing 0], [.loaded 0]]
  children := #[[1, 2], [], [1]]
  missingChildren := #[[1]]
  order := .ofList [1, 2, 0]

theorem load_mergeHistory : ∃ slots, load mergeCommits .empty = .ok (mergeHistory, slots) := by
  refine ⟨⟨#["gone"], Std.HashMap.emptyWithCapacity.insert "gone" 0⟩, ?_⟩
  cbv

theorem load_mergeCommits : ∃ h slots, load mergeCommits .empty = .ok (h, slots) :=
  ⟨mergeHistory, load_mergeHistory⟩

end History

end Lineage
