import Mathlib.Logic.Relation
import Lineage.Ancestry
import Lineage.Proofs.ChildrenFirst
import Lineage.Proofs.Table

/-!
# Lineage.Proofs.Ancestry

A walk visits what can be reached from where it starts.  A level only holds
nodes that were free, and a node stops being free when it joins a level; so
at the end the neighbours of every visited node are visited.

* `History.closed_levels`, `History.mem_levels` — the two inclusions.
* `History.mem_walk`, `History.nodup_walk` — what a walk visits, in either
  direction, each node once.
* `History.mem_reachableFrom` — the history of some heads is the heads and
  their ancestors.
-/

namespace Lineage

/-! ## free nodes -/

theorem takeFree_spec (marks : Marks) (ns : List Nat) (n : Nat) :
    (n ∈ (takeFree marks ns).1 ↔ n ∈ ns ∧ marks.has n = false) ∧
      ((takeFree marks ns).2.has n = true ↔ marks.has n = true ∨ n ∈ (takeFree marks ns).1) := by
  induction ns generalizing marks with
  | nil => simp [takeFree]
  | cons m ms ih =>
      rw [takeFree]
      split
      · next hm =>
          rw [(ih marks).1, (ih marks).2]
          refine ⟨?_, by rw [(ih marks).1]⟩
          rw [List.mem_cons, or_and_right]
          refine (or_iff_right ?_).symm
          rintro ⟨rfl, hfree⟩
          simp [hm] at hfree
      · next hm =>
          obtain ⟨htaken, hmarks⟩ := ih (marks.mark m)
          rw [Bool.not_eq_true] at hm
          have hfree : (marks.mark m).has n = false ↔ n ≠ m ∧ marks.has n = false := by
            rw [← Bool.not_eq_true, Marks.has_mark, not_or, Bool.not_eq_true]
          simp only [List.mem_cons, htaken, hfree, hmarks, Marks.has_mark]
          constructor
          · by_cases hnm : n = m
            · subst hnm
              simp [hm]
            · simp [hnm]
          · exact or_assoc.trans or_left_comm

theorem mem_takeFree {marks : Marks} {ns : List Nat} {n : Nat} :
    n ∈ (takeFree marks ns).1 ↔ n ∈ ns ∧ marks.has n = false :=
  (takeFree_spec marks ns n).1

theorem has_takeFree {marks : Marks} {ns : List Nat} {n : Nat} :
    (takeFree marks ns).2.has n = true ↔ marks.has n = true ∨ n ∈ (takeFree marks ns).1 :=
  (takeFree_spec marks ns n).2

theorem nodup_takeFree (marks : Marks) (ns : List Nat) : (takeFree marks ns).1.Nodup := by
  induction ns generalizing marks with
  | nil => exact List.nodup_nil
  | cons n ns ih =>
      rw [takeFree]
      split
      · exact ih marks
      · refine List.nodup_cons.mpr ⟨fun hn => ?_, ih (marks.mark n)⟩
        have hfree := (mem_takeFree.mp hn).2
        rw [← Bool.not_eq_true, Marks.has_mark] at hfree
        exact hfree (Or.inl rfl)

namespace History

/-! ## walks -/

variable {next : Nat → List Nat} {marks : Marks} {level : List Nat} {x y : Nat}

theorem level_subset_levels (next : Nat → List Nat) (marks : Marks) (level : List Nat) :
    level ⊆ levels next marks level := by
  rw [levels]
  split
  · exact fun _ hx => hx
  · exact List.subset_append_left _ _

/-- A walk stays among what can be reached. -/
theorem mem_levels (hx : x ∈ levels next marks level) :
    ∃ l ∈ level, Relation.ReflTransGen (fun a b => b ∈ next a) l x := by
  fun_induction levels next marks level with
  | case1 marks level marks' htaken => exact ⟨x, hx, .refl⟩
  | case2 marks level n ns marks' htaken ih =>
      rcases List.mem_append.mp hx with hx | hx
      · exact ⟨x, hx, .refl⟩
      · obtain ⟨m, hm, hpath⟩ := ih hx
        have hm : m ∈ (takeFree marks (level.flatMap next)).1 := by rwa [htaken]
        obtain ⟨l, hl, hlm⟩ := List.mem_flatMap.mp (mem_takeFree.mp hm).1
        exact ⟨l, hl, .head hlm hpath⟩

/-- A walk leaves out no neighbour that was free. -/
theorem closed_levels (hx : x ∈ levels next marks level) (hy : y ∈ next x) :
    y ∈ levels next marks level ∨ marks.has y = true := by
  fun_induction levels next marks level with
  | case1 marks level marks' htaken =>
      have hmem := (takeFree_spec marks (level.flatMap next) y).1
      rw [htaken] at hmem
      refine Or.inr (Bool.of_not_eq_false fun hfree => ?_)
      exact absurd (hmem.mpr ⟨List.mem_flatMap.mpr ⟨x, hx, hy⟩, hfree⟩) List.not_mem_nil
  | case2 marks level n ns marks' htaken ih =>
      have hsub := level_subset_levels next marks' (n :: ns)
      obtain ⟨hmem, hhas⟩ := takeFree_spec marks (level.flatMap next) y
      rw [htaken] at hmem hhas
      rcases List.mem_append.mp hx with hx | hx
      · by_cases hfree : marks.has y = false
        · have htaken := hmem.mpr ⟨List.mem_flatMap.mpr ⟨x, hx, hy⟩, hfree⟩
          exact Or.inl (List.mem_append_right _ (hsub htaken))
        · exact Or.inr (Bool.of_not_eq_false hfree)
      · rcases ih hx with hin | hmarked
        · exact Or.inl (List.mem_append_right _ hin)
        · rcases hhas.mp hmarked with hmarked | htaken
          · exact Or.inr hmarked
          · exact Or.inl (List.mem_append_right _ (hsub htaken))

/-- Below its first level a walk only visits nodes that were free. -/
theorem mem_level_or_free (hx : x ∈ levels next marks level) :
    x ∈ level ∨ marks.has x = false := by
  fun_induction levels next marks level with
  | case1 marks level marks' htaken => exact Or.inl hx
  | case2 marks level n ns marks' htaken ih =>
      obtain ⟨hmem, hhas⟩ := takeFree_spec marks (level.flatMap next) x
      rw [htaken] at hmem hhas
      rcases List.mem_append.mp hx with hx | hx
      · exact Or.inl hx
      · refine Or.inr ?_
        rcases ih hx with hx | hfree
        · exact (hmem.mp hx).2
        · rw [← Bool.not_eq_true] at hfree ⊢
          exact fun hmarked => hfree (hhas.mpr (Or.inl hmarked))

/-- A walk whose first level is marked visits no node twice. -/
theorem nodup_levels (hlevel : level.Nodup) (hmarked : ∀ n ∈ level, marks.has n = true) :
    (levels next marks level).Nodup := by
  fun_induction levels next marks level with
  | case1 marks level marks' htaken => exact hlevel
  | case2 marks level n ns marks' htaken ih =>
      have hnodup := nodup_takeFree marks (level.flatMap next)
      have hspec := takeFree_spec marks (level.flatMap next)
      rw [htaken] at hnodup hspec
      have hnew : ∀ x ∈ n :: ns, marks'.has x = true := fun x hx => (hspec x).2.mpr (Or.inr hx)
      refine List.nodup_append.mpr ⟨hlevel, ih hnodup hnew, fun x hx y hy => ?_⟩
      rintro rfl
      rcases mem_level_or_free hy with hy | hfree
      · have hfree := ((hspec x).1.mp hy).2
        simp [hmarked x hx] at hfree
      · have hstill := (hspec x).2.mpr (Or.inl (hmarked x hx))
        simp [hstill] at hfree

/-- A walk toward parents starts at the loaded nodes it is given. -/
theorem mem_starts_down {h : History} {heads : List NodeId} {m : Nat} :
    m ∈ heads.flatMap (h.startsOf .down) ↔ .loaded m ∈ heads ∧ m < h.size := by
  rw [List.mem_flatMap]
  constructor
  · rintro ⟨id, hid, hm⟩
    cases id with
    | loaded k =>
        by_cases hk : k < h.size
        · rw [startsOf, if_pos (by simpa [isLoaded] using hk), mem_loadedNodes,
            List.mem_singleton] at hm
          obtain rfl := NodeId.loaded.inj hm
          exact ⟨hid, hk⟩
        · rw [startsOf, if_neg (by simpa [isLoaded] using hk), if_neg (by simp)] at hm
          exact absurd hm List.not_mem_nil
    | none => simp [startsOf, isLoaded] at hm
    | missing s => simp [startsOf, isLoaded] at hm
  · rintro ⟨hmem, hm⟩
    refine ⟨_, hmem, ?_⟩
    rw [startsOf, if_pos (by simpa [isLoaded] using hm), mem_loadedNodes]
    exact List.mem_singleton_self _

/-- The neighbours of a node are nodes of the history. -/
theorem Sound.next_lt {h : History} (hs : h.Sound) {direction : Direction} {m n : Nat}
    (hn : n ∈ h.next direction m) : n < h.size := by
  cases direction with
  | down => exact hs.linked.parent_lt hn
  | up => exact hs.linked.child_lt (hs.linked.mem_children.mp hn)

/-- What a walk visits: the nodes it starts at, and whatever is reached from
them in its direction. -/
theorem mem_walk {h : History} (hs : h.Sound) {starts : List NodeId} {direction : Direction}
    {n : Nat} : n ∈ h.walk starts direction ↔
      ∃ m ∈ starts.flatMap (h.startsOf direction), m < h.size ∧
        Relation.ReflTransGen (fun a b => b ∈ h.next direction a) m n := by
  have hfree : ∀ {m}, (Marks.blank h.size).has m = false ↔ m < h.size := by
    intro m
    rw [← Bool.not_eq_true, Marks.has_blank, Nat.not_le]
  simp only [walk]
  constructor
  · intro hn
    obtain ⟨m, hm, hpath⟩ := mem_levels hn
    obtain ⟨hstart, hlt⟩ := mem_takeFree.mp hm
    exact ⟨m, hstart, hfree.mp hlt, hpath⟩
  · rintro ⟨m, hstart, hlt, hpath⟩
    have hfirst := mem_takeFree.mpr ⟨hstart, hfree.mpr hlt⟩
    induction hpath with
    | refl => exact level_subset_levels _ _ _ hfirst
    | tail _ hstep ih =>
        refine (closed_levels ih hstep).elim id fun hmarked => ?_
        -- a marked node is of the first level, or no node at all
        rcases has_takeFree.mp hmarked with hbeyond | hlevel
        · have hnode := hs.next_lt hstep
          rw [Marks.has_blank] at hbeyond
          omega
        · exact level_subset_levels _ _ _ hlevel

/-- A walk visits no node twice. -/
theorem nodup_walk (h : History) (starts : List NodeId) (direction : Direction) :
    (h.walk starts direction).Nodup :=
  nodup_levels (nodup_takeFree _ _) fun _ hn => has_takeFree.mpr (Or.inr hn)

/-- What a walk toward parents visits: the loaded nodes it starts at, and
their ancestors. -/
theorem mem_reachableFrom {h : History} (hs : h.Sound) (heads : List NodeId) (n : Nat) :
    n ∈ h.reachableFrom heads ↔ ∃ m, .loaded m ∈ heads ∧ m < h.size ∧
      Relation.ReflTransGen h.IsParent m n := by
  rw [reachableFrom, mem_walk hs]
  constructor
  · rintro ⟨m, hstart, hlt, hpath⟩
    exact ⟨m, (mem_starts_down.mp hstart).1, hlt, hpath⟩
  · rintro ⟨m, hmem, hlt, hpath⟩
    exact ⟨m, mem_starts_down.mpr ⟨hmem, hlt⟩, hlt, hpath⟩

theorem lt_size_of_mem_reachableFrom {h : History} (hs : h.Sound) {heads : List NodeId} {n : Nat}
    (hn : n ∈ h.reachableFrom heads) : n < h.size := by
  obtain ⟨m, _, hm, hpath⟩ := (mem_reachableFrom hs heads n).mp hn
  cases hpath.cases_tail with
  | inl heq => rwa [heq]
  | inr hlast =>
      obtain ⟨_, _, hlink⟩ := hlast
      exact hs.linked.parent_lt hlink

/-- The history of some heads holds the parents of its nodes. -/
theorem mem_reachableFrom_of_parent {h : History} (hs : h.Sound) {heads : List NodeId} {u v : Nat}
    (hu : u ∈ h.reachableFrom heads) (hv : h.IsParent u v) : v ∈ h.reachableFrom heads := by
  rw [mem_reachableFrom hs] at hu ⊢
  obtain ⟨m, hmem, hlt, hpath⟩ := hu
  exact ⟨m, hmem, hlt, hpath.tail hv⟩

end History

end Lineage
