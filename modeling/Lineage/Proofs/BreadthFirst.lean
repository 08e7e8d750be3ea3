import Mathlib.Order.Bounds.Defs
import Mathlib.Order.Nat
import Lineage.Proofs.Containment

/-!
# Lineage.Proofs.BreadthFirst

Walks go level by level.  A level holds the nodes at one distance from where the
walk begins, and the marks stand on all nodes up to that distance; so the free
neighbours of a level are the nodes one step further away.

* `History.walk_eq_drain` — the levels are what a queue lets through.
* `Reaches`, `IsDistance` — numbers of steps, and the least one.
* `AtDistance.step` — the next level.
* `History.breadthFirst_walk` — the walks of every history that loads.
-/

namespace Lineage

open Relation (ReflTransGen)

/-! ## a queue -/

theorem takeFree_append (marks : Marks) (ms ns : List Nat) :
    takeFree marks (ms ++ ns) =
      ((takeFree marks ms).1 ++ (takeFree (takeFree marks ms).2 ns).1,
        (takeFree (takeFree marks ms).2 ns).2) := by
  induction ms generalizing marks with
  | nil => rfl
  | cons m ms ih =>
      by_cases hm : marks.has m = true
      · simp [takeFree, hm, ih]
      · simp [takeFree, hm, ih]

namespace History

/-- The nodes that leave a queue.  When one does, those of its neighbours that
are free join the queue at its end. -/
def drain (next : Nat → List Nat) (marks : Marks) (queue : List Nat) : List Nat :=
  match queue with
  | [] => []
  | node :: queue =>
    node :: drain next (takeFree marks (next node)).2 (queue ++ (takeFree marks (next node)).1)
termination_by 2 * marks.free + queue.length
decreasing_by
  have := free_takeFree marks (next node)
  simp only [List.length_append, List.length_cons]
  omega

/-- By the time a level has left the queue, the next one stands at its end. -/
theorem drain_append (next : Nat → List Nat) (marks : Marks) (level later : List Nat) :
    drain next marks (level ++ later) =
      level ++ drain next (takeFree marks (level.flatMap next)).2
        (later ++ (takeFree marks (level.flatMap next)).1) := by
  induction level generalizing marks later with
  | nil => simp [takeFree]
  | cons node level ih =>
      rw [List.cons_append, drain, List.append_assoc, ih, List.flatMap_cons, takeFree_append,
        List.append_assoc, List.cons_append]

theorem levels_eq_drain (next : Nat → List Nat) (marks : Marks) (level : List Nat) :
    levels next marks level = drain next marks level := by
  fun_induction levels next marks level with
  | case1 marks level marks' htaken =>
      have hlevel := drain_append next marks level []
      rw [htaken] at hlevel
      simpa [drain] using hlevel.symm
  | case2 marks level m ms marks' htaken ih =>
      have hlevel := drain_append next marks level []
      rw [htaken] at hlevel
      rw [ih]
      simpa using hlevel.symm

/-- A walk lets its nodes through a queue. -/
theorem walk_eq_drain (h : History) (starts : List NodeId) (direction : Direction) :
    h.walk starts direction = drain (h.next direction)
      (takeFree (.blank h.size) (starts.flatMap (h.startsOf direction))).2
      (takeFree (.blank h.size) (starts.flatMap (h.startsOf direction))).1 :=
  levels_eq_drain _ _ _

end History

/-! ## distances -/

/-- A node is reached in `k` steps from one where the walk begins. -/
inductive Reaches (begins : Nat → Prop) (step : Nat → Nat → Prop) : Nat → Nat → Prop where
  | start {n : Nat} : begins n → Reaches begins step 0 n
  | next {k m n : Nat} : Reaches begins step k m → step m n → Reaches begins step (k + 1) n

/-- The least number of steps in which a node is reached. -/
def IsDistance (begins : Nat → Prop) (step : Nat → Nat → Prop) (n d : Nat) : Prop :=
  IsLeast {k | Reaches begins step k n} d

/-- The first node is no further away than the second one. -/
def NoFarther (begins : Nat → Prop) (step : Nat → Nat → Prop) (m n : Nat) : Prop :=
  ∃ i j, IsDistance begins step m i ∧ IsDistance begins step n j ∧ i ≤ j

section Distance

variable {begins : Nat → Prop} {step : Nat → Nat → Prop} {m n d : Nat}

theorem reaches_zero_iff : Reaches begins step 0 n ↔ begins n := by
  constructor
  · intro hn
    cases hn with
    | start hbegins => exact hbegins
  · exact .start

theorem isDistance_zero_iff : IsDistance begins step n 0 ↔ begins n := by
  constructor
  · exact fun hn => reaches_zero_iff.mp hn.1
  · exact fun hn => ⟨.start hn, fun k _ => Nat.zero_le k⟩

/-- A node is at the next distance if a step leads to it from a node at this one
and it is not reached in fewer steps. -/
theorem isDistance_succ_iff : IsDistance begins step n (d + 1) ↔
    (∃ m, IsDistance begins step m d ∧ step m n) ∧ ∀ k ≤ d, ¬ Reaches begins step k n := by
  constructor
  · intro hn
    obtain ⟨hreach, hleast⟩ := hn
    have hfar : ∀ k ≤ d, ¬ Reaches begins step k n := by
      intro k hk hreach
      have hle := hleast hreach
      omega
    refine ⟨?_, hfar⟩
    cases hreach with
    | @next _ m _ hm hstep =>
        refine ⟨m, ⟨hm, fun k hk => ?_⟩, hstep⟩
        have hle := hleast (Reaches.next hk hstep)
        omega
  · intro hn
    obtain ⟨⟨m, hm, hstep⟩, hfar⟩ := hn
    refine ⟨.next hm.1 hstep, fun k hk => ?_⟩
    by_contra hlt
    exact hfar k (by omega) hk

/-- One step more reaches the nodes at the next distance. -/
theorem exists_reaches_succ_iff : (∃ k ≤ d + 1, Reaches begins step k n) ↔
    (∃ k ≤ d, Reaches begins step k n) ∨ IsDistance begins step n (d + 1) := by
  constructor
  · intro hn
    obtain ⟨k, hk, hreach⟩ := hn
    by_cases hnear : ∃ j ≤ d, Reaches begins step j n
    · exact Or.inl hnear
    · -- nothing shorter leads there, so `k` is the least number of steps
      push Not at hnear
      have hlast : k = d + 1 := by
        by_contra hne
        exact hnear k (by omega) hreach
      subst hlast
      refine Or.inr ⟨hreach, fun j hj => ?_⟩
      by_contra hlt
      exact hnear j (by omega) hj
  · intro hn
    cases hn with
    | inl hnear =>
        obtain ⟨k, hk, hreach⟩ := hnear
        exact ⟨k, by omega, hreach⟩
    | inr hfar => exact ⟨d + 1, Nat.le_refl _, hfar.1⟩

end Distance

/-! ## levels -/

/-- What holds when a walk has come to a level: the level holds the nodes at
distance `d`, and whatever is no further away is marked, as is what is no node
at all. -/
structure AtDistance (size : Nat) (begins : Nat → Prop) (next : Nat → List Nat) (d : Nat)
    (marks : Marks) (level : List Nat) : Prop where
  mem_iff : ∀ {n}, n ∈ level ↔ IsDistance begins (fun a b => b ∈ next a) n d
  has_iff : ∀ {n}, marks.has n = true ↔
    size ≤ n ∨ ∃ k ≤ d, Reaches begins (fun a b => b ∈ next a) k n

namespace AtDistance

variable {size d : Nat} {begins : Nat → Prop} {next : Nat → List Nat} {marks : Marks}
  {level starts : List Nat}

/-- A walk begins with the free ones among its starts. -/
theorem start (next : Nat → List Nat) (hbegins : ∀ {n}, begins n ↔ n ∈ starts ∧ n < size) :
    AtDistance size begins next 0 (takeFree (.blank size) starts).2
      (takeFree (.blank size) starts).1 := by
  have hmem : ∀ {n}, n ∈ (takeFree (.blank size) starts).1 ↔ begins n := by
    intro n
    rw [mem_takeFree, hbegins, ← Bool.not_eq_true, Marks.has_blank, Nat.not_le]
  constructor
  · intro n
    rw [hmem, isDistance_zero_iff]
  · intro n
    rw [has_takeFree, Marks.has_blank, hmem]
    simp [reaches_zero_iff]

/-- The free neighbours of a level are the nodes one step further away. -/
theorem step (hnext : ∀ {m n}, n ∈ next m → n < size)
    (ha : AtDistance size begins next d marks level) :
    AtDistance size begins next (d + 1) (takeFree marks (level.flatMap next)).2
      (takeFree marks (level.flatMap next)).1 := by
  have hmem : ∀ {n}, n ∈ (takeFree marks (level.flatMap next)).1 ↔
      IsDistance begins (fun a b => b ∈ next a) n (d + 1) := by
    intro n
    rw [mem_takeFree, List.mem_flatMap, isDistance_succ_iff, ← Bool.not_eq_true, ha.has_iff]
    simp only [ha.mem_iff, not_or, not_exists, not_and, Nat.not_le]
    constructor
    · intro hn
      exact ⟨hn.1, hn.2.2⟩
    · intro hn
      obtain ⟨⟨m, hm, hstep⟩, hfar⟩ := hn
      exact ⟨⟨m, hm, hstep⟩, hnext hstep, hfar⟩
  constructor
  · exact hmem
  · intro n
    rw [has_takeFree, ha.has_iff, hmem, exists_reaches_succ_iff, or_assoc]

/-- From a level on, a walk visits nodes at no smaller distance, the nearer ones
first. -/
theorem ordered (hnext : ∀ {m n}, n ∈ next m → n < size)
    (ha : AtDistance size begins next d marks level) :
    (History.levels next marks level).Pairwise (NoFarther begins fun a b => b ∈ next a) ∧
      ∀ n ∈ History.levels next marks level,
        ∃ j, IsDistance begins (fun a b => b ∈ next a) n j ∧ d ≤ j := by
  fun_induction History.levels next marks level generalizing d with
  | case1 marks level marks' htaken =>
      constructor
      · exact List.pairwise_of_forall_mem_list fun m hm n hn =>
          ⟨d, d, ha.mem_iff.mp hm, ha.mem_iff.mp hn, Nat.le_refl d⟩
      · intro n hn
        exact ⟨d, ha.mem_iff.mp hn, Nat.le_refl d⟩
  | case2 marks level m ms marks' htaken ih =>
      have hstep := ha.step hnext
      rw [htaken] at hstep
      obtain ⟨hpairs, hfar⟩ := ih hstep
      have hall : ∀ n ∈ level ++ History.levels next marks' (m :: ms),
          ∃ j, IsDistance begins (fun a b => b ∈ next a) n j ∧ d ≤ j := by
        intro n hn
        rw [List.mem_append] at hn
        cases hn with
        | inl hn => exact ⟨d, ha.mem_iff.mp hn, Nat.le_refl d⟩
        | inr hn =>
            obtain ⟨j, hj, hdj⟩ := hfar n hn
            exact ⟨j, hj, by omega⟩
      refine ⟨List.pairwise_append.mpr ⟨?_, hpairs, ?_⟩, hall⟩
      · exact List.pairwise_of_forall_mem_list fun a hma b hmb =>
          ⟨d, d, ha.mem_iff.mp hma, ha.mem_iff.mp hmb, Nat.le_refl d⟩
      · intro a hma b hmb
        obtain ⟨j, hj, hdj⟩ := hall b (List.mem_append_right level hmb)
        exact ⟨d, j, ha.mem_iff.mp hma, hj, hdj⟩

end AtDistance

namespace History

variable {h : History} {direction : Direction} {starts : List NodeId} {m n : Nat}

/-! ## walks -/

/-- The loaded nodes that a walk begins at: those among its starts and, toward
children, those with a parent among them that is not loaded. -/
def BeginsAt (h : History) (direction : Direction) (starts : List NodeId) (n : Nat) : Prop :=
  n < h.size ∧ (.loaded n ∈ starts ∨
    direction = .up ∧ ∃ slot, .missing slot ∈ starts ∧ .missing slot ∈ h.parentsOf n)

/-- A step of a walk, to a loaded parent or from one. -/
def Toward (h : History) : Direction → Nat → Nat → Prop
  | .down, m, n => h.IsParent m n
  | .up, m, n => h.IsParent n m

/-- A walk visits the loaded nodes that it leads to, each once, the nearer ones
first. -/
structure BreadthFirst (h : History) (starts : List NodeId) (direction : Direction)
    (visited : List Nat) : Prop where
  nodup : visited.Nodup
  lt_size : ∀ n ∈ visited, n < h.size
  mem_iff : ∀ {n}, n ∈ visited ↔
    ∃ m, h.BeginsAt direction starts m ∧ ReflTransGen (h.Toward direction) m n
  ordered : visited.Pairwise (NoFarther (h.BeginsAt direction starts) (h.Toward direction))

theorem mem_next (hs : h.Sound) : n ∈ h.next direction m ↔ h.Toward direction m n := by
  cases direction with
  | down => rfl
  | up => exact hs.linked.mem_children

/-- Where a walk toward children begins. -/
theorem mem_starts_up (hs : h.Sound) (hm : h.MirrorsChildren) {start : NodeId} :
    n ∈ h.startsOf .up start ↔ n < h.size ∧ (.loaded n = start ∨
      ∃ slot, .missing slot = start ∧ .missing slot ∈ h.parentsOf n) := by
  cases start with
  | none => simp [startsOf, isLoaded, childrenOf]
  | missing slot =>
      simp only [startsOf, isLoaded, Bool.false_eq_true, if_false, if_true, hm n]
      simpa using lt_size_of_mem_parentsOf
  | loaded k =>
      by_cases hk : k < h.size
      · simp only [startsOf, isLoaded, hk, decide_true, if_true, mem_loadedNodes,
          List.mem_singleton]
        grind
      · -- a number beyond the last node has no children
        have hnone : n ∉ h.childrenOf (.loaded k) := by
          intro hn
          exact hk (hs.linked.parent_lt (mem_loadedParents.mpr ((hm n _).mp hn)))
        simp only [startsOf, isLoaded, hk, decide_false, Bool.false_eq_true, if_false, if_true]
        grind

theorem beginsAt_iff (hs : h.Sound) (hm : h.MirrorsChildren) : h.BeginsAt direction starts n ↔
    n ∈ starts.flatMap (h.startsOf direction) ∧ n < h.size := by
  cases direction with
  | down =>
      rw [mem_starts_down, BeginsAt]
      grind
  | up =>
      simp only [List.mem_flatMap, mem_starts_up hs hm, BeginsAt]
      grind

theorem breadthFirst_of_mirrors (hs : h.Sound) (hm : h.MirrorsChildren) (starts : List NodeId)
    (direction : Direction) : h.BreadthFirst starts direction (h.walk starts direction) := by
  have hstep : (fun a b => b ∈ h.next direction a) = h.Toward direction := by
    funext a b
    exact propext (mem_next hs)
  have hmem : ∀ {n}, n ∈ h.walk starts direction ↔
      ∃ m, h.BeginsAt direction starts m ∧ ReflTransGen (h.Toward direction) m n := by
    intro n
    simp only [mem_walk hs, beginsAt_iff hs hm, hstep, and_assoc]
  have hbegins : ∀ {n}, h.BeginsAt direction starts n ↔
      n ∈ starts.flatMap (h.startsOf direction) ∧ n < h.size := beginsAt_iff hs hm
  constructor
  · exact nodup_walk h starts direction
  · intro n hn
    obtain ⟨m, hbegins, hpath⟩ := hmem.mp hn
    rcases hpath.cases_tail with rfl | ⟨k, _, hlast⟩
    · exact hbegins.1
    · exact hs.next_lt ((mem_next hs).mpr hlast)
  · exact hmem
  · have hfirst := AtDistance.start (h.next direction) hbegins
    have hordered := (hfirst.ordered hs.next_lt).1
    rwa [hstep] at hordered

variable {α : Type} [BEq α] [Hashable α] [LawfulBEq α] {commits : List (Commit α)}
  {slots' : Placeholders α}

/-- Every walk over a history that loads, in either direction and from any nodes,
loaded or not, visits what it leads to, each node once and the nearer ones
first. -/
theorem breadthFirst_walk (known : List α)
    (hload : load commits (Placeholders.empty.reserve known) = .ok (h, slots'))
    (starts : List NodeId) (direction : Direction) :
    h.BreadthFirst starts direction (h.walk starts direction) := by
  have hslots := (Placeholders.reserve_spec Placeholders.numbered_empty known).1
  exact breadthFirst_of_mirrors (sound_of_load hload)
    (Graph.mirrorsChildren_of_load hslots hload) starts direction

/-- A walk toward children from the base of a merge and from the parent of the
merge that is not listed; no commit and a number beyond the last node lead
nowhere. -/
theorem breadthFirst_walk_merge :
    (∃ slots, load mergeCommits (Placeholders.empty.reserve []) = .ok (mergeHistory, slots)) ∧
      mergeHistory.BreadthFirst [.missing 0, .none, .loaded 7, .loaded 0, .missing 0] .up
        (mergeHistory.walk [.missing 0, .none, .loaded 7, .loaded 0, .missing 0] .up) := by
  obtain ⟨slots, hload⟩ := load_mergeHistory
  exact ⟨⟨slots, hload⟩, breadthFirst_walk [] hload _ _⟩

/-- The merge is where the walk begins, the side is not. -/
example : mergeHistory.walk [.missing 0, .none, .loaded 7, .loaded 0, .missing 0] .up =
    [1, 0, 2] := by
  cbv

end History

end Lineage
