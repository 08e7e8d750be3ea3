import Mathlib.Data.List.Permutation
import Lineage.Proofs.LanePaths
import Lineage.Proofs.LinearView
import Lineage.Proofs.Renumbering.Rebase

/-!
# Lineage.Proofs.Listing

One history listed in two ways.  The commits of a list are numbered as they
stand there, so a rearranged list gives the same history with other numbers.
Lanes do not show the difference.  The rebase order only shows it where commits
of one lane change places, which two lists with children in front never do.

* `History.renumbers_of_load` — rearranged lists load as one history with other
  numbers.
* `Graph.relists_of_stateOf` — so do their graphs; every commit keeps its lane.
* `Graph.listedAlike_of_childrenFirst` — what children in front are good for.
* `Graph.rebasedIds_of_perm` — the rebase order of a rearranged list.
-/

namespace Lineage

open Relation (ReflTransGen)

/-! ## places in a rearranged list -/

/-- A renumbering that leaves `0` alone and treats `n + 1` as `σ` does `n`. -/
def shift (σ : Equiv.Perm Nat) : Equiv.Perm Nat where
  toFun
    | 0 => 0
    | n + 1 => σ n + 1
  invFun
    | 0 => 0
    | n + 1 => σ.symm n + 1
  left_inv n := by cases n <;> simp
  right_inv n := by cases n <;> simp

/-- Every place of a list has one in a rearranged list. -/
theorem exists_renumbering {β : Type} {xs ys : List β} (hperm : xs.Perm ys) :
    ∃ σ : Equiv.Perm Nat, ∀ n : Nat, ys[σ n]? = xs[n]? := by
  induction hperm with
  | nil => exact ⟨.refl Nat, fun _ => rfl⟩
  | cons x _ ih =>
      obtain ⟨σ, hσ⟩ := ih
      refine ⟨shift σ, fun n => ?_⟩
      cases n with
      | zero => rfl
      | succ n => simpa [shift] using hσ n
  | swap x y xs =>
      refine ⟨.swap 0 1, fun n => ?_⟩
      match n with
      | 0 => simp
      | 1 => simp
      | n + 2 => rw [Equiv.swap_apply_of_ne_of_ne (by omega) (by omega)]; rfl
  | trans _ _ ih ih' =>
      obtain ⟨σ, hσ⟩ := ih
      obtain ⟨τ, hτ⟩ := ih'
      exact ⟨σ.trans τ, fun n => (hτ (σ n)).trans (hσ n)⟩

/-! ## rearranged histories -/

variable {α : Type}

/-- A listed commit that none names as a parent. -/
def Tip (commits : List (Commit α)) (id : α) : Prop :=
  id ∈ commits.map (·.id) ∧ ∀ c ∈ commits, id ∉ c.parents

/-- A commit list in which every commit stands in front of its parents. -/
def ChildrenFirst (commits : List (Commit α)) : Prop :=
  commits.Pairwise fun c d => c.id ∉ d.parents

variable [BEq α] [Hashable α]

namespace History

variable [LawfulBEq α] {σ : Equiv.Perm Nat} {commits commits' : List (Commit α)}
  {slots slots' slots₁ slots₁' : Placeholders α} {h h' : History}

/-- Parents determine children. -/
theorem renumbers_of_parents (hl : Linked h.size h.loadedParents h.loadedChildren)
    (hl' : Linked h'.size h'.loadedParents h'.loadedChildren)
    (hsize : ∀ {n}, σ n < h'.size ↔ n < h.size)
    (hparents : ∀ n, h'.loadedParents (σ n) = (h.loadedParents n).map σ) : Renumbers σ h h' := by
  refine ⟨hsize, hparents, fun n => List.perm_iff_count.mpr fun c => ?_⟩
  obtain ⟨c, rfl⟩ := σ.surjective c
  rw [hl'.count_children, hparents, List.count_map_of_injective _ _ σ.injective,
    List.count_map_of_injective _ _ σ.injective, hl.count_children]

/-- Two lists with the same commits in other places load as one history with
other numbers. -/
theorem renumbers_of_load (hσ : ∀ n : Nat, commits'[σ n]? = commits[n]?)
    (hload : load commits slots = .ok (h, slots₁))
    (hload' : load commits' slots' = .ok (h', slots₁')) : Renumbers σ h h' := by
  have ht := tabulates_of_load hload
  have ht' := tabulates_of_load hload'
  have hnodup := nodup_of_firstRepeated (eq_of_load hload).1
  have hnodup' := nodup_of_firstRepeated (eq_of_load hload').1
  -- a parent is looked up by its id, and found where its commit stands now
  have hindex : ∀ p : α, (indexOf commits')[p]? = ((indexOf commits)[p]?).map σ := by
    intro p
    ext n
    obtain ⟨n, rfl⟩ := σ.surjective n
    simp only [getElem?_indexOf hnodup', List.getElem?_map, hσ, Option.map_eq_some_iff,
      σ.apply_eq_iff_eq, exists_eq_right, getElem?_indexOf hnodup]
  refine renumbers_of_parents (linked_of_load hload) (linked_of_load hload') (fun {n} => ?_)
    fun n => ?_
  · rw [ht.size_eq, ht'.size_eq, ← not_iff_not, Nat.not_lt, Nat.not_lt, ← List.getElem?_eq_none_iff,
      ← List.getElem?_eq_none_iff, hσ]
  · rw [ht.loadedParents_eq, ht'.loadedParents_eq, hσ]
    cases commits[n]? with
    | none => rfl
    | some c => simp only [hindex, List.map_filterMap]

end History

namespace Graph

variable {σ : Equiv.Perm Nat} {commits commits' : List (Commit α)} {palette : Palette α}
  {heads heads' : List α} {config config' : Config} {g g' : Graph α}

/-- A graph and one that has the same commits in other places. -/
structure Relists (σ : Equiv.Perm Nat) (g g' : Graph α) : Prop where
  history : Renumbers σ g.history g'.history
  stands : ∀ {id n}, g.Stands id n → g'.Stands id (σ n)
  id? : ∀ n, g'.directory.id? (.loaded (σ n)) = g.directory.id? (.loaded n)
  timestamp : ∀ n, g'.directory.timestamp (.loaded (σ n)) = g.directory.timestamp (.loaded n)
  lane : ∀ n, g'.lanes.lane (σ n) = g.lanes.lane n

/-! ## heads -/

/-- Nodes are ranked strictly when their names are. -/
theorem strictlyRanks_compareNodes {d : Directory α} {S : α → Prop} {P : Nat → Prop}
    (hrank : StrictlyRanks palette.compare S)
    (hname : ∀ {n}, P n → ∃ x, d.id? (.loaded n) = some x ∧ S x)
    (hinj : ∀ {m n x}, d.id? (.loaded m) = some x → d.id? (.loaded n) = some x → m = n) :
    StrictlyRanks (compareNodes d palette) P := by
  refine ⟨fun {a b} ha hb => ?_, fun {a b c} ha hb hc => ?_, fun {a b} ha hb => ?_⟩
  · obtain ⟨x, hx, hSx⟩ := hname ha
    obtain ⟨y, hy, hSy⟩ := hname hb
    simpa only [compareNodes, hx, hy] using hrank.swap hSx hSy
  · obtain ⟨x, hx, hSx⟩ := hname ha
    obtain ⟨y, hy, hSy⟩ := hname hb
    obtain ⟨z, hz, hSz⟩ := hname hc
    simpa only [compareNodes, hx, hy, hz] using hrank.trans hSx hSy hSz
  · obtain ⟨x, hx, hSx⟩ := hname ha
    obtain ⟨y, hy, hSy⟩ := hname hb
    simp only [compareNodes, hx, hy]
    intro heq
    obtain rfl := hrank.eq hSx hSy heq
    exact hinj hx hy

/-- A head of the history is a listed commit that none names. -/
theorem Sound.tip_of_isHead (hg : g.Sound commits) {n : Nat} (hn : g.history.IsHead n) :
    ∃ id, g.Stands id n ∧ Tip commits id := by
  obtain ⟨id, hid⟩ := hg.exists_stands hn.1
  have hlisted : id ∈ commits.map (·.id) := List.mem_of_getElem? (hg.stands_iff.mp hid)
  refine ⟨id, hid, hlisted, fun c hc hparent => ?_⟩
  obtain ⟨m, hm⟩ := hg.stands_of_mem (List.mem_map_of_mem hc)
  have hlink := (hg.parentOf_iff hm hid).mp ⟨c, hc, rfl, hparent, hlisted⟩
  have hchild := hg.history.linked.mem_children.mpr hlink
  rw [hn.2] at hchild
  contradiction

/-- The heads of a graph have names, which none of its commits mentions. -/
theorem exists_tip [LawfulBEq α] (hg : StateOf commits palette heads config g) {n : Nat}
    (hn : g.history.IsHead n) :
    ∃ id, g.directory.id? (.loaded n) = some id ∧ Tip commits id := by
  have hsound := sound_of_stateOf hg
  obtain ⟨id, hstands, htip⟩ := hsound.tip_of_isHead hn
  exact ⟨id, (id?_of_stateOf hg n).trans (hsound.stands_iff.mp hstands), htip⟩

/-- Heads with the same names under other numbers are ranked alike. -/
theorem compareNodes_heads [LawfulBEq α] (hg : StateOf commits palette heads config g)
    {d : Directory α} (hid : ∀ n, d.id? (.loaded (σ n)) = g.directory.id? (.loaded n)) {m n : Nat}
    (hm : g.history.IsHead m) (hn : g.history.IsHead n) :
    compareNodes d palette (σ m) (σ n) = compareNodes g.directory palette m n := by
  obtain ⟨x, hx, _⟩ := exists_tip hg hm
  obtain ⟨y, hy, _⟩ := exists_tip hg hn
  simp only [compareNodes, hid, hx, hy]

/-- Where tips are ranked strictly, so are the heads of a graph. -/
theorem strictlyRanks_heads [LawfulBEq α] (hrank : StrictlyRanks palette.compare (Tip commits))
    (hg : StateOf commits palette heads config g) :
    StrictlyRanks (compareNodes g.directory palette) g.history.IsHead := by
  have hsound := sound_of_stateOf hg
  refine strictlyRanks_compareNodes hrank (exists_tip hg) fun {m n id} hm hn => ?_
  rw [id?_of_stateOf hg] at hm hn
  exact stands_unique (hsound.stands_iff.mpr hm) (hsound.stands_iff.mpr hn)

/-! ## rearranged graphs -/

/-- Lists with the same commits in other places load as graphs that differ in
these places alone. -/
theorem relists_of_stateOf [LawfulBEq α] (hσ : ∀ n : Nat, commits'[σ n]? = commits[n]?)
    (hrank : StrictlyRanks palette.compare (Tip commits))
    (hg : StateOf commits palette heads config g)
    (hg' : StateOf commits' palette heads' config' g') : Relists σ g g' := by
  have hsound := sound_of_stateOf hg
  obtain ⟨_, hhistory, _, hlanes, _⟩ := eq_of_stateOf hg
  obtain ⟨_, hhistory', _, hlanes', _⟩ := eq_of_stateOf hg'
  have hr := History.renumbers_of_load hσ hhistory hhistory'
  have hid : ∀ n, g'.directory.id? (.loaded (σ n)) = g.directory.id? (.loaded n) := fun n => by
    simp only [id?_of_stateOf hg, id?_of_stateOf hg', List.getElem?_map, hσ]
  refine ⟨hr, fun {id n} hstands => ?_, hid, fun n => ?_, fun n => ?_⟩
  · rw [(sound_of_stateOf hg').stands_iff, List.getElem?_map, hσ, ← List.getElem?_map]
    exact hsound.stands_iff.mp hstands
  · simp only [timestamp_of_stateOf hg, timestamp_of_stateOf hg', List.getD_eq_getElem?_getD,
      List.getElem?_map, hσ]
  · rw [hlanes, hlanes']
    exact (hr.lane_ofHistory (strictlyRanks_heads hrank hg) (compareNodes_heads hg hid)).1 n

/-- Where every commit stands in front of its parents, numbers grow toward
parents. -/
theorem le_of_reach [LawfulBEq α] (hfirst : ChildrenFirst commits)
    (hg : StateOf commits palette heads config g) {u v : Nat}
    (huv : ReflTransGen g.history.IsParent u v) : u ≤ v := by
  have hsound := sound_of_stateOf hg
  induction huv with
  | refl => exact Nat.le_refl u
  | @tail v w _ hparent ih =>
      obtain ⟨a, ha⟩ := hsound.exists_stands (hsound.history.linked.child_lt hparent)
      obtain ⟨b, hb⟩ := hsound.exists_stands (hsound.history.linked.parent_lt hparent)
      obtain ⟨c, hc, rfl, hmem, _⟩ := (hsound.parentOf_iff ha hb).mpr hparent
      obtain ⟨d, hd, rfl⟩ := hsound.exists_commit hb
      obtain ⟨hv, rfl⟩ := List.getElem?_eq_some_iff.mp (hsound.getElem?_of_stands hc ha)
      obtain ⟨hw, rfl⟩ := List.getElem?_eq_some_iff.mp hd
      have hnot : ¬ w < v := fun hlt => List.pairwise_iff_getElem.mp hfirst w v hw hv hlt hmem
      omega

/-! ## the rebase order -/

/-- The listed commits in rebase order. -/
def rebasedIds (g : Graph α) : List α :=
  g.directory.idsOf (g.rebaseOrder.1.nodes.toList.map .loaded)

/-- The rebase order shows every listed commit once. -/
theorem rebasedIds_perm [LawfulBEq α] (hg : StateOf commits palette heads config g) :
    g.rebasedIds.Perm (commits.map (·.id)) := by
  have hsound := sound_of_stateOf hg
  have hperm := hsound.rebaseOrder.1.perm_range
  have hids : g.directory.idsOf ((List.range g.history.size).map .loaded) =
      commits.map (·.id) := by
    simp only [Directory.idsOf, List.filterMap_map, Function.comp_def, id?_of_stateOf hg,
      hsound.size_eq]
    simpa using filterMap_getElem?_range (commits.map (·.id))
  rw [← hids]
  exact (hperm.map NodeId.loaded).filterMap _

/-- Whether the commits of each lane of a graph come in the same order where
another graph lists them. -/
def ListedAlike (g g' : Graph α) : Prop :=
  ∀ {a b u v u' v'}, g.Stands a u → g.Stands b v → g'.Stands a u' → g'.Stands b v' →
    g.lanes.lane u = g.lanes.lane v → (u' ≤ v' ↔ u ≤ v)

/-- The same commits in other places have the same rebase order, if those of
each lane come in the same order and no two are equally new. -/
theorem Relists.rebasedIds (hr : Relists σ g g')
    (hl : Linked g.history.size g.history.loadedParents g.history.loadedChildren)
    (hsame : ∀ {u v}, u < g.history.size → v < g.history.size →
      g.lanes.lane u = g.lanes.lane v → (σ u ≤ σ v ↔ u ≤ v))
    (hnew : ∀ {u v}, u < g.history.size → v < g.history.size →
      g.directory.timestamp (.loaded u) = g.directory.timestamp (.loaded v) → u = v)
    (horder : g.rebaseOrder.1 =
      g.history.rebaseOrder g.lanes fun n => g.directory.timestamp (.loaded n))
    (horder' : g'.rebaseOrder.1 =
      g'.history.rebaseOrder g'.lanes fun n => g'.directory.timestamp (.loaded n)) :
    g'.rebasedIds = g.rebasedIds := by
  have hinterleave := hr.history.interleave (fun n => g.directory.timestamp (.loaded n))
    (fun n => g'.directory.timestamp (.loaded n)) hl hr.lane hsame hr.timestamp hnew
  simp only [Graph.rebasedIds, horder, horder', History.rebaseOrder, hinterleave, RowOrder.ofList,
    Directory.idsOf, List.filterMap_map, Function.comp_def, hr.id?]

variable [LawfulBEq α]

/-- In two lists with children in front the commits of a lane come in the same
order, since one of any two is an ancestor of the other. -/
theorem listedAlike_of_childrenFirst (hr : Relists σ g g')
    (hg : StateOf commits palette heads config g)
    (hg' : StateOf commits' palette heads' config' g') (hfirst : ChildrenFirst commits)
    (hfirst' : ChildrenFirst commits') : ListedAlike g g' := by
  have hsound := sound_of_stateOf hg
  intro a b u v u' v' hu hv hu' hv' hlane
  obtain rfl := stands_unique (hr.stands hu) hu'
  obtain rfl := stands_unique (hr.stands hv) hv'
  have hpath : ReflTransGen g.history.IsParent u v ∨ ReflTransGen g.history.IsParent v u := by
    obtain ⟨_, _, _, hlanes, _⟩ := eq_of_stateOf hg
    rw [hlanes] at hlane
    exact Lanes.reach_of_lane_eq hsound.history _ (hsound.lt_size hu) hlane
  rcases hpath with huv | hvu
  · exact iff_of_true (le_of_reach hfirst' hg' (hr.history.reach huv)) (le_of_reach hfirst hg huv)
  · have hle := le_of_reach hfirst hg hvu
    have hle' := le_of_reach hfirst' hg' (hr.history.reach hvu)
    have heq : σ u = σ v ↔ u = v := σ.apply_eq_iff_eq
    omega

/-- The rebase order of a graph shows every listed commit once.  It does not
depend on how the commits are listed, as long as no two of them are equally new
and those of each lane come in the same order; and so they do in any two lists
with children in front. -/
theorem rebasedIds_of_perm (hperm : commits.Perm commits')
    (hnew : (commits.map (·.timestamp)).Nodup)
    (hrank : StrictlyRanks palette.compare (Tip commits))
    (hg : StateOf commits palette heads config g)
    (hg' : StateOf commits' palette heads' config' g') :
    g.rebasedIds.Perm (commits.map (·.id)) ∧
      (ListedAlike g g' → g'.rebasedIds = g.rebasedIds) ∧
      (ChildrenFirst commits → ChildrenFirst commits' → ListedAlike g g') := by
  obtain ⟨σ, hσ⟩ := exists_renumbering hperm
  have hr := relists_of_stateOf hσ hrank hg hg'
  refine ⟨rebasedIds_perm hg, fun halike => ?_, listedAlike_of_childrenFirst hr hg hg'⟩
  have hsound := sound_of_stateOf hg
  refine hr.rebasedIds hsound.history.linked (fun {u v} hu hv => ?_) (fun {u v} hu hv htime => ?_)
    (rebaseOrder_of_stateOf hg) (rebaseOrder_of_stateOf hg')
  · obtain ⟨a, ha⟩ := hsound.exists_stands hu
    obtain ⟨b, hb⟩ := hsound.exists_stands hv
    exact halike ha hb (hr.stands ha) (hr.stands hb)
  · rw [hsound.size_eq] at hu hv
    simp only [timestamp_of_stateOf hg, List.getD_eq_getElem?_getD] at htime
    refine (List.getElem?_inj (by simpa using hu) hnew).mp ?_
    simpa [hu, hv] using htime

/-! ## a merge in three lists -/

/-- The standard colors, heads ranked by name. -/
def byName : Palette String := { Palette.standard with compare := compare }

theorem strictlyRanks_byName (S : String → Prop) : StrictlyRanks byName.compare S :=
  strictlyRanks_of_lawful compare S

/-- The graph of a list of the merge and its ancestors. -/
def forkOf (commits : List (Commit String)) (history : History) : Graph String :=
  let directory := Directory.ofCommits commits []
  { history
    directory
    lanes := Lanes.ofHistory history (compareNodes directory byName)
    heads := directory.nodesOf ["merge"]
    palette := byName
    config := {}
    rebased := none }

theorem load_forkOf {commits : List (Commit String)} {history : History}
    (hhistory : History.load commits .empty = .ok (history, .empty))
    (hmerge : "merge" ∈ commits.map (·.id)) :
    Graph.load commits byName ["merge"] {} = .ok (forkOf commits history) := by
  rw [Graph.load, hhistory]
  simp only [List.mem_map] at hmerge
  simp [forkOf, Placeholders.reserve, Placeholders.empty, hmerge]

/-- The history of the list with the side in front. -/
def sideHistory : History where
  parents := #[[.loaded 2, .loaded 1], [.loaded 3], [.loaded 3], []]
  children := #[[], [0], [0], [1, 2]]
  missingChildren := #[]
  order := .ofList [0, 1, 2, 3]

/-- The history of the list turned upside down. -/
def upHistory : History where
  parents := #[[], [.loaded 0], [.loaded 0], [.loaded 2, .loaded 1]]
  children := #[[1, 2], [3], [3], []]
  missingChildren := #[]
  order := .ofList [3, 1, 2, 0]

/-- The merge and its ancestors with the side in front of the path. -/
def sideCommits : List (Commit String) :=
  [⟨"merge", ["path", "side"], 4⟩, ⟨"side", ["base"], 2⟩, ⟨"path", ["base"], 3⟩, ⟨"base", [], 1⟩]

theorem load_forkOf_side :
    Graph.load sideCommits byName ["merge"] {} = .ok (forkOf sideCommits sideHistory) :=
  load_forkOf (by cbv) (by decide)

theorem load_forkOf_up : Graph.load forkCommits.reverse byName ["merge"] {} =
    .ok (forkOf forkCommits.reverse upHistory) :=
  load_forkOf (by cbv) (by decide)

/-- The side in front of the path makes no difference. -/
theorem rebasedIds_of_perm_fork :
    ∃ g g', Graph.load forkCommits byName ["merge"] {} = .ok g ∧
      Graph.load sideCommits byName ["merge"] {} = .ok g' ∧ g'.rebasedIds = g.rebasedIds := by
  have hperm : forkCommits.Perm sideCommits := .cons _ (.swap _ _ _)
  have hload := load_forkOf load_history_fork (by decide)
  obtain ⟨_, hequal, halike⟩ := rebasedIds_of_perm hperm (by decide) (strictlyRanks_byName _)
    (.loaded hload) (.loaded load_forkOf_side)
  have hfirst : ChildrenFirst forkCommits := by simp [ChildrenFirst, forkCommits]
  have hfirst' : ChildrenFirst sideCommits := by simp [ChildrenFirst, sideCommits]
  exact ⟨_, _, hload, load_forkOf_side, hequal (halike hfirst hfirst')⟩

/-- Upside down, the path is in front of the merge in their lane and starts a
strand of its own, so the strand of the merge goes on to the side. -/
theorem rebasedIds_upside_down :
    ∃ g g', Graph.load forkCommits byName ["merge"] {} = .ok g ∧
      Graph.load forkCommits.reverse byName ["merge"] {} = .ok g' ∧
      forkCommits.Perm forkCommits.reverse ∧ (forkCommits.map (·.timestamp)).Nodup ∧
      StrictlyRanks byName.compare (fun _ => True) ∧ g'.rebasedIds ≠ g.rebasedIds := by
  refine ⟨_, _, load_forkOf load_history_fork (by decide), load_forkOf_up,
    (List.reverse_perm _).symm, by decide, strictlyRanks_byName _, ?_⟩
  have hdown : (forkOf forkCommits fork.history).rebasedIds = ["merge", "path", "side", "base"] := by
    cbv
  have hup : (forkOf forkCommits.reverse upHistory).rebasedIds =
      ["merge", "side", "path", "base"] := by
    cbv
  rw [hdown, hup]
  decide

end Graph

end Lineage
