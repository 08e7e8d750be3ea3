import Lineage.Proofs.Listing

/-!
# Lineage.Proofs.Listing.Lanes

The lanes of a graph by the names of its commits, and what becomes of them when
the commits are listed in another order: nothing.

* `Graph.laneOf?`, `Graph.headOf?`, `Graph.headIds` — lanes and heads by name.
* `Graph.laidOut_of_stateOf` — every listed commit has a lane and a head.
* `Graph.sameLanes_of_perm` — a rearranged list has the same lanes.
-/

namespace Lineage

open Relation (ReflTransGen)

namespace Graph

variable {α : Type} [BEq α] [Hashable α] {σ : Equiv.Perm Nat} {commits commits' : List (Commit α)}
  {palette : Palette α} {heads heads' : List α} {config config' : Config} {g g' : Graph α}

/-! ## lanes by name -/

/-- The node of a listed commit. -/
def nodeOf? (g : Graph α) (id : α) : Option Nat := (g.directory.node? id).bind NodeId.loaded?

/-- The lane of a listed commit. -/
def laneOf? (g : Graph α) (id : α) : Option Nat := (g.nodeOf? id).map g.lanes.lane

/-- The head that the lane of a listed commit belongs to. -/
def headOf? (g : Graph α) (id : α) : Option α :=
  ((g.nodeOf? id).bind g.lanes.headOf?).bind fun n => g.directory.id? (.loaded n)

/-- The heads of the history, the most important one first. -/
def headIds (g : Graph α) : List α := g.directory.idsOf (g.lanes.heads.map .loaded)

theorem nodeOf?_eq_some_iff {id : α} {n : Nat} : g.nodeOf? id = some n ↔ g.Stands id n := by
  unfold nodeOf? Stands
  cases g.directory.node? id with
  | none => simp
  | some x => cases x <;> simp [NodeId.loaded?]

/-- The same lanes under the same names. -/
structure SameLanes (g g' : Graph α) : Prop where
  lane : ∀ id, g'.laneOf? id = g.laneOf? id
  heads : g'.headIds = g.headIds
  /-- The first lanes of the heads. -/
  starts : g'.lanes.starts = g.lanes.starts
  head : ∀ id, g'.headOf? id = g.headOf? id

/-- A graph whose heads are the listed commits that none names as a parent, and
where every listed commit is in a lane of one of them. -/
structure LaidOut (g : Graph α) (commits : List (Commit α)) : Prop where
  mem_headIds : ∀ {id}, id ∈ g.headIds ↔ Tip commits id
  length_starts : g.lanes.starts.length = g.headIds.length
  listed : ∀ {id}, id ∈ commits.map (·.id) → ∃ lane head, g.laneOf? id = some lane ∧ 1 ≤ lane ∧
    g.headOf? id = some head ∧ head ∈ g.headIds

/-- A tip is a head of the history. -/
theorem Sound.isHead_of_tip (hg : g.Sound commits) {id : α} (htip : Tip commits id) :
    ∃ n, g.Stands id n ∧ g.history.IsHead n := by
  obtain ⟨hlisted, hnone⟩ := htip
  obtain ⟨n, hn⟩ := hg.stands_of_mem hlisted
  refine ⟨n, hn, hg.lt_size hn, List.eq_nil_iff_forall_not_mem.mpr fun m hm => ?_⟩
  have hlink : g.history.IsParent m n := hg.history.linked.mem_children.mp hm
  obtain ⟨a, ha⟩ := hg.exists_stands (hg.history.linked.child_lt hlink)
  obtain ⟨c, hc, _, hparent, _⟩ := (hg.parentOf_iff ha hn).mpr hlink
  exact hnone c hc hparent

theorem mem_heads_lanes (hg : StateOf commits palette heads config g) {n : Nat} :
    n ∈ g.lanes.heads ↔ g.history.IsHead n := by
  obtain ⟨_, _, _, hlanes, _⟩ := eq_of_stateOf hg
  rw [hlanes]
  exact Lanes.mem_heads_ofHistory

variable [LawfulBEq α]

/-- A listed commit has the node that it names. -/
theorem stands_iff_id? (hg : StateOf commits palette heads config g) {id : α} {n : Nat} :
    g.Stands id n ↔ g.directory.id? (.loaded n) = some id := by
  rw [(sound_of_stateOf hg).stands_iff, id?_of_stateOf hg]

theorem mem_headIds (hg : StateOf commits palette heads config g) {id : α} :
    id ∈ g.headIds ↔ ∃ n ∈ g.lanes.heads, g.Stands id n := by
  rw [headIds, Directory.idsOf, List.filterMap_map, List.mem_filterMap]
  simp only [Function.comp_apply, stands_iff_id? hg]

theorem mem_headIds_iff_tip (hg : StateOf commits palette heads config g) {id : α} :
    id ∈ g.headIds ↔ Tip commits id := by
  have hsound := sound_of_stateOf hg
  simp only [mem_headIds hg, mem_heads_lanes hg]
  constructor
  · intro hhead
    obtain ⟨n, hn, hid⟩ := hhead
    obtain ⟨name, hname, htip⟩ := hsound.tip_of_isHead hn
    rwa [hsound.stands_inj hid hname]
  · intro htip
    obtain ⟨n, hn, hhead⟩ := hsound.isHead_of_tip htip
    exact ⟨n, hhead, hn⟩

/-- Every head has a name and a first lane. -/
theorem length_starts_of_stateOf (hg : StateOf commits palette heads config g) :
    g.lanes.starts.length = g.headIds.length := by
  obtain ⟨_, _, _, hlanes, _⟩ := eq_of_stateOf hg
  have hstarts := (Lanes.regions_ofHistory (sound_of_stateOf hg).history.linked
    (compareNodes g.directory palette)).length_starts
  rw [← hlanes] at hstarts
  rw [hstarts, headIds, Directory.idsOf, List.filterMap_map, eq_comm,
    List.filterMap_length_eq_length]
  intro n hn
  obtain ⟨id, hid, _⟩ := exists_tip hg ((mem_heads_lanes hg).mp hn)
  rw [Function.comp_apply, hid, Option.isSome_some]

/-- Every node is in a lane, and the lane belongs to a head that reaches it. -/
theorem exists_lane (hg : StateOf commits palette heads config g) {n : Nat}
    (hn : n < g.history.size) : 1 ≤ g.lanes.lane n ∧
      ∃ m ∈ g.lanes.heads, g.lanes.headOf? n = some m ∧ ReflTransGen g.history.IsParent m n := by
  have hsound := sound_of_stateOf hg
  obtain ⟨_, _, _, hlanes, _⟩ := eq_of_stateOf hg
  have hlane := Lanes.lane_ne_zero hsound.history (compareNodes g.directory palette) hn
  obtain ⟨m, hm, hreach⟩ :=
    Lanes.exists_headOf? hsound.history (compareNodes g.directory palette) hn
  rw [← hlanes] at hlane hm
  exact ⟨Nat.one_le_iff_ne_zero.mpr hlane, m, List.mem_of_getElem? hm, hm, hreach⟩

/-- Every graph lays its commits out. -/
theorem laidOut_of_stateOf (hg : StateOf commits palette heads config g) :
    g.LaidOut commits := by
  have hsound := sound_of_stateOf hg
  refine ⟨mem_headIds_iff_tip hg, length_starts_of_stateOf hg, fun {id} hlisted => ?_⟩
  obtain ⟨n, hn⟩ := hsound.stands_of_mem hlisted
  have hnode := nodeOf?_eq_some_iff.mpr hn
  obtain ⟨hlane, m, hmem, hm, _⟩ := exists_lane hg (hsound.lt_size hn)
  obtain ⟨head, hhead, _⟩ := exists_tip hg ((mem_heads_lanes hg).mp hmem)
  refine ⟨g.lanes.lane n, head, ?_, hlane, ?_, ?_⟩
  · rw [laneOf?, hnode, Option.map_some]
  · rw [headOf?, hnode, Option.bind_some, hm, Option.bind_some, hhead]
  · exact (mem_headIds hg).mpr ⟨m, hmem, (stands_iff_id? hg).mpr hhead⟩

/-! ## rearranged lists -/

namespace Relists

variable (hr : Relists σ g g') (hrank : StrictlyRanks palette.compare (Tip commits))
  (hg : StateOf commits palette heads config g)
  (hg' : StateOf commits' palette heads' config' g')

include hr hg hg'

/-- A commit has the node that its place has now. -/
theorem nodeOf? (id : α) : g'.nodeOf? id = (g.nodeOf? id).map σ := by
  ext n
  obtain ⟨m, rfl⟩ := σ.surjective n
  simp only [Option.map_eq_some_iff, σ.apply_eq_iff_eq, exists_eq_right, nodeOf?_eq_some_iff,
    stands_iff_id? hg, stands_iff_id? hg', hr.id?]

include hrank

/-- The heads come in the same order, and their lanes begin with the same
ones. -/
theorem heads_lanes : g'.lanes.heads = g.lanes.heads.map σ ∧ g'.lanes.starts = g.lanes.starts := by
  obtain ⟨_, _, _, hlanes, _⟩ := eq_of_stateOf hg
  obtain ⟨_, _, _, hlanes', _⟩ := eq_of_stateOf hg'
  have hstrict := strictlyRanks_heads hrank hg
  rw [hlanes, hlanes']
  exact ⟨hr.history.heads_ofHistory hstrict (compareNodes_heads hg hr.id?),
    (hr.history.lane_ofHistory hstrict (compareNodes_heads hg hr.id?)).2⟩

/-- A node keeps the head it belongs to. -/
theorem headOf?_node (n : Nat) : g'.lanes.headOf? (σ n) = (g.lanes.headOf? n).map σ := by
  obtain ⟨hheads, hstarts⟩ := hr.heads_lanes hrank hg hg'
  rw [Lanes.headOf?, Lanes.headPosition, hheads, hstarts, hr.lane, List.getElem?_map]
  rfl

/-- Lanes and heads keep their names. -/
theorem sameLanes : SameLanes g g' := by
  obtain ⟨hheads, hstarts⟩ := hr.heads_lanes hrank hg hg'
  refine ⟨fun id => ?_, ?_, hstarts, fun id => ?_⟩
  · unfold laneOf?
    rw [hr.nodeOf? hg hg', Option.map_map]
    exact congrArg (Option.map · (g.nodeOf? id)) (funext hr.lane)
  · unfold headIds Directory.idsOf
    rw [hheads, List.filterMap_map, List.filterMap_map, List.filterMap_map]
    exact congrArg (List.filterMap · g.lanes.heads) (funext hr.id?)
  · unfold headOf?
    rw [hr.nodeOf? hg hg']
    cases g.nodeOf? id with
    | none => rfl
    | some n =>
        rw [Option.map_some, Option.bind_some, Option.bind_some,
          hr.headOf?_node hrank hg hg', Option.bind_map]
        exact congrArg (Option.bind (g.lanes.headOf? n)) (funext hr.id?)

end Relists

/-- Lanes do not depend on the order in which the commits are listed, as long as
tips are ranked strictly: every commit is in the same lane and has the same head,
and the heads come in the same order, each with the same first lane. -/
theorem sameLanes_of_perm (hperm : commits.Perm commits')
    (hrank : StrictlyRanks palette.compare (Tip commits))
    (hg : StateOf commits palette heads config g)
    (hg' : StateOf commits' palette heads' config' g') :
    g.LaidOut commits ∧ SameLanes g g' := by
  obtain ⟨σ, hσ⟩ := exists_renumbering hperm
  have hr := relists_of_stateOf hσ hrank hg hg'
  exact ⟨laidOut_of_stateOf hg, hr.sameLanes hrank hg hg'⟩

/-- Two tips over one base, listed with the base at the end. -/
def twoTips : List (Commit String) :=
  [⟨"topic", ["base"], 3⟩, ⟨"main", ["base"], 2⟩, ⟨"base", [], 1⟩]

/-- Upside down, the tips and their base are in the same lanes. -/
theorem sameLanes_of_perm_tips :
    ∃ g g', Graph.load twoTips byName ["topic"] {} = .ok g ∧
      Graph.load twoTips.reverse byName ["main"] {} = .ok g' ∧
      g.LaidOut twoTips ∧ SameLanes g g' := by
  have hcommits : (History.load twoTips .empty).toOption.isSome = true := by cbv
  have hcommits' : (History.load twoTips.reverse .empty).toOption.isSome = true := by cbv
  obtain ⟨g, hload⟩ := exists_load_of_isSome hcommits byName ["topic"] {}
  obtain ⟨g', hload'⟩ := exists_load_of_isSome hcommits' byName ["main"] {}
  exact ⟨g, g', hload, hload', sameLanes_of_perm (List.reverse_perm _).symm
    (strictlyRanks_byName _) (.loaded hload) (.loaded hload')⟩

end Graph

end Lineage
