import Lineage.Proofs.Containment
import Lineage.Proofs.Listing.Lanes

/-!
# Lineage.Proofs.Agreement

Graphs that differ in the placeholders of commits that their list does not
mention, and so answer alike.  Such a commit has no children and is the parent
of none, so its number is read only to tell its name.

* `Graph.Agree` — what the graphs have in common.
* `Graph.Complete.contained_ids` — what is contained in some ids, by name.
* `Graph.Agree.allCommits`, `Graph.Agree.containingHeads`,
  `Graph.Agree.containment`, `Graph.Agree.sameLanes`, `Graph.Agree.rebasedIds` —
  the same answers.
-/

namespace Lineage

/-- Whether an id is one of a listed commit or of a parent. -/
def Mentioned {α : Type} (commits : List (Commit α)) (id : α) : Prop :=
  id ∈ commits.map (·.id) ∨ ∃ c ∈ commits, id ∈ c.parents

namespace Graph

variable {α : Type} [BEq α] [Hashable α] {g g' : Graph α} {commits : List (Commit α)}
  {heads heads' ids : List α} {id : α} {n : Nat}

/-! ## graphs that agree -/

/-- Graphs of one commit list that know the same commits, and number those alike
that the list mentions. -/
structure Agree (commits : List (Commit α)) (g g' : Graph α) : Prop where
  history : g'.history = g.history
  lanes : g'.lanes = g.lanes
  palette : g'.palette = g.palette
  config : g'.config = g.config
  order : g'.rebaseOrder.1 = g.rebaseOrder.1
  id? : ∀ n, g'.directory.id? (.loaded n) = g.directory.id? (.loaded n)
  timestamp : ∀ n, g'.directory.timestamp (.loaded n) = g.directory.timestamp (.loaded n)
  stands : ∀ id n, g'.Stands id n ↔ g.Stands id n
  node? : ∀ {id}, Mentioned commits id → g'.directory.node? id = g.directory.node? id
  known : ∀ id, (g'.directory.node? id).isSome = (g.directory.node? id).isSome
  heads : ∀ n, .loaded n ∈ g'.heads ↔ .loaded n ∈ g.heads

/-- What a commit list mentions has the same number in every graph with its
history. -/
theorem Sound.node?_of_mentioned (hg : g.Sound commits) (hg' : g'.Sound commits)
    (hhistory : g'.history = g.history) (hid : Mentioned commits id) :
    g'.directory.node? id = g.directory.node? id := by
  cases hid with
  | inl hlisted =>
      obtain ⟨n, hn⟩ := hg.stands_of_mem hlisted
      have hn' : g'.Stands id n := hg'.stands_iff.mpr (hg.stands_iff.mp hn)
      exact Eq.trans hn' (Eq.symm hn)
  | inr hparent =>
      obtain ⟨c, hc, hid⟩ := hparent
      obtain ⟨n, hn⟩ := List.mem_iff_getElem?.mp hc
      have hparents := hg'.parents hn
      rw [hhistory, hg.parents hn] at hparents
      exact (List.map_inj_left.mp hparents id hid).symm

theorem mem_nodesOf_loaded :
    .loaded n ∈ g.directory.nodesOf ids ↔ ∃ id ∈ ids, g.Stands id n := by
  rw [Directory.nodesOf, List.mem_eraseDups, List.mem_filterMap]
  rfl

/-! ## history queries -/

/-- The name of a node, if it is a declared head. -/
def headId? (g : Graph α) (x : NodeId) : Option α :=
  if g.heads.contains x then g.directory.id? x else none

namespace Complete

variable {x : NodeId} (hg : g.Complete commits heads)

include hg

theorem headId?_eq [LawfulBEq α] (hx : g.directory.node? id = some x) :
    g.headId? x = if heads.contains id then some id else none := by
  have hmem : g.heads.contains x = heads.contains id := by
    rw [Bool.eq_iff_iff, List.contains_iff_mem, List.contains_iff_mem, hg.mem_heads hx]
  rw [headId?, hmem, hg.id?_iff.mpr hx]

/-- A commit that the list does not mention has no children. -/
theorem walk_up_eq_nil (hx : g.directory.node? id = some x) (hid : ¬ Mentioned commits id) :
    g.history.walk [x] .up = [] := by
  rw [List.eq_nil_iff_forall_not_mem]
  intro n hn
  obtain ⟨hlt, hpath⟩ := (History.mem_walk_up hg.sound.history hg.children).mp hn
  obtain ⟨a, ha⟩ := hg.sound.exists_stands hlt
  cases ((hg.mirrors.reflTransGen_iff ha hx).mpr hpath).cases_tail with
  | inl heq =>
      rw [heq] at hid
      exact hid (Or.inl (List.mem_of_getElem? (hg.sound.stands_iff.mp ha)))
  | inr hlast =>
      obtain ⟨_, _, c, hc, _, hparent⟩ := hlast
      exact hid (Or.inr ⟨c, hc, hparent⟩)

/-- What is contained in some ids, by their names. -/
theorem contained_ids {k : Containment α} (hk : g.containment ids = .ok k) :
    (k.directory.idsOf k.nodes.toList).Nodup ∧
      (k.directory.idsOf k.nodes.toList).length = k.size ∧
      ∀ id, id ∈ k.directory.idsOf k.nodes.toList ↔ k.contains id = true := by
  rw [containment_eq] at hk
  split at hk
  · contradiction
  · obtain rfl := Except.ok.inj hk
    refine ⟨hg.nodup_idsOf ?_, ?_, fun id => ?_⟩
    · exact Std.HashSet.distinct_toList.imp fun hne => ne_of_beq_false hne
    · rw [Directory.idsOf, Containment.size, ← Std.HashSet.length_toList,
        List.filterMap_length_eq_length]
      intro x hx
      rw [Std.HashSet.mem_toList, Std.HashSet.mem_ofList, List.contains_iff_mem,
        List.mem_append, List.mem_map, List.mem_filterMap] at hx
      rw [Option.isSome_iff_exists]
      cases hx with
      | inl hreached =>
          obtain ⟨n, hn, rfl⟩ := hreached
          have hlt := History.lt_size_of_mem_reachableFrom hg.sound.history hn
          obtain ⟨a, ha⟩ := hg.sound.exists_stands hlt
          exact ⟨a, hg.id?_iff.mpr ha⟩
      | inr hstart =>
          obtain ⟨a, _, ha⟩ := hstart
          exact ⟨a, hg.id?_iff.mpr ha⟩
    · rw [hg.mem_idsOf, Containment.contains, Option.any_eq_true]
      simp only [Std.HashSet.mem_toList, Std.HashSet.contains_iff_mem, and_comm]

end Complete

namespace Agree

variable (hag : Agree commits g g') (hg : g.Complete commits heads)
  (hg' : g'.Complete commits heads')

include hag

theorem idsOf_loaded (nodes : List Nat) :
    g'.directory.idsOf (nodes.map .loaded) = g.directory.idsOf (nodes.map .loaded) := by
  unfold Directory.idsOf
  rw [List.filterMap_map, List.filterMap_map]
  exact congrArg (List.filterMap · nodes) (funext hag.id?)

include hg hg'

/-- The parents of a node have the same names. -/
theorem exists_id_of_mem_parentsOf {x : NodeId} (hx : x ∈ g.history.parentsOf n) :
    ∃ id, g.directory.id? x = some id ∧ g'.directory.id? x = some id := by
  have hn := History.lt_size_of_mem_parentsOf hx
  rw [hg.sound.size_eq] at hn
  have hc := List.getElem?_eq_getElem hn
  obtain ⟨p, hp, hnode⟩ := (hg.sound.mem_parentsOf hc).mp hx
  have hmention : Mentioned commits p := Or.inr ⟨_, List.mem_of_getElem? hc, hp⟩
  refine ⟨p, hg.id?_iff.mpr hnode, hg'.id?_iff.mpr ?_⟩
  rw [hag.node? hmention, hnode]

theorem allCommits : g'.allCommits = g.allCommits := by
  have hparents : ∀ n, g'.directory.idsOf (g.history.parentsOf n) =
      g.directory.idsOf (g.history.parentsOf n) := by
    intro n
    refine List.filterMap_congr fun x hx => ?_
    obtain ⟨id, hid, hid'⟩ := hag.exists_id_of_mem_parentsOf hg hg' hx
    rw [hid, hid']
  unfold Graph.allCommits
  simp only [hag.history, hag.id?, hag.timestamp, hparents]

/-- A walk toward children reaches the same nodes. -/
theorem reached_up {x x' : NodeId} (hx : g.directory.node? id = some x)
    (hx' : g'.directory.node? id = some x') :
    ((g.history.walk [x'] .up).map NodeId.loaded).filter (· ≠ x') =
      ((g.history.walk [x] .up).map NodeId.loaded).filter (· ≠ x) := by
  by_cases hid : Mentioned commits id
  · have heq := hag.node? hid
    rw [hx, hx'] at heq
    rw [Option.some.inj heq]
  · have hnil := hg'.walk_up_eq_nil hx' hid
    rw [hag.history] at hnil
    rw [hnil, hg.walk_up_eq_nil hx hid]
    rfl

omit hag in
/-- What some ids contain is the same. -/
theorem same_contained {k k' : Containment α} (hk : g.containment ids = .ok k)
    (hk' : g'.containment ids = .ok k') :
    k'.size = k.size ∧ ∀ id, k'.contains id = k.contains id := by
  have hcontains : ∀ id, k'.contains id = k.contains id := by
    intro id
    rw [Bool.eq_iff_iff, hg.contains_iff hk, hg'.contains_iff hk']
  obtain ⟨hnodup, hlength, hmem⟩ := hg.contained_ids hk
  obtain ⟨hnodup', hlength', hmem'⟩ := hg'.contained_ids hk'
  refine ⟨?_, hcontains⟩
  rw [← hlength, ← hlength']
  refine ((List.perm_ext_iff_of_nodup hnodup' hnodup).mpr fun id => ?_).length_eq
  rw [hmem, hmem', hcontains]

/-- Asking for what some ids contain has the same answer. -/
theorem containment (ids : List α) :
    (∃ e, g.containment ids = .error e ∧ g'.containment ids = .error e) ∨
      ∃ k k', g.containment ids = .ok k ∧ g'.containment ids = .ok k' ∧ k'.size = k.size ∧
        ∀ id, k'.contains id = k.contains id := by
  have hfirst : (ids.find? fun id => (g'.directory.node? id).isNone) =
      ids.find? fun id => (g.directory.node? id).isNone := by
    congr 1
    funext id
    rw [← Option.not_isSome, ← Option.not_isSome, hag.known]
  have hk := containment_eq g ids
  have hk' := containment_eq g' ids
  rw [hfirst] at hk'
  cases hunknown : ids.find? fun id => (g.directory.node? id).isNone with
  | some id =>
      rw [hunknown] at hk hk'
      exact Or.inl ⟨_, hk, hk'⟩
  | none =>
      rw [hunknown] at hk hk'
      exact Or.inr ⟨_, _, hk, hk', same_contained hg hg' hk hk'⟩

variable [LawfulBEq α] (hheads : ∀ id, id ∈ heads ↔ id ∈ heads')

include hheads

/-- The heads that contain a node have the same names. -/
theorem idsOf_containing {x x' : NodeId} (hx : g.directory.node? id = some x)
    (hx' : g'.directory.node? id = some x') :
    g'.directory.idsOf (g'.history.containing x' g'.heads.contains) =
      g.directory.idsOf (g.history.containing x g.heads.contains) := by
  have hname : g'.headId? x' = g.headId? x := by
    have hsame : heads'.contains id = heads.contains id := by
      rw [Bool.eq_iff_iff, List.contains_iff_mem, List.contains_iff_mem, hheads]
    rw [hg.headId?_eq hx, hg'.headId?_eq hx', hsame]
  have hloaded : ∀ n, g'.headId? (.loaded n) = g.headId? (.loaded n) := by
    intro n
    have hsame : g'.heads.contains (.loaded n) = g.heads.contains (.loaded n) := by
      rw [Bool.eq_iff_iff, List.contains_iff_mem, List.contains_iff_mem, hag.heads]
    rw [headId?, headId?, hsame, hag.id?]
  have hrest : ∀ y ∈ ((g.history.walk [x] .up).map NodeId.loaded).filter (· ≠ x),
      g'.headId? y = g.headId? y := by
    intro y hy
    obtain ⟨n, _, rfl⟩ := List.mem_map.mp (List.mem_filter.mp hy).1
    exact hloaded n
  unfold Directory.idsOf History.containing
  rw [hag.history, List.filterMap_filter, List.filterMap_filter]
  show List.filterMap g'.headId? _ = List.filterMap g.headId? _
  rw [hag.reached_up hg hg' hx hx', List.filterMap_cons, List.filterMap_cons, hname,
    List.filterMap_congr hrest]

theorem containingHeads (id : α) : g'.containingHeads id = g.containingHeads id := by
  have hknown := hag.known id
  cases hx : g.directory.node? id with
  | none =>
      rw [hx, Option.isSome_none, Option.isSome_eq_false_iff, Option.isNone_iff_eq_none] at hknown
      rw [Graph.containingHeads, Graph.containingHeads, lookup_of_unknown hx,
        lookup_of_unknown hknown]
      rfl
  | some x =>
      rw [hx, Option.isSome_some, Option.isSome_iff_exists] at hknown
      obtain ⟨x', hx'⟩ := hknown
      rw [Graph.containingHeads, Graph.containingHeads, lookup_of_node? hx, lookup_of_node? hx']
      exact congrArg Except.ok (hag.idsOf_containing hg hg' hheads hx hx')

end Agree

/-! ## lanes and the rebase order -/

namespace Agree

variable (hag : Agree commits g g')

include hag

theorem nodeOf? (id : α) : g'.nodeOf? id = g.nodeOf? id := by
  ext n
  rw [nodeOf?_eq_some_iff, nodeOf?_eq_some_iff, hag.stands]

theorem sameLanes : SameLanes g g' := by
  constructor
  · intro id
    rw [laneOf?, laneOf?, hag.nodeOf?, hag.lanes]
  · rw [headIds, headIds, hag.lanes, hag.idsOf_loaded]
  · rw [hag.lanes]
  · intro id
    unfold headOf?
    rw [hag.nodeOf?, hag.lanes]
    simp only [hag.id?]

theorem rebasedIds : g'.rebasedIds = g.rebasedIds := by
  rw [Graph.rebasedIds, Graph.rebasedIds, hag.order, hag.idsOf_loaded]

end Agree

end Graph

end Lineage
