import Mathlib.Data.List.Forall2
import Lineage.Graph
import Lineage.Proofs.Directory
import Lineage.Proofs.Interleave
import Lineage.Proofs.Via

/-!
# Lineage.Proofs.Graph

A graph that loads: its directory and its history speak of the same nodes,
and so they do after a view has asked for the rebase order.

* `Graph.StateOf` — the states a graph of a commit list can be in;
  `Graph.load_of_stateOf` and `Graph.rebaseOrder_of_stateOf` tell them apart.
* `Graph.Sound` — what holds in all of them; `Graph.sound_of_stateOf`.
-/

namespace Lineage

variable {α : Type} [BEq α] [Hashable α]

/-- Whether the second commit is a listed parent of the first one. -/
def ParentOf (commits : List (Commit α)) (a b : α) : Prop :=
  ∃ c ∈ commits, c.id = a ∧ b ∈ c.parents ∧ b ∈ commits.map (·.id)

namespace Graph

/-- The states of the graph of a commit list: as it was loaded, or after its
rebase order has been asked for. -/
inductive StateOf (commits : List (Commit α)) (palette : Palette α) (heads : List α)
    (config : Config) : Graph α → Prop where
  | loaded {g : Graph α} : Graph.load commits palette heads config = .ok g →
      StateOf commits palette heads config g
  | asked {g : Graph α} : StateOf commits palette heads config g →
      StateOf commits palette heads config g.rebaseOrder.2

/-- A graph whose directory and history are those of a commit list. -/
structure Sound (g : Graph α) (commits : List (Commit α)) : Prop where
  history : g.history.Sound
  /-- A listed id has its position as node, an id that is only mentioned its
  slot. -/
  node?_iff : ∀ {id node}, g.directory.node? id = some node ↔
    (∃ n : Nat, (commits.map (·.id))[n]? = some id ∧ .loaded n = node) ∨
      ∃ s, g.directory.id? (.missing s) = some id ∧ .missing s = node
  size_eq : g.history.size = commits.length
  /-- The parents of a node are the nodes of the parents its commit lists. -/
  parents : ∀ {n : Nat} {c}, commits[n]? = some c →
    (g.history.parentsOf n).map some = c.parents.map g.directory.node?
  rebased : ∀ {order}, g.rebased = some order → order.Topological g.history

variable {commits : List (Commit α)} {palette : Palette α} {heads : List α} {config : Config}
  {g : Graph α}

/-- A graph that loads has the history of its commit list, a directory of the
placeholders taken for parents and heads, and the lanes and head nodes that
follow from these. -/
theorem eq_of_load (hload : Graph.load commits palette heads config = .ok g) :
    ∃ slots, History.load commits .empty = .ok (g.history, slots) ∧
      g.directory = .ofCommits commits (slots.reserve (heads.filter fun head =>
        !(Std.HashSet.ofList (commits.map (·.id))).contains head)).commits.toList ∧
      g.lanes = .ofHistory g.history (compareNodes g.directory palette) ∧
      g.heads = g.directory.nodesOf heads ∧ g.rebased = none := by
  rw [load] at hload
  split at hload
  · contradiction
  · next history slots hhistory =>
      obtain rfl := Except.ok.inj hload
      exact ⟨slots, hhistory, rfl, rfl, rfl, rfl⟩

/-- A graph loads when its history does. -/
theorem exists_load {slots : Placeholders α} {h : History}
    (hhistory : History.load commits .empty = .ok (h, slots)) :
    ∃ g, Graph.load commits palette heads config = .ok g ∧ g.history = h := by
  rw [load, hhistory]
  exact ⟨_, rfl, rfl⟩

theorem exists_load_of_isSome
    (hhistory : (History.load commits .empty).toOption.isSome = true) (palette : Palette α)
    (heads : List α) (config : Config) : ∃ g, Graph.load commits palette heads config = .ok g := by
  cases hload : History.load commits .empty with
  | error e => simp [hload, Except.toOption] at hhistory
  | ok loaded =>
      obtain ⟨g, hg, _⟩ := exists_load hload
      exact ⟨g, hg⟩

/-! ## commits and their nodes -/

/-- A node stands for a commit. -/
def Stands (g : Graph α) (id : α) (n : Nat) : Prop := g.directory.node? id = some (.loaded n)

theorem Sound.stands_iff (hg : g.Sound commits) {id : α} {n : Nat} :
    g.Stands id n ↔ (commits.map (·.id))[n]? = some id := by
  rw [Stands, hg.node?_iff]
  constructor
  · rintro (⟨m, hm, heq⟩ | ⟨s, _, heq⟩)
    · exact NodeId.loaded.inj heq ▸ hm
    · contradiction
  · exact fun hn => Or.inl ⟨n, hn, rfl⟩

theorem Sound.stands_inj (hg : g.Sound commits) {a b : α} {n : Nat} (ha : g.Stands a n)
    (hb : g.Stands b n) : a = b :=
  Option.some.inj ((hg.stands_iff.mp ha).symm.trans (hg.stands_iff.mp hb))

theorem stands_unique {a : α} {m n : Nat} (hm : g.Stands a m) (hn : g.Stands a n) : m = n :=
  NodeId.loaded.inj (Option.some.inj (hm.symm.trans hn))

theorem Sound.exists_commit (hg : g.Sound commits) {a : α} {n : Nat} (ha : g.Stands a n) :
    ∃ c, commits[n]? = some c ∧ c.id = a := by
  have hget := hg.stands_iff.mp ha
  rw [List.getElem?_map, Option.map_eq_some_iff] at hget
  exact hget

theorem Sound.getElem?_of_stands (hg : g.Sound commits) {c : Commit α} {n : Nat}
    (hc : c ∈ commits) (hn : g.Stands c.id n) : commits[n]? = some c := by
  obtain ⟨m, hm⟩ := List.mem_iff_getElem?.mp hc
  have hstands : g.Stands c.id m := hg.stands_iff.mpr (by simp [hm])
  rwa [stands_unique hn hstands]

theorem Sound.lt_size (hg : g.Sound commits) {a : α} {n : Nat} (ha : g.Stands a n) :
    n < g.history.size := by
  obtain ⟨c, hc, _⟩ := hg.exists_commit ha
  rw [hg.size_eq]
  exact (List.getElem?_eq_some_iff.mp hc).1

theorem Sound.stands_of_mem (hg : g.Sound commits) {a : α} (ha : a ∈ commits.map (·.id)) :
    ∃ n, g.Stands a n := by
  obtain ⟨n, hn⟩ := List.mem_iff_getElem?.mp ha
  exact ⟨n, hg.stands_iff.mpr hn⟩

theorem Sound.exists_stands (hg : g.Sound commits) {n : Nat} (hn : n < g.history.size) :
    ∃ a, g.Stands a n := by
  rw [hg.size_eq] at hn
  exact ⟨commits[n].id, hg.stands_iff.mpr (by simp [hn])⟩

/-- The parents of a node are the nodes of the parents its commit lists. -/
theorem Sound.mem_parentsOf (hg : g.Sound commits) {n : Nat} {c : Commit α}
    (hc : commits[n]? = some c) {node : NodeId} :
    node ∈ g.history.parentsOf n ↔ ∃ p ∈ c.parents, g.directory.node? p = some node := by
  have hmem : some node ∈ (g.history.parentsOf n).map some ↔ node ∈ g.history.parentsOf n := by
    simp
  rw [← hmem, hg.parents hc, List.mem_map]

/-- A listed parent is a parent in the history. -/
theorem Sound.parentOf_iff (hg : g.Sound commits) {a b : α} {u v : Nat} (ha : g.Stands a u)
    (hb : g.Stands b v) : ParentOf commits a b ↔ g.history.IsParent u v := by
  obtain ⟨c, hc, rfl⟩ := hg.exists_commit ha
  rw [History.IsParent, History.mem_loadedParents, hg.mem_parentsOf hc]
  constructor
  · rintro ⟨d, hd, hid, hbd, _⟩
    have hget := hg.getElem?_of_stands hd (hid ▸ ha)
    obtain rfl := Option.some.inj (hc.symm.trans hget)
    exact ⟨b, hbd, hb⟩
  · rintro ⟨p, hp, hnode⟩
    obtain rfl := hg.stands_inj hb hnode
    exact ⟨c, List.mem_of_getElem? hc, rfl, hp, List.mem_of_getElem? (hg.stands_iff.mp hb)⟩

/-- A parent that is not listed has a placeholder of its own. -/
theorem Sound.exists_missing (hg : g.Sound commits) {n : Nat} {c : Commit α}
    (hc : commits[n]? = some c) {p : α} (hp : p ∈ c.parents) (hnew : p ∉ commits.map (·.id)) :
    ∃ s, g.directory.node? p = some (.missing s) ∧ g.directory.id? (.missing s) = some p := by
  have hmem : g.directory.node? p ∈ c.parents.map g.directory.node? := List.mem_map_of_mem hp
  rw [← hg.parents hc, List.mem_map] at hmem
  obtain ⟨node, _, hnode⟩ := hmem
  rcases hg.node?_iff.mp hnode.symm with ⟨m, hm, _⟩ | ⟨s, hs, rfl⟩
  · exact absurd (List.mem_of_getElem? hm) hnew
  · exact ⟨s, hnode.symm, hs⟩

/-- Listed parents are the parents in the history. -/
theorem Sound.mirrors (hg : g.Sound commits) :
    Mirrors g.Stands (ParentOf commits) g.history.IsParent where
  unique := stands_unique
  inj := hg.stands_inj
  link_iff := hg.parentOf_iff
  target {a b} hab := by
    obtain ⟨_, _, _, _, hb⟩ := hab
    exact hg.stands_of_mem hb
  target_on hp := hg.exists_stands (hg.history.linked.parent_lt hp)

/-! ## loading -/

theorem rebaseOrder_snd (g : Graph α) :
    g.rebaseOrder.2 = { g with rebased := some g.rebaseOrder.1 } := by
  rw [rebaseOrder]
  split
  · next order horder => rw [← horder]
  · rfl

/-- Asking for the rebase order keeps a graph sound. -/
theorem Sound.rebaseOrder (hg : g.Sound commits) :
    g.rebaseOrder.1.Topological g.history ∧ g.rebaseOrder.2.Sound commits := by
  rw [Graph.rebaseOrder]
  split
  · next order horder => exact ⟨hg.rebased horder, hg⟩
  · have horder := hg.history.rebaseOrder g.lanes fun n => g.directory.timestamp (.loaded n)
    refine ⟨horder, hg.history, hg.node?_iff, hg.size_eq, hg.parents, fun {order} h => ?_⟩
    rw [← Option.some.inj h]
    exact horder

/-- A state of a graph is the loaded graph but for the order it remembers. -/
theorem load_of_stateOf (hg : StateOf commits palette heads config g) :
    Graph.load commits palette heads config = .ok { g with rebased := none } := by
  induction hg with
  | loaded hload =>
      obtain ⟨_, _, _, _, _, hrebased⟩ := eq_of_load hload
      rw [hload, ← hrebased]
  | asked _ ih => rwa [rebaseOrder_snd]

/-- The order that a state remembers is the one it would find. -/
theorem rebaseOrder_of_stateOf (hg : StateOf commits palette heads config g) :
    g.rebaseOrder.1 =
      g.history.rebaseOrder g.lanes fun n => g.directory.timestamp (.loaded n) := by
  induction hg with
  | loaded hload =>
      obtain ⟨_, _, _, _, _, hrebased⟩ := eq_of_load hload
      rw [rebaseOrder, hrebased]
  | asked _ ih =>
      rw [rebaseOrder_snd]
      exact ih

/-- What makes up a graph is the same in all its states. -/
theorem eq_of_stateOf (hg : StateOf commits palette heads config g) :
    ∃ slots, History.load commits .empty = .ok (g.history, slots) ∧
      g.directory = .ofCommits commits (slots.reserve (heads.filter fun head =>
        !(Std.HashSet.ofList (commits.map (·.id))).contains head)).commits.toList ∧
      g.lanes = .ofHistory g.history (compareNodes g.directory palette) ∧
      g.heads = g.directory.nodesOf heads := by
  obtain ⟨slots, hhistory, hdirectory, hlanes, hheads, _⟩ := eq_of_load (load_of_stateOf hg)
  exact ⟨slots, hhistory, hdirectory, hlanes, hheads⟩

/-- A graph keeps its ranking of heads, their colors and its settings. -/
theorem settings_of_stateOf (hg : StateOf commits palette heads config g) :
    g.palette = palette ∧ g.config = config := by
  induction hg with
  | loaded hload =>
      rw [load] at hload
      split at hload
      · contradiction
      · obtain rfl := Except.ok.inj hload
        exact ⟨rfl, rfl⟩
  | asked _ ih =>
      rw [rebaseOrder_snd]
      exact ih

theorem id?_of_stateOf (hg : StateOf commits palette heads config g) (n : Nat) :
    g.directory.id? (.loaded n) = (commits.map (·.id))[n]? := by
  obtain ⟨_, _, hdirectory, _⟩ := eq_of_stateOf hg
  simp [hdirectory, Directory.id?, Directory.ofCommits]

theorem timestamp_of_stateOf (hg : StateOf commits palette heads config g) (n : Nat) :
    g.directory.timestamp (.loaded n) = (commits.map (·.timestamp)).getD n 0 := by
  obtain ⟨_, _, hdirectory, _⟩ := eq_of_stateOf hg
  simp [hdirectory, Directory.timestamp, Directory.ofCommits]

variable [LawfulBEq α]

/-- Every parent a node has in the loaded history is the node of the parent
listed in that place. -/
theorem parents_of_load {slots slots' : Placeholders α} {h : History} (hslots : slots.Numbered)
    (hload : History.load commits slots = .ok (h, slots')) {n : Nat} {c : Commit α}
    (hc : commits[n]? = some c) :
    List.Forall₂ (History.Named (History.indexOf commits) slots') c.parents (h.parentsOf n) := by
  obtain ⟨_, _, hslots', hparents, _⟩ := History.eq_of_load hload
  obtain ⟨_, htable⟩ := History.resolveCommits_spec (History.indexOf commits) hslots commits
  have hn := (List.getElem?_eq_some_iff.mp hc).1
  have hlen := htable.length_eq ▸ hn
  have hget := htable.get hn hlen
  rw [← hslots'] at hget
  have hnode : h.parentsOf n =
      (History.resolveCommits (History.indexOf commits) slots commits).1.get ⟨n, hlen⟩ := by
    simp [History.parentsOf, hparents, Array.getD_eq_getD_getElem?, hlen]
  have hcommit : commits.get ⟨n, hn⟩ = c := by
    simpa [hn] using hc
  rwa [hcommit, ← hnode] at hget

/-- The directory of a graph that loads: nodes by position in the commit list,
placeholders by their slots, which keep those taken for parents.  The parents
and heads that are not listed have one, and nobody else. -/
theorem directory_of_load {slots : Placeholders α} {h : History}
    (hhistory : History.load commits .empty = .ok (h, slots))
    (hdirectory : g.directory = .ofCommits commits (slots.reserve (heads.filter fun head =>
      !(Std.HashSet.ofList (commits.map (·.id))).contains head)).commits.toList) :
    ∃ all : Placeholders α, slots.Extends all ∧
      (∀ n, g.directory.id? (.loaded n) = (commits.map (·.id))[n]?) ∧
      (∀ s, g.directory.id? (.missing s) = all.commits[s]?) ∧
      (∀ {id node}, g.directory.node? id = some node ↔
        (∃ n : Nat, (commits.map (·.id))[n]? = some id ∧ .loaded n = node) ∨
          ∃ s : Nat, all.commits[s]? = some id ∧ .missing s = node) ∧
      (∀ id ∈ heads, id ∉ commits.map (·.id) → ∃ s : Nat, all.commits[s]? = some id) ∧
      ∀ id ∈ all.commits, id ∉ commits.map (·.id) ∧
        (id ∈ commits.flatMap (·.parents) ∨ id ∈ heads) := by
  obtain ⟨hrepeated, _, hslots, _⟩ := History.eq_of_load hhistory
  have hnodup := History.nodup_of_firstRepeated hrepeated
  have hresolving := (History.resolveCommits_spec (History.indexOf commits)
    Placeholders.numbered_empty commits).1
  rw [← hslots] at hresolving
  obtain ⟨hnumbered, hextends, hreserved, hmem⟩ := Placeholders.reserve_spec hresolving.numbered
    (heads.filter fun head => !(Std.HashSet.ofList (commits.map (·.id))).contains head)
  -- neither a parent nor a head that takes a slot is listed
  have hplaceholder : ∀ id ∈ (slots.reserve (heads.filter fun head =>
      !(Std.HashSet.ofList (commits.map (·.id))).contains head)).commits,
      id ∉ commits.map (·.id) ∧ (id ∈ commits.flatMap (·.parents) ∨ id ∈ heads) := by
    intro id hid
    rcases hmem id hid with hid | hid
    · rcases hresolving.fresh id hid with hid | ⟨hparent, hnone⟩
      · simp [Placeholders.empty] at hid
      · exact ⟨(History.getElem?_indexOf_eq_none hnodup).mp hnone, Or.inl hparent⟩
    · obtain ⟨hhead, hnew⟩ := List.mem_filter.mp hid
      exact ⟨by simpa using hnew, Or.inr hhead⟩
  refine ⟨_, hextends, fun n => ?_, fun s => ?_, fun {id node} => ?_, fun id hid hnew => ?_,
    hplaceholder⟩
  · simp [hdirectory, Directory.id?, Directory.ofCommits]
  · simp [hdirectory, Directory.id?, Directory.ofCommits]
  · rw [hdirectory, Directory.node?_ofCommits hnodup hnumbered.nodup]
    · simp
    · exact fun id hid => (hplaceholder id (by simpa using hid)).1
  · exact hreserved id (List.mem_filter.mpr ⟨hid, by simpa using hnew⟩)

/-- Every graph that loads is sound. -/
theorem sound_of_load (hload : Graph.load commits palette heads config = .ok g) :
    g.Sound commits := by
  obtain ⟨slots, hhistory, hdirectory, _, _, hrebased⟩ := eq_of_load hload
  obtain ⟨all, hextends, _, hid, hnode, _⟩ := directory_of_load hhistory hdirectory
  have hnodup := History.nodup_of_firstRepeated (History.eq_of_load hhistory).1
  refine ⟨History.sound_of_load hhistory, fun {id node} => ?_,
    (History.tabulates_of_load hhistory).size_eq, fun {n c} hc => ?_, by simp [hrebased]⟩
  · rw [hnode]
    simp only [hid]
  · refine Eq.symm ?_
    rw [← List.forall₂_eq_eq_eq, List.forall₂_map_left_iff, List.forall₂_map_right_iff]
    have hnamed := parents_of_load Placeholders.numbered_empty hhistory hc
    refine hnamed.imp fun parent node hnamed => ?_
    rw [hnode]
    cases node with
    | loaded m => exact Or.inl ⟨m, (History.getElem?_indexOf hnodup).mp hnamed, rfl⟩
    | none => exact absurd hnamed id
    | missing s => exact Or.inr ⟨s, hextends _ _ hnamed.2, rfl⟩

/-- Every state of a graph is sound. -/
theorem sound_of_stateOf (hg : StateOf commits palette heads config g) : g.Sound commits := by
  induction hg with
  | loaded hload => exact sound_of_load hload
  | asked _ ih => exact ih.rebaseOrder.2

end Graph

end Lineage
