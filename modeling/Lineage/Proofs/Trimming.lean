import Lineage.Proofs.Agreement
import Lineage.Proofs.LoadedEdges
import Lineage.Proofs.Translation

/-!
# Lineage.Proofs.Trimming

Mentions of parents that are not listed.  Some of them may be left out: what is
left loads, and all that is said about listed commits stays the same.

* `LeavesOut`, `Trimmed` — a commit list with some of these mentions left out.
* `History.exists_load_of_trimmed` — its history has the same edges between
  loaded nodes, and the same order of the nodes.
* `Graph.AlikeOnListed`, `Graph.alikeOnListed_of_trimmed` — its graph has the same
  lanes, orders, walks and containment.
-/

namespace Lineage

variable {α : Type}

/-! ## mentions left out -/

/-- The second list is the first one with some values left out that are not
listed. -/
inductive LeavesOut (listed : List α) : List α → List α → Prop where
  | nil : LeavesOut listed [] []
  | keep (p : α) {ps ps' : List α} : LeavesOut listed ps ps' → LeavesOut listed (p :: ps) (p :: ps')
  | drop {p : α} {ps ps' : List α} : p ∉ listed → LeavesOut listed ps ps' →
      LeavesOut listed (p :: ps) ps'

/-- The second commit is the first one with some parents left out that are not
listed. -/
structure Commit.Trims (listed : List α) (c c' : Commit α) : Prop where
  id_eq : c'.id = c.id
  timestamp_eq : c'.timestamp = c.timestamp
  parents : LeavesOut listed c.parents c'.parents

/-- The second list holds the commits of the first one, with some mentions of
parents left out that it does not list. -/
def Trimmed (commits commits' : List (Commit α)) : Prop :=
  List.Forall₂ (Commit.Trims (commits.map (·.id))) commits commits'

variable {listed ps ps' : List α} {commits commits' : List (Commit α)}

theorem LeavesOut.sublist (hps : LeavesOut listed ps ps') : ps'.Sublist ps := by
  induction hps with
  | nil => exact .slnil
  | keep p _ ih => exact ih.cons_cons p
  | drop _ _ ih => exact ih.cons _

/-- A reading that skips what is not listed does not miss it. -/
theorem LeavesOut.filterMap_eq {β : Type} {f : α → Option β} (hps : LeavesOut listed ps ps')
    (hf : ∀ p, p ∉ listed → f p = none) : ps'.filterMap f = ps.filterMap f := by
  induction hps with
  | nil => rfl
  | keep p _ ih => rw [List.filterMap_cons, List.filterMap_cons, ih]
  | drop hp _ ih => rw [List.filterMap_cons_none (hf _ hp), ih]

namespace Trimmed

/-- A reading of commits that is the same without the mentions left out. -/
theorem map_eq {β : Type} {f : Commit α → β} (ht : Trimmed commits commits')
    (hf : ∀ c c', Commit.Trims (commits.map (·.id)) c c' → f c' = f c) :
    commits'.map f = commits.map f := by
  refine Eq.symm ?_
  rw [← List.forall₂_eq_eq_eq, List.forall₂_map_left_iff, List.forall₂_map_right_iff]
  exact List.Forall₂.imp (fun c c' hc => (hf c c' hc).symm) ht

theorem ids_eq (ht : Trimmed commits commits') : commits'.map (·.id) = commits.map (·.id) :=
  ht.map_eq fun _ _ hc => hc.id_eq

theorem timestamps_eq (ht : Trimmed commits commits') :
    commits'.map (·.timestamp) = commits.map (·.timestamp) :=
  ht.map_eq fun _ _ hc => hc.timestamp_eq

end Trimmed

variable [BEq α] [Hashable α]

namespace History

/-! ## what is loaded -/

/-- The positions of a list's ids depend on the ids alone. -/
theorem indexOf_congr (hids : commits'.map (·.id) = commits.map (·.id)) :
    indexOf commits' = indexOf commits := by
  have hindex : ∀ cs : List (Commit α), indexOf cs =
      (cs.map (·.id)).zipIdx.foldl (fun index p => index.insert p.1 p.2) ∅ := by
    intro cs
    rw [List.zipIdx_map, List.foldl_map]
    rfl
  rw [hindex, hindex, hids]

section Table

variable {parents parents' : List (List NodeId)}
  (hnodes : parents'.map loadedNodes = parents.map loadedNodes)
include hnodes

/-- The pairs of parent and child depend on the loaded parents alone. -/
theorem loadedMentions_congr : loadedMentions parents' = loadedMentions parents := by
  have hmentions : ∀ table : List (List NodeId), loadedMentions table =
      (table.map loadedNodes).zipIdx.flatMap fun line => line.1.map (·, line.2) := by
    intro table
    rw [loadedMentions_eq_flatMap, List.zipIdx_map, List.flatMap_map]
    rfl
  rw [hmentions, hmentions, hnodes]

theorem loadedNodes_getD_congr (n : Nat) :
    loadedNodes (parents'.toArray.getD n []) = loadedNodes (parents.toArray.getD n []) := by
  have hline : ∀ table : List (List NodeId), loadedNodes (table.toArray.getD n []) =
      (table.map loadedNodes).getD n [] := by
    intro table
    cases hget : table[n]? with
    | none => simp [hget, loadedNodes]
    | some ids => simp [hget]
  rw [hline, hline, hnodes]

/-- So does the order of the nodes. -/
theorem orderOf?_congr (children : Array (List Nat)) :
    orderOf? parents'.toArray children = orderOf? parents.toArray children := by
  have hlength : parents'.length = parents.length := by
    simpa using congrArg List.length hnodes
  unfold orderOf? isChildrenFirst childrenFirst
  simp only [List.size_toArray, hlength, loadedMentions_congr hnodes,
    loadedNodes_getD_congr hnodes]

end Table

/-! ## loading what is left -/

variable [LawfulBEq α] {slots slots' : Placeholders α} {h h' : History}

/-- Without the mentions left out no node has other loaded parents. -/
theorem map_loadedNodes_trimmed (ht : Trimmed commits commits')
    (hload : load commits slots = .ok (h, slots')) (taken taken' : Placeholders α) :
    (resolveCommits (indexOf commits') taken' commits').1.map loadedNodes =
      (resolveCommits (indexOf commits) taken commits).1.map loadedNodes := by
  have hnodup := nodup_of_firstRepeated (eq_of_load hload).1
  rw [map_loadedNodes_resolveCommits, map_loadedNodes_resolveCommits, indexOf_congr ht.ids_eq]
  exact ht.map_eq fun c c' hc =>
    hc.parents.filterMap_eq fun p hp => (getElem?_indexOf_eq_none hnodup).mpr hp

omit [Hashable α] in
/-- No commit becomes its own parent. -/
theorem firstOwnParent_trimmed (ht : Trimmed commits commits')
    (hown : firstOwnParent commits = none) : firstOwnParent commits' = none := by
  unfold firstOwnParent at *
  rw [List.find?_eq_none] at *
  simp only [List.contains_iff_mem] at *
  unfold Trimmed at ht
  generalize commits.map (·.id) = listed at ht
  induction ht with
  | nil => simp
  | cons hc _ ih =>
      rw [List.forall_mem_cons] at *
      refine ⟨fun hmem => hown.1 ?_, ih hown.2⟩
      rw [hc.id_eq] at hmem
      exact hc.parents.sublist.subset hmem

/-- A list that loads does so without the mentions left out, with the same edges
between loaded nodes and in the same order. -/
theorem exists_load_of_trimmed (ht : Trimmed commits commits')
    (hload : load commits slots = .ok (h, slots')) (taken : Placeholders α) :
    ∃ h' taken', load commits' taken = .ok (h', taken') ∧ SameEdges h h' ∧ h'.order = h.order := by
  obtain ⟨hrepeated, hown, _, hparents, hchildren, _, horder⟩ := eq_of_load hload
  have hnodes := map_loadedNodes_trimmed ht hload slots taken
  have hlength : commits'.length = commits.length := by
    simpa using congrArg List.length ht.ids_eq
  have hchildren' : gather commits'.length
      (loadedMentions (resolveCommits (indexOf commits') taken commits').1) = h.children := by
    rw [hchildren, hparents, hlength, loadedMentions_congr hnodes]
  have horder' : orderOf? (resolveCommits (indexOf commits') taken commits').1.toArray
      h.children = some h.order := by
    rw [orderOf?_congr hnodes, ← hparents, horder]
  have hload' : ∃ h' taken', load commits' taken = .ok (h', taken') ∧
      h'.parents = (resolveCommits (indexOf commits') taken commits').1.toArray ∧
      h'.children = h.children ∧ h'.order = h.order := by
    unfold load
    rw [ht.ids_eq, hrepeated, firstOwnParent_trimmed ht hown]
    simp only [hchildren', horder']
    exact ⟨_, _, rfl, rfl, rfl, rfl⟩
  obtain ⟨h', taken', hload', hparents', hsame, horder'⟩ := hload'
  refine ⟨h', taken', hload', ⟨?_, fun n => ?_, fun n => ?_⟩, horder'⟩
  · simp [size, hparents, hparents', length_resolveCommits, hlength]
  · unfold loadedParents parentsOf
    rw [hparents, hparents', loadedNodes_getD_congr hnodes]
  · unfold childrenOf
    rw [hsame]

end History

namespace Graph

variable {palette : Palette α} {heads ids : List α} {config : Config} {g g' : Graph α}

/-! ## the same answers -/

/-- Graphs that draw the listed commits alike and that answer alike when asked
about them. -/
structure AlikeOnListed (commits : List (Commit α)) (g g' : Graph α) : Prop where
  layout : g.history.SameLayout g'.history
  lanes : g'.lanes = g.lanes
  rebaseOrder : g'.rebaseOrder.1 = g.rebaseOrder.1
  containingHeads : ∀ c ∈ commits.map (·.id), ∃ answer,
    g.containingHeads c = .ok answer ∧ g'.containingHeads c = .ok answer
  containment : ∀ ids, (∀ id ∈ ids, id ∈ commits.map (·.id)) → ∃ k k',
    g.containment ids = .ok k ∧ g'.containment ids = .ok k' ∧ k'.size = k.size ∧
      ∀ c, k'.contains c = k.contains c

/-- What is contained in some ids that all have a node. -/
theorem containment_of_isSome (hids : ∀ id ∈ ids, (g.directory.node? id).isSome = true) :
    g.containment ids = .ok
      { directory := g.directory
        nodes := .ofList ((g.history.reachableFrom (ids.filterMap g.directory.node?)).map
          NodeId.loaded ++ ids.filterMap g.directory.node?) } := by
  have hfind : ids.find? (fun id => (g.directory.node? id).isNone) = none := by
    rw [List.find?_eq_none]
    intro id hid
    simp [Option.isNone_eq_false_iff.mpr (hids id hid)]
  rw [containment_eq, hfind]

variable [LawfulBEq α]

section States

variable (ht : Trimmed commits commits') (hg : StateOf commits palette heads config g)
  (hg' : StateOf commits' palette heads config g')
include ht hg hg'

theorem sameEdges_of_trimmed :
    g.history.SameEdges g'.history ∧ g'.history.order = g.history.order := by
  obtain ⟨slots, hhistory, _⟩ := eq_of_stateOf hg
  obtain ⟨slots', hhistory', _⟩ := eq_of_stateOf hg'
  obtain ⟨h', taken', hload, hsame, horder⟩ := History.exists_load_of_trimmed ht hhistory .empty
  obtain ⟨rfl, rfl⟩ := Prod.mk.inj (Except.ok.inj (hload.symm.trans hhistory'))
  exact ⟨hsame, horder⟩

omit [LawfulBEq α] in
theorem id?_of_trimmed (n : Nat) :
    g'.directory.id? (.loaded n) = g.directory.id? (.loaded n) := by
  rw [id?_of_stateOf hg, id?_of_stateOf hg', ht.ids_eq]

theorem stands_of_trimmed (id : α) (n : Nat) : g'.Stands id n ↔ g.Stands id n := by
  rw [(sound_of_stateOf hg).stands_iff, (sound_of_stateOf hg').stands_iff, ht.ids_eq]

/-- A listed commit keeps its node. -/
theorem exists_stands_of_trimmed {id : α} (hid : id ∈ commits.map (·.id)) :
    ∃ n < g.history.size, g.Stands id n ∧ g'.Stands id n := by
  have hsound := sound_of_stateOf hg
  obtain ⟨n, hn⟩ := hsound.stands_of_mem hid
  exact ⟨n, hsound.lt_size hn, hn, (stands_of_trimmed ht hg hg' id n).mpr hn⟩

theorem heads_of_trimmed (n : Nat) :
    g'.heads.contains (.loaded n) = g.heads.contains (.loaded n) := by
  obtain ⟨_, _, _, _, hheads⟩ := eq_of_stateOf hg
  obtain ⟨_, _, _, _, hheads'⟩ := eq_of_stateOf hg'
  rw [Bool.eq_iff_iff, List.contains_iff_mem, List.contains_iff_mem, hheads, hheads',
    mem_nodesOf_loaded, mem_nodesOf_loaded]
  simp only [stands_of_trimmed ht hg hg']

theorem lanes_of_trimmed : g'.lanes = g.lanes := by
  obtain ⟨_, _, _, hlanes, _⟩ := eq_of_stateOf hg
  obtain ⟨_, _, _, hlanes', _⟩ := eq_of_stateOf hg'
  have hcompare : compareNodes g'.directory palette = compareNodes g.directory palette := by
    funext a b
    unfold compareNodes
    rw [id?_of_trimmed ht hg hg', id?_of_trimmed ht hg hg']
  rw [hlanes, hlanes', hcompare, (sameEdges_of_trimmed ht hg hg').1.lanes_ofHistory]

theorem rebaseOrder_of_trimmed : g'.rebaseOrder.1 = g.rebaseOrder.1 := by
  rw [rebaseOrder_of_stateOf hg, rebaseOrder_of_stateOf hg', lanes_of_trimmed ht hg hg',
    (sameEdges_of_trimmed ht hg hg').1.rebaseOrder]
  simp only [timestamp_of_stateOf hg, timestamp_of_stateOf hg', ht.timestamps_eq]

theorem containingHeads_of_trimmed {c : α} (hc : c ∈ commits.map (·.id)) :
    ∃ answer, g.containingHeads c = .ok answer ∧ g'.containingHeads c = .ok answer := by
  obtain ⟨n, hlt, hn, hn'⟩ := exists_stands_of_trimmed ht hg hg' hc
  refine ⟨g.directory.idsOf (g.history.containing (.loaded n) g.heads.contains), ?_, ?_⟩
  · rw [containingHeads, lookup_of_node? hn]
    rfl
  · rw [containingHeads, lookup_of_node? hn']
    show Except.ok (g'.directory.idsOf (g'.history.containing (.loaded n) g'.heads.contains)) = _
    rw [(sameEdges_of_trimmed ht hg hg').1.containing hlt (heads_of_trimmed ht hg hg')]
    refine congrArg Except.ok (List.filterMap_congr fun x hx => ?_)
    obtain ⟨m, rfl⟩ := History.exists_loaded_of_mem_reached (List.mem_filter.mp hx).1
    exact id?_of_trimmed ht hg hg' m

/-- What some listed ids contain is found from the same nodes. -/
theorem containment_of_trimmed (hids : ∀ id ∈ ids, id ∈ commits.map (·.id)) :
    ∃ nodes, g.containment ids = .ok ⟨g.directory, nodes⟩ ∧
      g'.containment ids = .ok ⟨g'.directory, nodes⟩ := by
  have hnode : ∀ id ∈ ids, ∃ n < g.history.size, g.Stands id n ∧ g'.Stands id n :=
    fun id hid => exists_stands_of_trimmed ht hg hg' (hids id hid)
  have hsame : ids.filterMap g'.directory.node? = ids.filterMap g.directory.node? := by
    refine List.filterMap_congr fun id hid => ?_
    obtain ⟨n, _, hn, hn'⟩ := hnode id hid
    exact Eq.trans hn' (Eq.symm hn)
  have hloaded : ∀ x ∈ ids.filterMap g.directory.node?, g.history.isLoaded x = true := by
    intro x hx
    obtain ⟨id, hid, hx⟩ := List.mem_filterMap.mp hx
    obtain ⟨n, hlt, hn, _⟩ := hnode id hid
    obtain rfl := Option.some.inj (hn.symm.trans hx)
    simpa [History.isLoaded] using hlt
  have hreached : g'.history.reachableFrom (ids.filterMap g.directory.node?) =
      g.history.reachableFrom (ids.filterMap g.directory.node?) :=
    (sameEdges_of_trimmed ht hg hg').1.walk hloaded .down
  refine ⟨_, containment_of_isSome fun id hid => ?_, ?_⟩
  · obtain ⟨n, _, hn, _⟩ := hnode id hid
    exact Option.isSome_of_eq_some hn
  · rw [containment_of_isSome fun id hid => ?_, hsame, hreached]
    obtain ⟨n, _, _, hn⟩ := hnode id hid
    exact Option.isSome_of_eq_some hn

theorem alikeOnListed_of_stateOf : AlikeOnListed commits g g' := by
  obtain ⟨hsame, horder⟩ := sameEdges_of_trimmed ht hg hg'
  refine ⟨hsame.sameLayout horder, lanes_of_trimmed ht hg hg', rebaseOrder_of_trimmed ht hg hg',
    fun c hc => containingHeads_of_trimmed ht hg hg' hc, fun ids hids => ?_⟩
  obtain ⟨nodes, hk, hk'⟩ := containment_of_trimmed ht hg hg' hids
  refine ⟨_, _, hk, hk', rfl, fun c => ?_⟩
  by_cases hc : c ∈ commits.map (·.id)
  · obtain ⟨n, _, hn, hn'⟩ := exists_stands_of_trimmed ht hg hg' hc
    unfold Containment.contains
    rw [show g.directory.node? c = _ from hn, show g'.directory.node? c = _ from hn']
  · -- neither contains a commit that is not listed
    have hnot : c ∉ ids := fun hid => hc (hids c hid)
    rw [Bool.eq_iff_iff, (complete_of_stateOf hg).contains_iff hk,
      (complete_of_stateOf hg').contains_iff hk', ht.ids_eq]
    simp only [hnot, hc, false_and]

end States

/-- A list that makes a graph still makes one when some mentions of parents that
are not listed are left out, and both graphs are drawn alike and answer alike. -/
theorem alikeOnListed_of_trimmed (ht : Trimmed commits commits')
    (hg : StateOf commits palette heads config g) :
    (∃ g', Graph.load commits' palette heads config = .ok g') ∧
      ∀ g', StateOf commits' palette heads config g' → AlikeOnListed commits g g' := by
  constructor
  · obtain ⟨_, hhistory, _⟩ := eq_of_stateOf hg
    obtain ⟨_, _, hhistory', _⟩ := History.exists_load_of_trimmed ht hhistory .empty
    obtain ⟨g', hload, _⟩ := exists_load hhistory'
    exact ⟨g', hload⟩
  · intro g' hg'
    exact alikeOnListed_of_stateOf ht hg hg'

/-- A base, a merge and a side, with one of the three mentions of parents that
are not listed. -/
def trimmedCommits : List (Commit String) :=
  [⟨"base", [], 1⟩, ⟨"merge", ["side", "base", "side", "gone"], 3⟩, ⟨"side", ["base"], -2⟩]

theorem trimmed_repeated : Trimmed repeatedCommits trimmedCommits := by
  refine .cons ⟨rfl, rfl, .nil⟩ (.cons ⟨rfl, rfl, ?_⟩ (.cons ⟨rfl, rfl, ?_⟩ .nil))
  · exact .keep _ (.drop (by decide) (.keep _ (.keep _ (.keep _ .nil))))
  · exact .keep _ (.drop (by decide) .nil)

/-- The merge names the parent that is missing once instead of twice. -/
theorem alikeOnListed_of_trimmed_repeated :
    Trimmed repeatedCommits trimmedCommits ∧
      ∃ g g', Graph.load repeatedCommits .standard ["ghost", "merge", "gone"] {} = .ok g ∧
        Graph.load trimmedCommits .standard ["ghost", "merge", "gone"] {} = .ok g' ∧
        AlikeOnListed repeatedCommits g g' := by
  obtain ⟨g, hload⟩ := load_repeated
  obtain ⟨hloads, hsame⟩ := alikeOnListed_of_trimmed trimmed_repeated (.loaded hload)
  obtain ⟨g', hload'⟩ := hloads
  exact ⟨trimmed_repeated, g, g', hload, hload', hsame g' (.loaded hload')⟩

end Graph

end Lineage
