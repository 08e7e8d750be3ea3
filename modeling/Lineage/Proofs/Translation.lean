import Lineage.Proofs.Known

/-!
# Lineage.Proofs.Translation

Names become numbers and numbers become names again.  Numbers are given to the
listed commits by their position, to parents as they are first mentioned, and to
heads at the end; whoever gets a number keeps it, and its name is found by it.

* `History.childrenOf_of_load` — the children of a node in the order of their
  numbers, once for each mention.
* `Graph.Complete.idsOf_parentsOf`, `Graph.Complete.children_of_known` — parents
  and children by name.
* `Graph.allCommits_of_stateOf` — a graph lists the commits it is made from.
* `Graph.numbering_of_stateOf` — names and numbers are a bijection.
-/

namespace Lineage

namespace History

variable {x : NodeId}

/-! ## children of nodes -/

/-- The mentions of a node, picked out by the number `k` it has among others of
its kind. -/
theorem map_filter_mentions {pick : Nat × NodeId → Option (Nat × Nat)} {k : Nat}
    (hpick : ∀ m child, pick m = some (k, child) ↔ m = (child, x)) (ms : List (Nat × NodeId)) :
    ((ms.filterMap pick).filter (·.1 == k)).map (·.2) = (ms.filter (·.2 == x)).map (·.1) := by
  induction ms with
  | nil => rfl
  | cons m ms ih =>
      by_cases hm : m.2 = x
      · have hsome : pick m = some (k, m.1) := (hpick m m.1).mpr (by rw [← hm])
        rw [List.filterMap_cons_some hsome, List.filter_cons_of_pos (by simp),
          List.filter_cons_of_pos (by simp [hm]), List.map_cons, List.map_cons, ih]
      · rw [List.filter_cons_of_neg (by simp [hm]), ← ih]
        cases hsome : pick m with
        | none => rw [List.filterMap_cons_none hsome]
        | some entry =>
            have hk : entry.1 ≠ k := fun hk => hm (by rw [(hpick m entry.2).mp (by rw [hsome, ← hk])])
            rw [List.filterMap_cons_some hsome, List.filter_cons_of_neg (by simp [hk])]

/-- All mentions, line by line of the table of parents. -/
theorem mentions_eq_flatMap (parents : List (List NodeId)) : mentions parents =
    (List.range parents.length).flatMap fun n => (parents.getD n []).map (n, ·) := by
  have hlines : parents.zipIdx = (List.range parents.length).map fun n => (parents.getD n [], n) := by
    refine List.ext_getElem (by simp) fun n hn _ => ?_
    simp only [List.length_zipIdx] at hn
    simp [hn]
  rw [mentions, hlines, List.flatMap_map]

/-- The mentions of a node, line by line of the table of parents. -/
theorem map_filter_mentions_eq_flatMap (parents : List (List NodeId)) :
    ((mentions parents).filter (·.2 == x)).map (·.1) =
      (List.range parents.length).flatMap fun n => List.replicate ((parents.getD n []).count x) n := by
  have hline : ∀ (ps : List NodeId) (n : Nat),
      ((ps.map (n, ·)).filter (·.2 == x)).map (·.1) = List.replicate (ps.count x) n := by
    intro ps n
    rw [List.filter_map, List.map_map]
    show (ps.filter (· == x)).map (fun _ => n) = _
    rw [List.filter_beq, List.map_replicate]
  rw [mentions_eq_flatMap, List.filter_flatMap, List.map_flatMap]
  simp only [hline]

/-- What is gathered under the number of a node are its mentions. -/
theorem getD_gather_mentions {pick : Nat × NodeId → Option (Nat × Nat)} {k count : Nat}
    {parents : List (List NodeId)}
    (hpick : ∀ m child, pick m = some (k, child) ↔ m = (child, x))
    (hlt : ∀ n, x ∈ parents.getD n [] → k < count) :
    (gather count ((mentions parents).filterMap pick)).getD k [] =
      (List.range parents.length).flatMap fun n => List.replicate ((parents.getD n []).count x) n := by
  rw [← map_filter_mentions_eq_flatMap]
  by_cases hk : k < count
  · rw [gather_getD count _ hk, map_filter_mentions hpick]
  · have hnone : (mentions parents).filter (·.2 == x) = [] := by
      rw [List.filter_eq_nil_iff]
      intro m hm hx
      have hmem : (m.1, x) ∈ mentions parents := by rwa [← beq_iff_eq.mp hx]
      exact hk (hlt m.1 (mem_mentions.mp hmem))
    rw [gather_getD_of_le _ (Nat.le_of_not_lt hk), hnone, List.map_nil]

variable {α : Type} [BEq α] [Hashable α] [LawfulBEq α] {commits : List (Commit α)}
  {slots slots' : Placeholders α} {h : History}

/-- A history that loads has the children of a node in the order of their
numbers, once for each mention. -/
theorem childrenOf_of_load (hslots : slots.Numbered)
    (hload : load commits slots = .ok (h, slots')) (x : NodeId) :
    h.childrenOf x =
      (List.range h.size).flatMap fun n => List.replicate ((h.parentsOf n).count x) n := by
  have hline : ∀ n, h.parents.toList.getD n [] = h.parentsOf n := by simp [parentsOf]
  have hsize : h.parents.toList.length = h.size := by simp [size]
  have hnamed : ∀ n, x ∈ h.parents.toList.getD n [] → ∃ p, Named (indexOf commits) slots' p x := by
    intro n hx
    rw [hline] at hx
    exact Graph.exists_named hslots hload hx
  obtain ⟨_, _, _, _, hchildren, hmissing, _⟩ := eq_of_load hload
  simp only [← hline, ← hsize]
  cases x with
  | none =>
      -- nobody is a parent without a name
      have hcount : ∀ n, (h.parents.toList.getD n []).count .none = 0 := fun n =>
        List.count_eq_zero_of_not_mem fun hx => (hnamed n hx).elim fun _ hno => hno
      simp only [hcount]
      simp [childrenOf]
  | loaded p =>
      rw [childrenOf, hchildren]
      refine getD_gather_mentions (fun m child => ?_) fun n hx => ?_
      · obtain ⟨c, y⟩ := m
        cases y <;> simp [NodeId.loaded?, and_comm]
      · rw [hline] at hx
        have hp := (linked_of_load hload).parent_lt (mem_loadedParents.mpr hx)
        rwa [(tabulates_of_load hload).size_eq] at hp
  | missing s =>
      rw [childrenOf, hmissing]
      refine getD_gather_mentions (fun m child => ?_) fun n hx => ?_
      · obtain ⟨c, y⟩ := m
        cases y <;> simp [and_comm]
      · obtain ⟨_, _, hslot⟩ := hnamed n hx
        exact (Array.getElem?_eq_some_iff.mp hslot).1

end History

namespace Graph

variable {α : Type} [BEq α] [Hashable α] {g : Graph α} {commits : List (Commit α)}
  {palette : Palette α} {heads : List α} {config : Config}

/-! ## parents and children by name -/

/-- The commits that name an id as a parent, in their order and once for each
mention. -/
def childrenIn (commits : List (Commit α)) (id : α) : List α :=
  commits.flatMap fun c => List.replicate (c.parents.count id) c.id

namespace Complete

variable (hg : g.Complete commits heads) {n : Nat} {c : Commit α} {id : α} {x : NodeId}
include hg

/-- The parents of a node have the names that its commit lists. -/
theorem idsOf_parentsOf (hc : commits[n]? = some c) :
    g.directory.idsOf (g.history.parentsOf n) = c.parents := by
  have hnames : c.parents.filterMap (fun p => (g.directory.node? p).bind g.directory.id?) =
      c.parents.filterMap some := by
    refine List.filterMap_congr fun p hp => ?_
    have hknown : Known commits heads p := Or.inr (Or.inl ⟨c, List.mem_of_getElem? hc, hp⟩)
    obtain ⟨y, hy⟩ := hg.known_iff.mp hknown
    rw [hy, Option.bind_some, hg.id?_iff.mpr hy]
  calc g.directory.idsOf (g.history.parentsOf n)
      = ((g.history.parentsOf n).map some).filterMap (·.bind g.directory.id?) := by
        rw [List.filterMap_map]; rfl
    _ = (c.parents.map g.directory.node?).filterMap (·.bind g.directory.id?) := by
        rw [hg.sound.parents hc]
    _ = c.parents.filterMap some := by
        rw [List.filterMap_map]; exact hnames
    _ = c.parents := List.filterMap_some

/-- A node mentions another one as often as its commit names that one. -/
theorem count_parentsOf [LawfulBEq α] (hc : commits[n]? = some c)
    (hx : g.directory.node? id = some x) : (g.history.parentsOf n).count x = c.parents.count id := by
  rw [← List.count_map_of_injective _ some (Option.some_injective _), hg.sound.parents hc]
  unfold List.count
  rw [List.countP_map]
  refine List.countP_congr fun p _ => ?_
  simp only [Function.comp_apply, beq_iff_eq]
  constructor
  · exact fun hp => hg.mirrors.inj hp hx
  · exact fun hp => by rw [hp, hx]

end Complete

variable [LawfulBEq α]

/-- The children of a known commit are the commits that name it as a parent. -/
theorem children_of_known (hg : StateOf commits palette heads config g) {id : α}
    (hid : Known commits heads id) : g.children id = .ok (childrenIn commits id) := by
  have hgraph := complete_of_stateOf hg
  obtain ⟨slots, hhistory, _⟩ := eq_of_stateOf hg
  obtain ⟨x, hx⟩ := hgraph.known_iff.mp hid
  have hline : ∀ n ∈ List.range g.history.size,
      (List.replicate ((g.history.parentsOf n).count x) n).filterMap
          (fun m => g.directory.id? (.loaded m)) =
        (commits[n]?).toList.flatMap fun c => List.replicate (c.parents.count id) c.id := by
    intro n hn
    rw [List.mem_range, hgraph.sound.size_eq] at hn
    have hc := List.getElem?_eq_getElem hn
    have hname : g.directory.id? (.loaded n) = some commits[n].id := by
      rw [id?_of_stateOf hg, List.getElem?_map, hc, Option.map_some]
    rw [List.filterMap_replicate, hname, hgraph.count_parentsOf hc hx, hc]
    simp
  have hchildren : g.directory.idsOf ((g.history.childrenOf x).map .loaded) =
      childrenIn commits id :=
    calc g.directory.idsOf ((g.history.childrenOf x).map .loaded)
        = (List.range g.history.size).flatMap fun n =>
            (List.replicate ((g.history.parentsOf n).count x) n).filterMap
              (fun m => g.directory.id? (.loaded m)) := by
          rw [History.childrenOf_of_load Placeholders.numbered_empty hhistory, Directory.idsOf,
            List.filterMap_map, List.filterMap_flatMap]
          rfl
      _ = (List.range commits.length).flatMap fun n =>
            (commits[n]?).toList.flatMap fun c => List.replicate (c.parents.count id) c.id := by
          rw [List.flatMap_congr hline, hgraph.sound.size_eq]
      _ = ((List.range commits.length).filterMap (commits[·]?)).flatMap
            fun c => List.replicate (c.parents.count id) c.id := by
          rw [List.filterMap_eq_flatMap_toList, List.flatMap_assoc]
      _ = childrenIn commits id := by rw [filterMap_getElem?_range]; rfl
  rw [children, lookup_of_node? hx, ← hchildren]
  rfl

theorem children_of_unknown (hg : StateOf commits palette heads config g) {id : α}
    (hid : ¬ Known commits heads id) : g.children id = .error (.unknown id) := by
  rw [children, lookup_of_unknown ((complete_of_stateOf hg).unknown_iff.mp hid)]
  rfl

/-! ## the commits of a graph -/

/-- A graph lists the commits it was made from, as they were listed: none is
dropped, and every parent is there in its place, listed or not. -/
theorem allCommits_of_stateOf (hg : StateOf commits palette heads config g) :
    g.allCommits = commits := by
  have hgraph := complete_of_stateOf hg
  have hcommit : ∀ n, (g.directory.id? (.loaded n)).map (fun id =>
      { id
        parents := g.directory.idsOf (g.history.parentsOf n)
        timestamp := g.directory.timestamp (.loaded n) : Commit α }) = commits[n]? := by
    intro n
    rw [id?_of_stateOf hg, timestamp_of_stateOf hg]
    cases hc : commits[n]? with
    | none => simp [hc]
    | some c => simp [hc, hgraph.idsOf_parentsOf hc]
  unfold allCommits
  simp only [hcommit]
  rw [hgraph.sound.size_eq, filterMap_getElem?_range]

/-- A base in front of a merge that names a side twice, as it does a parent that
is not listed. -/
def repeatedCommits : List (Commit String) :=
  [⟨"base", [], 1⟩, ⟨"merge", ["side", "gone", "base", "side", "gone"], 3⟩,
    ⟨"side", ["base", "lost"], -2⟩]

theorem load_repeated :
    ∃ g, Graph.load repeatedCommits .standard ["ghost", "merge", "gone"] {} = .ok g :=
  exists_load_of_isSome (by cbv) _ _ _

/-- The merge comes back with its five parents. -/
theorem allCommits_of_stateOf_repeated :
    ∃ g, Graph.load repeatedCommits .standard ["ghost", "merge", "gone"] {} = .ok g ∧
      g.allCommits = repeatedCommits := by
  obtain ⟨g, hload⟩ := load_repeated
  exact ⟨g, hload, allCommits_of_stateOf (.loaded hload)⟩

/-! ## names and numbers -/

/-- The known commits that are not listed, each once. -/
def unlisted (commits : List (Commit α)) (heads : List α) : List α :=
  ((commits.flatMap (·.parents) ++ heads).filter
    fun id => !(commits.map (·.id)).contains id).eraseDups

omit [Hashable α] in
theorem mem_unlisted {id : α} :
    id ∈ unlisted commits heads ↔ Known commits heads id ∧ id ∉ commits.map (·.id) := by
  unfold unlisted Known
  rw [List.mem_eraseDups, List.mem_filter, List.mem_append, List.mem_flatMap]
  simp only [List.contains_eq_mem, Bool.not_eq_true', decide_eq_false_iff_not]
  refine and_congr_left fun hnew => ?_
  constructor
  · exact Or.inr
  · exact fun hknown => hknown.resolve_left hnew

/-- A graph whose names and numbers are a bijection between the known commits
and the integers from `0` up, as many as there are listed commits, and from `-2`
down, as many as there are others. -/
structure Numbering (g : Graph α) (commits : List (Commit α)) (heads : List α) : Prop where
  id?_iff : ∀ {id node}, g.directory.id? node = some id ↔ g.directory.node? id = some node
  known_iff : ∀ {id}, (∃ node, g.directory.node? id = some node) ↔ Known commits heads id
  number_iff : ∀ i : Int, (∃ id, g.directory.id? (.ofInt i) = some id) ↔
    0 ≤ i ∧ i < commits.length ∨ -((unlisted commits heads).length + 1) ≤ i ∧ i ≤ -2
  /-- No listed commit has a placeholder, be it a head or not. -/
  listed : ∀ {id}, id ∈ commits.map (·.id) → ∀ slot, g.directory.id? (.missing slot) ≠ some id
  children : ∀ {id}, Known commits heads id → g.children id = .ok (childrenIn commits id)
  unknown : ∀ {id}, ¬ Known commits heads id → g.children id = .error (.unknown id)

namespace Complete

omit [LawfulBEq α] in
theorem getElem?_missing (hg : g.Complete commits heads) {s : Nat} {id : α} :
    g.directory.missing.toList[s]? = some id ↔ g.directory.node? id = some (.missing s) := by
  rw [← hg.id?_iff, Array.getElem?_toList]
  rfl

omit [LawfulBEq α] in
/-- No commit has two placeholders. -/
theorem nodup_missing (hg : g.Complete commits heads) : g.directory.missing.toList.Nodup := by
  rw [List.nodup_iff_pairwise_ne, List.pairwise_iff_getElem]
  intro s k hs hk hsk heq
  have hs' := hg.getElem?_missing.mp (List.getElem?_eq_getElem hs)
  have hk' := hg.getElem?_missing.mp (List.getElem?_eq_getElem hk)
  rw [heq, hk'] at hs'
  exact Nat.ne_of_gt hsk (NodeId.missing.inj (Option.some.inj hs'))

/-- The placeholders are those of the known commits that are not listed. -/
theorem perm_missing (hg : g.Complete commits heads) :
    g.directory.missing.toList.Perm (unlisted commits heads) := by
  refine (List.perm_ext_iff_of_nodup hg.nodup_missing (nodup_eraseDups _)).mpr fun id => ?_
  show _ ↔ id ∈ unlisted commits heads
  rw [mem_unlisted, List.mem_iff_getElem?]
  simp only [hg.getElem?_missing]
  constructor
  · intro hslot
    obtain ⟨s, hs⟩ := hslot
    refine ⟨hg.known_iff.mpr ⟨_, hs⟩, fun hlisted => ?_⟩
    obtain ⟨n, hn⟩ := hg.sound.stands_of_mem hlisted
    exact absurd (hs.symm.trans hn) (by simp)
  · intro hunlisted
    obtain ⟨hknown, hnew⟩ := hunlisted
    obtain ⟨node, hnode⟩ := hg.known_iff.mp hknown
    rcases hg.sound.node?_iff.mp hnode with ⟨n, hn, _⟩ | ⟨s, _, rfl⟩
    · exact absurd (List.mem_of_getElem? hn) hnew
    · exact ⟨s, hnode⟩

end Complete

/-- The numbers with a name: one for every listed commit, and one for every
placeholder. -/
theorem number_iff_of_stateOf (hg : StateOf commits palette heads config g) (i : Int) :
    (∃ id, g.directory.id? (.ofInt i) = some id) ↔
      0 ≤ i ∧ i < commits.length ∨ -((unlisted commits heads).length + 1) ≤ i ∧ i ≤ -2 := by
  have hi := NodeId.toInt_ofInt i
  cases hnode : NodeId.ofInt i with
  | loaded n =>
      rw [hnode, NodeId.toInt] at hi
      have hget : (∃ id, g.directory.id? (.loaded n) = some id) ↔ n < commits.length := by
        rw [← Option.isSome_iff_exists, id?_of_stateOf hg]
        simp
      rw [hget]
      omega
  | none =>
      rw [hnode, NodeId.toInt] at hi
      simp only [Directory.id?, reduceCtorEq, exists_false, false_iff]
      omega
  | missing s =>
      rw [hnode, NodeId.toInt] at hi
      have hlen := (complete_of_stateOf hg).perm_missing.length_eq
      rw [Array.length_toList] at hlen
      have hget : (∃ id, g.directory.id? (.missing s) = some id) ↔
          s < (unlisted commits heads).length := by
        rw [← Option.isSome_iff_exists, Directory.id?, ← hlen]
        simp
      rw [hget]
      omega

/-- Names and numbers are a bijection in every graph, and the children of a
commit are found through it. -/
theorem numbering_of_stateOf (hg : StateOf commits palette heads config g) :
    g.Numbering commits heads := by
  have hgraph := complete_of_stateOf hg
  refine ⟨hgraph.id?_iff, hgraph.known_iff.symm, number_iff_of_stateOf hg,
    fun {id} hlisted slot hslot => ?_, children_of_known hg, children_of_unknown hg⟩
  obtain ⟨n, hn⟩ := hgraph.sound.stands_of_mem hlisted
  exact absurd ((hgraph.id?_iff.mp hslot).symm.trans hn) (by simp)

/-- The numbers of the base, the merge and the side, and those of two parents
and a head that are not listed. -/
theorem numbering_of_stateOf_repeated :
    ∃ g, Graph.load repeatedCommits .standard ["ghost", "merge", "gone"] {} = .ok g ∧
      g.Numbering repeatedCommits ["ghost", "merge", "gone"] ∧
      g.children "side" = .ok ["merge", "merge"] ∧ g.children "ghost" = .ok [] := by
  obtain ⟨g, hload⟩ := load_repeated
  have hnumbering := numbering_of_stateOf (.loaded hload)
  have hside : Known repeatedCommits ["ghost", "merge", "gone"] "side" := Or.inl (by decide)
  have hghost : Known repeatedCommits ["ghost", "merge", "gone"] "ghost" := Or.inr (Or.inr (by decide))
  refine ⟨g, hload, hnumbering, ?_, ?_⟩
  · rw [hnumbering.children hside]
    decide
  · rw [hnumbering.children hghost]
    decide

end Graph

end Lineage
