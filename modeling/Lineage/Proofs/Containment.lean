import Lineage.Proofs.Known
import Lineage.Proofs.Selection

/-!
# Lineage.Proofs.Containment

Which heads contain a commit, and which commits some heads contain.  A chain of
parents may end at a commit that is not listed.  The heads that contain it are
found all the same, since a walk toward children may start there; but a walk
toward parents ends before it.

* `History.mem_containing` — the nodes that contain a node.
* `Graph.Complete.mem_containingHeads`, `Graph.Complete.contains_iff` — the two
  queries in terms of commits.
* `Graph.containingHeads_exact`, `Graph.containment_exact` — each query with
  its errors.
* `Graph.containment_of_missing` — where the two part.
-/

namespace Lineage

open Relation (ReflTransGen TransGen)

namespace History

variable {h : History} {node x : NodeId} {m n : Nat}

/-! ## walks toward children -/

/-- A way toward children is a chain of parents taken backward. -/
theorem reach_up_iff (hm : h.MirrorsChildren) :
    ReflTransGen (fun a b => b ∈ h.next .up a) m n ↔
      ReflTransGen h.ParentLink (.loaded n) (.loaded m) := by
  have hstep : ∀ {a b : Nat}, b ∈ h.next .up a ↔ h.ParentLink (.loaded b) (.loaded a) := by
    intro a b
    simp [next, ParentLink, hm b (.loaded a)]
  constructor
  · intro hpath
    induction hpath with
    | refl => exact .refl
    | tail _ hab ih => exact .head (hstep.mp hab) ih
  · intro hpath
    generalize hx : NodeId.loaded n = x at hpath
    induction hpath using ReflTransGen.head_induction_on generalizing n with
    | refl => rw [NodeId.loaded.inj hx]
    | head hxy hpath ih =>
        subst hx
        -- whoever comes next has a parent or is the end, so it is loaded
        rcases hpath.cases_head with rfl | ⟨_, ⟨k, rfl, _⟩, _⟩
        · exact .single (hstep.mpr hxy)
        · exact (ih rfl).tail (hstep.mpr hxy)

/-- What a walk toward children visits: the loaded nodes that are its start or
have it as an ancestor. -/
theorem mem_walk_up (hs : h.Sound) (hm : h.MirrorsChildren) :
    n ∈ h.walk [node] .up ↔ n < h.size ∧ ReflTransGen h.ParentLink (.loaded n) node := by
  have hlt : ∀ {m n}, m < h.size → ReflTransGen (fun a b => b ∈ h.next .up a) m n →
      n < h.size := by
    intro m n hmlt hpath
    rcases hpath.cases_tail with rfl | ⟨_, _, hlast⟩
    · exact hmlt
    · exact hs.next_lt hlast
  rw [mem_walk hs, List.flatMap_singleton]
  by_cases hloaded : h.isLoaded node = true
  · cases node with
    | none => simp [isLoaded] at hloaded
    | missing s => simp [isLoaded] at hloaded
    | loaded k =>
        have hk : k < h.size := by simpa [isLoaded] using hloaded
        have hstart : h.startsOf .up (.loaded k) = [k] := by
          rw [startsOf, if_pos hloaded]
          rfl
        rw [hstart, ← reach_up_iff hm]
        constructor
        · rintro ⟨m, hmem, hmlt, hpath⟩
          obtain rfl := List.mem_singleton.mp hmem
          exact ⟨hlt hmlt hpath, hpath⟩
        · exact fun hreached => ⟨k, List.mem_singleton_self k, hk, hreached.2⟩
  · have hstart : h.startsOf .up node = h.childrenOf node := by
      rw [startsOf, if_neg hloaded, if_pos rfl]
    rw [hstart]
    constructor
    · rintro ⟨m, hmem, hmlt, hpath⟩
      have hlink : h.ParentLink (.loaded m) node := ⟨m, rfl, (hm m node).mp hmem⟩
      exact ⟨hlt hmlt hpath, ((reach_up_iff hm).mp hpath).tail hlink⟩
    · rintro ⟨hn, hpath⟩
      rcases hpath.cases_tail with rfl | ⟨_, hpath, m, rfl, hparent⟩
      · exact absurd (by simpa [isLoaded] using hn) hloaded
      · exact ⟨m, (hm m node).mpr hparent, lt_size_of_mem_parentsOf hparent,
          (reach_up_iff hm).mpr hpath⟩

/-- The nodes of a set that contain a node: those that are the node or have it
as an ancestor. -/
theorem mem_containing (hs : h.Sound) (hm : h.MirrorsChildren) {isHead : NodeId → Bool} :
    x ∈ h.containing node isHead ↔ isHead x = true ∧ ReflTransGen h.ParentLink x node := by
  simp only [containing, List.mem_filter, List.mem_cons, List.mem_map, mem_walk_up hs hm,
    decide_eq_true_eq]
  rw [and_comm]
  refine and_congr_right fun _ => ?_
  constructor
  · rintro (rfl | ⟨⟨n, ⟨_, hpath⟩, rfl⟩, _⟩)
    · exact .refl
    · exact hpath
  · intro hpath
    by_cases heq : x = node
    · exact Or.inl heq
    · rcases hpath.cases_head with hsame | ⟨_, ⟨n, rfl, hparent⟩, _⟩
      · exact absurd hsame heq
      · exact Or.inr ⟨⟨n, ⟨lt_size_of_mem_parentsOf hparent, hpath⟩, rfl⟩, heq⟩

theorem nodup_containing (h : History) (node : NodeId) (isHead : NodeId → Bool) :
    (h.containing node isHead).Nodup := by
  have hinj : Function.Injective NodeId.loaded := fun _ _ heq => NodeId.loaded.inj heq
  have hreached := ((nodup_walk h [node] .up).map hinj).filter (· ≠ node)
  exact (List.nodup_cons.mpr ⟨by simp, hreached⟩).filter _

end History

namespace Graph

variable {α : Type} [BEq α] [Hashable α] {g : Graph α} {commits : List (Commit α)}
  {palette : Palette α} {heads ids : List α} {config : Config}

/-! ## queries -/

/-- Several ids are looked up together: the first unknown one is the error, and
without one all have a node. -/
theorem lookupAll_eq (g : Graph α) (ids : List α) : g.lookupAll ids =
    match ids.find? fun id => (g.directory.node? id).isNone with
    | some id => .error (.unknown id)
    | none => .ok (ids.filterMap g.directory.node?) := by
  rw [lookupAll]
  induction ids with
  | nil => rfl
  | cons id ids ih =>
      rw [List.mapM_cons, ih]
      cases hnode : g.directory.node? id with
      | none => simp [lookup_of_unknown hnode, hnode, bind, Except.bind]
      | some node =>
          rw [lookup_of_node? hnode, List.filterMap_cons_some hnode]
          cases hfind : ids.find? fun id => (g.directory.node? id).isNone with
          | some a => simp [hnode, hfind, bind, Except.bind]
          | none => simp [hnode, hfind, bind, Except.bind, pure, Except.pure]

/-- What is contained in some ids is computed from their nodes. -/
theorem containment_eq (g : Graph α) (ids : List α) : g.containment ids =
    match ids.find? fun id => (g.directory.node? id).isNone with
    | some id => .error (.unknown id)
    | none => .ok
      { directory := g.directory
        nodes := .ofList ((g.history.reachableFrom (ids.filterMap g.directory.node?)).map
          NodeId.loaded ++ ids.filterMap g.directory.node?) } := by
  rw [containment, lookupAll_eq]
  cases ids.find? fun id => (g.directory.node? id).isNone <;> rfl

namespace Complete

variable (hg : g.Complete commits heads) {c head : α}
include hg

/-- The heads that contain a commit, if it is known. -/
theorem exists_containingHeads (hc : Known commits heads c) :
    ∃ answer, g.containingHeads c = .ok answer ∧ answer.Nodup := by
  obtain ⟨node, hnode⟩ := hg.known_iff.mp hc
  refine ⟨_, by rw [containingHeads, lookup_of_node? hnode]; rfl, ?_⟩
  exact hg.nodup_idsOf (History.nodup_containing _ _ _)

theorem containingHeads_of_unknown (hc : ¬ Known commits heads c) :
    g.containingHeads c = .error (.unknown c) := by
  rw [containingHeads, lookup_of_unknown (hg.unknown_iff.mp hc)]
  rfl

/-- The heads that contain a commit are those that are the commit or have it
as an ancestor, listed or not. -/
theorem mem_containingHeads {answer : List α} (hanswer : g.containingHeads c = .ok answer) :
    head ∈ answer ↔ head ∈ heads ∧ ReflTransGen (HasParent commits) head c := by
  cases hnode : g.directory.node? c with
  | none =>
      rw [containingHeads, lookup_of_unknown hnode] at hanswer
      contradiction
  | some node =>
      rw [containingHeads, lookup_of_node? hnode] at hanswer
      obtain rfl := Except.ok.inj hanswer
      rw [hg.mem_idsOf]
      constructor
      · rintro ⟨x, hx, hhead⟩
        obtain ⟨hmem, hpath⟩ := (History.mem_containing hg.sound.history hg.children).mp hx
        exact ⟨(hg.mem_heads hhead).mp (by simpa using hmem),
          (hg.mirrors.reflTransGen_iff hhead hnode).mpr hpath⟩
      · rintro ⟨hmem, hpath⟩
        obtain ⟨x, hx⟩ := hg.known_iff.mp (Or.inr (Or.inr hmem))
        refine ⟨x, (History.mem_containing hg.sound.history hg.children).mpr ⟨?_, ?_⟩, hx⟩
        · simpa using (hg.mem_heads hx).mpr hmem
        · exact (hg.mirrors.reflTransGen_iff hx hnode).mp hpath

/-- The commits contained in some ids can be asked for if all of these are
known; otherwise the first unknown one is reported. -/
theorem containment_eq_error_iff {e : GraphError α} : g.containment ids = .error e ↔
    ∃ earlier id later, ids = earlier ++ id :: later ∧
      (∀ a ∈ earlier, Known commits heads a) ∧ ¬ Known commits heads id ∧ e = .unknown id := by
  have hfirst : g.containment ids = .error e ↔
      ∃ id, ids.find? (fun id => (g.directory.node? id).isNone) = some id ∧ e = .unknown id := by
    rw [containment_eq]
    cases ids.find? fun id => (g.directory.node? id).isNone <;> simp [eq_comm]
  have hknown : ∀ {a}, (!(g.directory.node? a).isNone) = true ↔ Known commits heads a := by
    intro a
    rw [hg.known_iff, Option.not_isNone, Option.isSome_iff_exists]
  simp only [hfirst, List.find?_eq_some_iff_append, hknown, Option.isNone_iff_eq_none,
    ← hg.unknown_iff]
  constructor
  · rintro ⟨id, ⟨hid, earlier, later, hids, hearlier⟩, he⟩
    exact ⟨earlier, id, later, hids, hearlier, hid, he⟩
  · rintro ⟨earlier, id, later, hids, hearlier, hid, he⟩
    exact ⟨id, ⟨hid, earlier, later, hids, hearlier⟩, he⟩

theorem exists_containment (hids : ∀ id ∈ ids, Known commits heads id) :
    ∃ k, g.containment ids = .ok k := by
  cases hk : g.containment ids with
  | ok k => exact ⟨k, rfl⟩
  | error e =>
      obtain ⟨earlier, id, later, rfl, _, hunknown, _⟩ := hg.containment_eq_error_iff.mp hk
      exact absurd (hids id (by simp)) hunknown

/-- The loaded nodes that a walk from some ids visits. -/
theorem mem_reachableFrom {n : Nat} (hc : g.Stands c n) :
    n ∈ g.history.reachableFrom (ids.filterMap g.directory.node?) ↔
      ∃ head ∈ ids, ReflTransGen (HasParent commits) head c := by
  have hlisted : c ∈ commits.map (·.id) := List.mem_of_getElem? (hg.sound.stands_iff.mp hc)
  have hhistory : g.historyOf ids (.loaded n) = true ↔ InHistory commits ids c :=
    hg.sound.historyOf_iff hc
  simp only [InHistory, reach_parentOf_iff hlisted] at hhistory
  rw [← hhistory, historyOf_loaded, History.mem_reachableFrom hg.sound.history,
    History.mem_reachableFrom hg.sound.history]
  simp only [Directory.nodesOf, List.mem_eraseDups]

/-- What is contained in some ids: themselves, and the listed commits that are
an ancestor of one.  An ancestor that is not listed is left out. -/
theorem contains_iff {k : Containment α} (hk : g.containment ids = .ok k) :
    k.contains c = true ↔ c ∈ ids ∨
      c ∈ commits.map (·.id) ∧ ∃ head ∈ ids, ReflTransGen (HasParent commits) head c := by
  rw [containment_eq] at hk
  split at hk
  · contradiction
  · next hfind =>
      obtain rfl := Except.ok.inj hk
      have hnodes : ∀ {x}, g.directory.node? c = some x →
          (x ∈ ids.filterMap g.directory.node? ↔ c ∈ ids) := by
        intro x hx
        rw [List.mem_filterMap]
        constructor
        · rintro ⟨id, hid, hnode⟩
          rwa [hg.mirrors.inj hx hnode]
        · exact fun hid => ⟨c, hid, hx⟩
      rw [Containment.contains, Option.any_eq_true]
      simp only [Std.HashSet.contains_ofList, List.contains_eq_mem, decide_eq_true_eq,
        List.mem_append, List.mem_map (f := NodeId.loaded)]
      constructor
      · rintro ⟨x, hx, ⟨n, hn, rfl⟩ | hmem⟩
        · exact Or.inr ⟨List.mem_of_getElem? (hg.sound.stands_iff.mp hx),
            (hg.mem_reachableFrom hx).mp hn⟩
        · exact Or.inl ((hnodes hx).mp hmem)
      · rintro (hid | ⟨hlisted, hpath⟩)
        · cases hnode : g.directory.node? c with
          | none => simpa [hnode] using List.find?_eq_none.mp hfind c hid
          | some x => exact ⟨x, rfl, Or.inr ((hnodes hnode).mpr hid)⟩
        · obtain ⟨n, hn⟩ := hg.sound.stands_of_mem hlisted
          exact ⟨_, hn, Or.inl ⟨n, (hg.mem_reachableFrom hn).mpr hpath, rfl⟩⟩

end Complete

/-- The history of a graph loads whatever palette, heads and settings come with
it. -/
theorem exists_load_of_stateOf (hg : StateOf commits palette heads config g)
    (palette' : Palette α) (heads' : List α) (config' : Config) :
    ∃ g', Graph.load commits palette' heads' config' = .ok g' := by
  obtain ⟨_, hhistory, _⟩ := eq_of_stateOf hg
  obtain ⟨g', hload, _⟩ := exists_load hhistory
  exact ⟨g', hload⟩

/-! ## a merge with a parent that is not listed -/

/-- A topic with a parent that is listed and one that is not. -/
def topicCommits : List (Commit String) :=
  [⟨"topic", ["base", "gone"], 2⟩, ⟨"base", [], 1⟩]

theorem load_topic :
    ∃ g, Graph.load topicCommits .standard ["topic", "ghost"] {} = .ok g :=
  exists_load_of_isSome (by cbv) _ _ _

/-! ## heads that contain a commit -/

variable [LawfulBEq α]

/-- The heads that contain a known commit are those that are the commit or
have it as an ancestor, and an unknown commit is reported.  A head that is not
listed contains itself alone. -/
theorem containingHeads_exact (hg : StateOf commits palette heads config g) (c : α) :
    (Known commits heads c → ∃ answer, g.containingHeads c = .ok answer ∧ answer.Nodup ∧
      ∀ head, head ∈ answer ↔ head ∈ heads ∧ ReflTransGen (HasParent commits) head c) ∧
    (¬ Known commits heads c → g.containingHeads c = .error (.unknown c)) ∧
    ∀ head ∈ heads, head ∉ commits.map (·.id) → ∀ answer, g.containingHeads c = .ok answer →
      (head ∈ answer ↔ head = c) := by
  have hgraph := complete_of_stateOf hg
  refine ⟨fun hc => ?_, hgraph.containingHeads_of_unknown, fun head hhead hnew answer hanswer => ?_⟩
  · obtain ⟨answer, hanswer, hnodup⟩ := hgraph.exists_containingHeads hc
    exact ⟨answer, hanswer, hnodup, fun head => hgraph.mem_containingHeads hanswer⟩
  · rw [hgraph.mem_containingHeads hanswer, and_iff_right hhead]
    constructor
    · exact eq_of_reach_of_not_listed hnew
    · rintro rfl
      exact .refl

/-- A parent that is not listed is contained in the topic, but not in a head
that is not listed either. -/
theorem containingHeads_exact_topic :
    ∃ g answer, Graph.load topicCommits .standard ["topic", "ghost"] {} = .ok g ∧
      g.containingHeads "gone" = .ok answer ∧ "topic" ∈ answer ∧ "ghost" ∉ answer := by
  obtain ⟨g, hload⟩ := load_topic
  obtain ⟨hknown, _, hghost⟩ := containingHeads_exact (.loaded hload) "gone"
  have hparent : HasParent topicCommits "topic" "gone" :=
    ⟨⟨"topic", ["base", "gone"], 2⟩, by decide⟩
  obtain ⟨answer, hanswer, _, hmem⟩ := hknown hparent.known
  have hno := hghost "ghost" (by decide) (by decide) answer hanswer
  exact ⟨g, answer, hload, hanswer, (hmem "topic").mpr ⟨by decide, .single hparent⟩,
    fun hin => absurd (hno.mp hin) (by decide)⟩

/-! ## commits contained in some heads -/

/-- Asking for what some ids contain fails exactly if one of them is unknown,
the first such id being reported.  Otherwise it contains a listed commit exactly
if that is one of the ids or an ancestor of one, which is when some head of the
graph with these heads contains the commit; unknown commits are not
contained. -/
theorem containment_exact (hg : StateOf commits palette heads config g) (ids : List α) :
    (∀ e, g.containment ids = .error e ↔ ∃ earlier id later, ids = earlier ++ id :: later ∧
      (∀ a ∈ earlier, Known commits heads a) ∧ ¬ Known commits heads id ∧ e = .unknown id) ∧
    ((∀ id ∈ ids, Known commits heads id) → ∃ k, g.containment ids = .ok k ∧
      (∀ c ∈ commits.map (·.id),
        (k.contains c = true ↔ ∃ head ∈ ids, ReflTransGen (HasParent commits) head c) ∧
        ∀ (palette' : Palette α) (config' : Config), ∃ g' answer,
          Graph.load commits palette' ids config' = .ok g' ∧
          g'.containingHeads c = .ok answer ∧ (k.contains c = true ↔ answer ≠ [])) ∧
      ∀ c, ¬ Known commits heads c → k.contains c = false) := by
  have hgraph := complete_of_stateOf hg
  refine ⟨fun e => hgraph.containment_eq_error_iff, fun hids => ?_⟩
  obtain ⟨k, hk⟩ := hgraph.exists_containment hids
  have hlisted : ∀ {c}, c ∈ commits.map (·.id) →
      (k.contains c = true ↔ ∃ head ∈ ids, ReflTransGen (HasParent commits) head c) := by
    intro c hc
    rw [hgraph.contains_iff hk, and_iff_right hc]
    exact or_iff_right_of_imp fun hmem => ⟨c, hmem, .refl⟩
  refine ⟨k, hk, fun c hc => ⟨hlisted hc, fun palette' config' => ?_⟩, fun c hc => ?_⟩
  · obtain ⟨g', hload⟩ := exists_load_of_stateOf hg palette' ids config'
    have hgraph' := complete_of_load hload
    obtain ⟨answer, hanswer, _⟩ := hgraph'.exists_containingHeads (Or.inl hc)
    refine ⟨g', answer, hload, hanswer, ?_⟩
    rw [hlisted hc, ne_eq, List.eq_nil_iff_forall_not_mem, not_forall_not]
    simp only [hgraph'.mem_containingHeads hanswer]
  · rw [← Bool.not_eq_true, hgraph.contains_iff hk]
    rintro (hmem | ⟨hmem, _⟩)
    · exact hc (hids c hmem)
    · exact hc (Or.inl hmem)

/-- What the topic and a head that is not listed contain: the base, but no
commit that is unknown. -/
theorem containment_exact_topic :
    ∃ g k, Graph.load topicCommits .standard ["topic", "ghost"] {} = .ok g ∧
      g.containment ["ghost", "topic"] = .ok k ∧ k.contains "base" = true ∧
      k.contains "nobody" = false := by
  obtain ⟨g, hload⟩ := load_topic
  obtain ⟨_, hok⟩ := containment_exact (.loaded hload) ["ghost", "topic"]
  have hids : ∀ id ∈ ["ghost", "topic"], Known topicCommits ["topic", "ghost"] id := by
    simp [Known]
  obtain ⟨k, hk, hlisted, hunknown⟩ := hok hids
  have hparent : HasParent topicCommits "topic" "base" :=
    ⟨⟨"topic", ["base", "gone"], 2⟩, by decide⟩
  refine ⟨g, k, hload, hk, (hlisted "base" (by decide)).1.mpr ⟨"topic", by decide, .single hparent⟩,
    hunknown "nobody" ?_⟩
  simp [Known, topicCommits]

/-! ## commits that are not listed -/

/-- Of a commit that is not listed, the two queries agree for a head that does
not have it as an ancestor.  A head that does contains the commit, but what is
contained in the head leaves it out. -/
theorem containment_of_missing (hg : StateOf commits palette heads config g) {head c : α}
    (hhead : head ∈ heads) (hnew : c ∉ commits.map (·.id))
    (hc : (∃ d ∈ commits, c ∈ d.parents) ∨ c ∈ heads) :
    ∃ answer k, g.containingHeads c = .ok answer ∧ g.containment [head] = .ok k ∧
      (¬ TransGen (HasParent commits) head c → (head ∈ answer ↔ k.contains c = true)) ∧
      (TransGen (HasParent commits) head c → head ∈ answer ∧ k.contains c = false) := by
  have hgraph := complete_of_stateOf hg
  obtain ⟨answer, hanswer, _⟩ := hgraph.exists_containingHeads (Or.inr hc)
  have hids : ∀ id ∈ [head], Known commits heads id := fun id hid => by
    rw [List.mem_singleton.mp hid]
    exact Or.inr (Or.inr hhead)
  obtain ⟨k, hk⟩ := hgraph.exists_containment hids
  have hin : head ∈ answer ↔ c = head ∨ TransGen (HasParent commits) head c := by
    rw [hgraph.mem_containingHeads hanswer, and_iff_right hhead,
      Relation.reflTransGen_iff_eq_or_transGen]
  have hcontains : k.contains c = true ↔ c = head := by
    rw [hgraph.contains_iff hk, List.mem_singleton]
    exact or_iff_left fun h => hnew h.1
  refine ⟨answer, k, hanswer, hk, fun hnot => ?_, fun hpath => ⟨hin.mpr (Or.inr hpath), ?_⟩⟩
  · rw [hin, hcontains, or_iff_left hnot]
  · rw [← Bool.not_eq_true, hcontains]
    rintro rfl
    obtain ⟨_, hfirst, _⟩ := TransGen.head'_iff.mp hpath
    exact hnew hfirst.listed

/-- The parent of the topic that is not listed, and a head that is not. -/
theorem containment_of_missing_topic :
    ∃ g answer k, Graph.load topicCommits .standard ["topic", "ghost"] {} = .ok g ∧
      g.containingHeads "gone" = .ok answer ∧ g.containment ["ghost"] = .ok k ∧
      ("ghost" ∈ answer ↔ k.contains "gone" = true) := by
  obtain ⟨g, hload⟩ := load_topic
  have hghost : "ghost" ∈ ["topic", "ghost"] := by decide
  have hnew : "gone" ∉ topicCommits.map (·.id) := by decide
  obtain ⟨answer, k, hanswer, hk, hagree, _⟩ := containment_of_missing (.loaded hload) hghost hnew
    (Or.inl (by decide))
  refine ⟨g, answer, k, hload, hanswer, hk, hagree fun hpath => ?_⟩
  obtain ⟨_, hfirst, _⟩ := TransGen.head'_iff.mp hpath
  exact absurd hfirst.listed (by decide)

/-- The topic contains its parent that is not listed; what is contained in the
topic does not. -/
theorem gone_not_contained_topic :
    ∃ g answer k, Graph.load topicCommits .standard ["topic", "ghost"] {} = .ok g ∧
      "gone" ∉ topicCommits.map (·.id) ∧ HasParent topicCommits "topic" "gone" ∧
      g.containingHeads "gone" = .ok answer ∧ g.containment ["topic"] = .ok k ∧
      ¬ ("topic" ∈ answer ↔ k.contains "gone" = true) := by
  obtain ⟨g, hload⟩ := load_topic
  have hgraph := complete_of_load hload
  have hparent : HasParent topicCommits "topic" "gone" :=
    ⟨⟨"topic", ["base", "gone"], 2⟩, by decide⟩
  obtain ⟨answer, hanswer, _⟩ := hgraph.exists_containingHeads hparent.known
  have hids : ∀ id ∈ ["topic"], Known topicCommits ["topic", "ghost"] id := by
    simp [Known]
  obtain ⟨k, hk⟩ := hgraph.exists_containment hids
  refine ⟨g, answer, k, hload, by decide, hparent, hanswer, hk, fun hiff => ?_⟩
  have hin := (hgraph.mem_containingHeads hanswer).mpr ⟨by decide, .single hparent⟩
  have hcontains := (hgraph.contains_iff hk).mp (hiff.mp hin)
  exact absurd hcontains (by simp [topicCommits])

end Graph

end Lineage
