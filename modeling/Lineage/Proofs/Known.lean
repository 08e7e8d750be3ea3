import Lineage.Proofs.Graph

/-!
# Lineage.Proofs.Known

Which commits a graph knows.  Besides the listed commits these are their
parents and its declared heads, each with a node of its own.

* `HasParent`, `Known` — parents and known commits as they are listed.
* `History.MirrorsChildren` — child lists, those of placeholders included, that
  mirror the parent lists.
* `Graph.Complete` — a graph knows the listed commits, their parents and its
  heads, and nobody else; `Graph.complete_of_stateOf`.
-/

namespace Lineage

open Relation (ReflTransGen)

/-! ## parents and known commits -/

section Listed

variable {α : Type}

/-- Whether a listed commit names the second id as a parent, be that listed or
not. -/
def HasParent (commits : List (Commit α)) (a b : α) : Prop :=
  ∃ c ∈ commits, c.id = a ∧ b ∈ c.parents

/-- Whether an id is one of a listed commit, of a parent, or of a declared
head. -/
def Known (commits : List (Commit α)) (heads : List α) (id : α) : Prop :=
  id ∈ commits.map (·.id) ∨ (∃ c ∈ commits, id ∈ c.parents) ∨ id ∈ heads

variable {commits : List (Commit α)} {heads : List α} {a b : α}

/-- Only a listed commit has parents. -/
theorem HasParent.listed (h : HasParent commits a b) : a ∈ commits.map (·.id) := by
  obtain ⟨c, hc, rfl, _⟩ := h
  exact List.mem_map_of_mem hc

theorem HasParent.known (h : HasParent commits a b) : Known commits heads b := by
  obtain ⟨c, hc, _, hb⟩ := h
  exact Or.inr (Or.inl ⟨c, hc, hb⟩)

/-- No chain of parents starts at a commit that is not listed. -/
theorem eq_of_reach_of_not_listed (ha : a ∉ commits.map (·.id))
    (hab : ReflTransGen (HasParent commits) a b) : a = b := by
  rcases hab.cases_head with heq | ⟨c, hac, _⟩
  · exact heq
  · exact absurd hac.listed ha

/-- A chain of parents that ends at a listed commit is one of listed parents. -/
theorem reach_parentOf_iff [BEq α] [Hashable α] (hb : b ∈ commits.map (·.id)) :
    ReflTransGen (ParentOf commits) a b ↔ ReflTransGen (HasParent commits) a b := by
  constructor
  · intro hab
    refine hab.lift id ?_
    rintro x y ⟨c, hc, hx, hy, _⟩
    exact ⟨c, hc, hx, hy⟩
  · intro hab
    induction hab with
    | refl => exact .refl
    | tail _ hxy ih =>
        obtain ⟨c, hc, hx, hy⟩ := hxy
        exact (ih (hx ▸ List.mem_map_of_mem hc)).tail ⟨c, hc, hx, hy, hb⟩

end Listed

namespace History

variable {h : History} {x : NodeId} {n : Nat}

/-! ## parents and children of nodes -/

/-- A loaded node and one of its parents, which need not be loaded. -/
def ParentLink (h : History) (x y : NodeId) : Prop := ∃ n, x = .loaded n ∧ y ∈ h.parentsOf n

theorem lt_size_of_mem_parentsOf (hx : x ∈ h.parentsOf n) : n < h.size := by
  refine lt_size_of_getD_ne (d := []) fun hnil => ?_
  rw [parentsOf, hnil] at hx
  contradiction

/-- The child lists, those of placeholders included, mirror the parent
lists. -/
def MirrorsChildren (h : History) : Prop := ∀ n x, n ∈ h.childrenOf x ↔ x ∈ h.parentsOf n

theorem mem_mentions {parents : List (List NodeId)} :
    (n, x) ∈ mentions parents ↔ x ∈ parents.getD n [] := by
  simp only [mentions, List.mem_flatMap, List.mem_map, Prod.exists, Prod.mk.injEq,
    List.mem_zipIdx_iff_getElem?]
  constructor
  · rintro ⟨ps, k, hps, y, hy, rfl, rfl⟩
    simpa [hps] using hy
  · intro hx
    cases hps : parents[n]? with
    | none => simp [hps] at hx
    | some ps => exact ⟨ps, n, hps, x, by simpa [hps] using hx, rfl, rfl⟩

theorem mem_missingMentions {parents : List (List NodeId)} {slot : Nat} :
    (slot, n) ∈ missingMentions parents ↔ .missing slot ∈ parents.getD n [] := by
  rw [← mem_mentions, missingMentions, List.mem_filterMap]
  constructor
  · rintro ⟨⟨k, id⟩, hmem, heq⟩
    cases id with
    | loaded _ => simp at heq
    | none => simp at heq
    | missing s =>
        obtain ⟨rfl, rfl⟩ := Prod.mk.inj (Option.some.inj heq)
        exact hmem
  · exact fun hmem => ⟨_, hmem, rfl⟩

end History

namespace Graph

variable {α : Type} [BEq α] [Hashable α] {g : Graph α} {commits : List (Commit α)}
  {palette : Palette α} {heads ids : List α} {config : Config}

/-! ## what a graph knows -/

/-- A graph that translates exactly the known ids, each to a node of its own,
and whose child lists mirror its parent lists. -/
structure Complete (g : Graph α) (commits : List (Commit α)) (heads : List α) : Prop where
  sound : g.Sound commits
  known_iff : ∀ {id}, Known commits heads id ↔ ∃ node, g.directory.node? id = some node
  id?_iff : ∀ {id node}, g.directory.id? node = some id ↔ g.directory.node? id = some node
  heads_eq : g.heads = g.directory.nodesOf heads
  children : g.history.MirrorsChildren

namespace Complete

variable (hg : g.Complete commits heads) {a b id : α} {x y node : NodeId}
include hg

/-- Parents in the history are the parents of commits. -/
theorem parentLink_iff (ha : g.directory.node? a = some x) (hb : g.directory.node? b = some y) :
    HasParent commits a b ↔ g.history.ParentLink x y := by
  constructor
  · rintro ⟨c, hc, rfl, hparent⟩
    obtain ⟨n, hn⟩ := hg.sound.stands_of_mem (List.mem_map_of_mem hc)
    have hget := hg.sound.getElem?_of_stands hc hn
    refine ⟨n, Option.some.inj (ha.symm.trans hn), (hg.sound.mem_parentsOf hget).mpr ?_⟩
    exact ⟨b, hparent, hb⟩
  · rintro ⟨n, rfl, hparent⟩
    obtain ⟨c, hc, hid⟩ := hg.sound.exists_commit ha
    obtain ⟨p, hp, hnode⟩ := (hg.sound.mem_parentsOf hc).mp hparent
    obtain rfl : p = b := Option.some.inj ((hg.id?_iff.mpr hnode).symm.trans (hg.id?_iff.mpr hb))
    exact ⟨c, List.mem_of_getElem? hc, hid, hp⟩

/-- Known ids and their nodes have the same parents. -/
theorem mirrors : Mirrors (fun id node => g.directory.node? id = some node) (HasParent commits)
    g.history.ParentLink where
  unique hx hy := Option.some.inj (hx.symm.trans hy)
  inj hx hy := Option.some.inj ((hg.id?_iff.mpr hx).symm.trans (hg.id?_iff.mpr hy))
  link_iff := hg.parentLink_iff
  target hab := hg.known_iff.mp hab.known
  target_on hxy := by
    obtain ⟨n, rfl, hparent⟩ := hxy
    have hn := History.lt_size_of_mem_parentsOf hparent
    rw [hg.sound.size_eq] at hn
    have hc := List.getElem?_eq_getElem hn
    obtain ⟨p, _, hnode⟩ := (hg.sound.mem_parentsOf hc).mp hparent
    exact ⟨p, hnode⟩

theorem mem_heads (ha : g.directory.node? a = some x) : x ∈ g.heads ↔ a ∈ heads := by
  rw [hg.heads_eq, Directory.nodesOf, List.mem_eraseDups, List.mem_filterMap]
  constructor
  · rintro ⟨head, hhead, hx⟩
    rwa [hg.mirrors.inj ha hx]
  · exact fun hhead => ⟨a, hhead, ha⟩

theorem mem_idsOf {nodes : List NodeId} :
    id ∈ g.directory.idsOf nodes ↔ ∃ node ∈ nodes, g.directory.node? id = some node := by
  simp only [Directory.idsOf, List.mem_filterMap, hg.id?_iff]

theorem nodup_idsOf {nodes : List NodeId} (hnodup : nodes.Nodup) :
    (g.directory.idsOf nodes).Nodup := by
  refine hnodup.filterMap fun x y id hx hy => ?_
  exact hg.mirrors.unique (hg.id?_iff.mp hx) (hg.id?_iff.mp hy)

theorem unknown_iff {id : α} : ¬ Known commits heads id ↔ g.directory.node? id = none := by
  rw [hg.known_iff, Option.eq_none_iff_forall_ne_some, not_exists]

end Complete

section Load

variable [LawfulBEq α]

/-- Every parent of a node has a name. -/
theorem exists_named {slots slots' : Placeholders α} {h : History} (hslots : slots.Numbered)
    (hload : History.load commits slots = .ok (h, slots')) {n : Nat} {x : NodeId}
    (hx : x ∈ h.parentsOf n) : ∃ parent, History.Named (History.indexOf commits) slots' parent x := by
  have hn := History.lt_size_of_mem_parentsOf hx
  rw [(History.tabulates_of_load hload).size_eq] at hn
  have hnamed := parents_of_load hslots hload (List.getElem?_eq_getElem hn)
  obtain ⟨i, hi, rfl⟩ := List.mem_iff_getElem.mp hx
  exact ⟨_, hnamed.get (hnamed.length_eq ▸ hi) hi⟩

/-- The child lists of a history that loads mirror its parent lists. -/
theorem mirrorsChildren_of_load {slots slots' : Placeholders α} {h : History}
    (hslots : slots.Numbered) (hload : History.load commits slots = .ok (h, slots')) :
    h.MirrorsChildren := by
  intro n x
  cases x with
  | loaded p =>
      rw [← History.mem_loadedParents]
      exact (History.linked_of_load hload).mem_children
  | none =>
      refine ⟨fun hn => absurd hn List.not_mem_nil, fun hx => ?_⟩
      obtain ⟨_, hnamed⟩ := exists_named hslots hload hx
      exact hnamed.elim
  | missing s =>
      obtain ⟨_, _, _, _, _, hmissing, _⟩ := History.eq_of_load hload
      rw [History.childrenOf, hmissing, mem_gather_getD, History.mem_missingMentions]
      have hparents : h.parents.toList.getD n [] = h.parentsOf n := by
        simp [History.parentsOf]
      rw [hparents]
      refine and_iff_right_of_imp fun hx => ?_
      obtain ⟨_, _, hslot⟩ := exists_named hslots hload hx
      exact (Array.getElem?_eq_some_iff.mp hslot).1

theorem complete_of_load (hload : Graph.load commits palette heads config = .ok g) :
    g.Complete commits heads := by
  have hsound := sound_of_load hload
  obtain ⟨slots, hhistory, hdirectory, _, hheads, _⟩ := eq_of_load hload
  obtain ⟨all, _, hloaded, hmissing, hnode, hreserved, hplaceholder⟩ :=
    directory_of_load hhistory hdirectory
  refine ⟨hsound, fun {id} => ⟨?_, ?_⟩, fun {id node} => ?_, hheads,
    mirrorsChildren_of_load Placeholders.numbered_empty hhistory⟩
  · intro hknown
    by_cases hlisted : id ∈ commits.map (·.id)
    · obtain ⟨n, hn⟩ := hsound.stands_of_mem hlisted
      exact ⟨_, hn⟩
    · rcases hknown with h | ⟨c, hc, hparent⟩ | hhead
      · contradiction
      · obtain ⟨n, hn⟩ := List.mem_iff_getElem?.mp hc
        obtain ⟨s, hs, _⟩ := hsound.exists_missing hn hparent hlisted
        exact ⟨_, hs⟩
      · obtain ⟨s, hs⟩ := hreserved id hhead hlisted
        exact ⟨.missing s, hnode.mpr (Or.inr ⟨s, hs, rfl⟩)⟩
  · rintro ⟨node, hid⟩
    rcases hnode.mp hid with ⟨n, hn, _⟩ | ⟨s, hs, _⟩
    · exact Or.inl (List.mem_of_getElem? hn)
    · obtain ⟨_, hparent | hhead⟩ := hplaceholder id (Array.mem_of_getElem? hs)
      · exact Or.inr (Or.inl (by simpa using hparent))
      · exact Or.inr (Or.inr hhead)
  · rw [hnode]
    cases node with
    | loaded n => simp [hloaded]
    | none => simp [Directory.id?]
    | missing s => simp [hmissing]

/-- Every state of a graph knows the same ids. -/
theorem complete_of_stateOf (hg : StateOf commits palette heads config g) :
    g.Complete commits heads := by
  have hload := complete_of_load (load_of_stateOf hg)
  exact ⟨sound_of_stateOf hg, hload.known_iff, hload.id?_iff, hload.heads_eq, hload.children⟩

end Load

/-! ## nodes of ids -/

theorem lookup_of_node? {id : α} {node : NodeId} (hnode : g.directory.node? id = some node) :
    g.lookup id = .ok node := by
  rw [lookup, hnode]

theorem lookup_of_unknown {id : α} (hnone : g.directory.node? id = none) :
    g.lookup id = .error (.unknown id) := by
  rw [lookup, hnone]

end Graph

end Lineage
