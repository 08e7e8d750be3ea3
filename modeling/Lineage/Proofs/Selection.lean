import Lineage.Graph.View
import Lineage.Proofs.Ancestry
import Lineage.Proofs.Graph

/-!
# Lineage.Proofs.Selection

The commits that the options of a view select: those of a search, and those in
the history of some heads.

* `Graph.Sound.mem_nodesOf`, `Graph.Sound.historyOf_iff` — the selected nodes
  stand for the selected commits.
-/

namespace Lineage

variable {α : Type} [BEq α] [Hashable α]

/-- Whether a search shows a commit.  Without a search every commit is
shown. -/
def Matches (matching : Option (List α)) (c : α) : Prop := ∀ ids ∈ matching, c ∈ ids

/-- Whether a commit is one of some heads or an ancestor of one. -/
def InHistory (commits : List (Commit α)) (heads : List α) (c : α) : Prop :=
  ∃ head ∈ heads, Relation.ReflTransGen (ParentOf commits) head c

namespace Graph

variable {g : Graph α} {commits : List (Commit α)} {heads : List α}

/-- The nodes of a list. -/
theorem among_eq_true_iff {nodes : List NodeId} {node : NodeId} :
    among nodes node = true ↔ node ∈ nodes := by
  simp [among]

theorem Sound.mem_nodesOf (hg : g.Sound commits) {ids : List α} {c : α} {n : Nat}
    (hc : g.Stands c n) : .loaded n ∈ g.directory.nodesOf ids ↔ c ∈ ids := by
  rw [Directory.nodesOf, List.mem_eraseDups, List.mem_filterMap]
  constructor
  · rintro ⟨id, hid, hn⟩
    rwa [hg.stands_inj hc hn]
  · exact fun hid => ⟨c, hid, hc⟩

theorem historyOf_loaded {n : Nat} : g.historyOf heads (.loaded n) = true ↔
    n ∈ g.history.reachableFrom (g.directory.nodesOf heads) := by
  rw [historyOf, among_eq_true_iff, List.mem_map]
  simp

/-- The history of some heads, in terms of commits. -/
theorem Sound.historyOf_iff (hg : g.Sound commits) {c : α} {n : Nat} (hc : g.Stands c n) :
    g.historyOf heads (.loaded n) = true ↔ InHistory commits heads c := by
  rw [historyOf_loaded, History.mem_reachableFrom hg.history]
  constructor
  · rintro ⟨m, hm, hlt, hpath⟩
    obtain ⟨head, hhead⟩ := hg.exists_stands hlt
    refine ⟨head, (hg.mem_nodesOf hhead).mp hm, ?_⟩
    rcases Relation.reflTransGen_iff_eq_or_transGen.mp hpath with rfl | hpath
    · rw [hg.stands_inj hc hhead]
    · exact ((hg.mirrors.transGen_iff hhead hc).mpr hpath).to_reflTransGen
  · rintro ⟨head, hmem, hpath⟩
    rcases Relation.reflTransGen_iff_eq_or_transGen.mp hpath with rfl | hpath
    · exact ⟨n, (hg.mem_nodesOf hc).mpr hmem, hg.lt_size hc, .refl⟩
    · obtain ⟨d, ⟨e, he, rfl, _⟩, _⟩ := Relation.TransGen.head'_iff.mp hpath
      obtain ⟨m, hm⟩ := hg.stands_of_mem (List.mem_map_of_mem he)
      exact ⟨m, (hg.mem_nodesOf hm).mpr hmem, hg.lt_size hm,
        ((hg.mirrors.transGen_iff hm hc).mp hpath).to_reflTransGen⟩

/-- The history of some heads holds the parents of its nodes. -/
theorem Sound.historyOf_of_parent (hg : g.Sound commits) {u v : Nat}
    (hu : g.historyOf heads (.loaded u) = true) (hv : g.history.IsParent u v) :
    g.historyOf heads (.loaded v) = true := by
  rw [historyOf_loaded] at hu ⊢
  exact History.mem_reachableFrom_of_parent hg.history hu hv

end Graph

end Lineage
