import Lineage.Proofs.ChildrenFirst
import Lineage.Rebase.Interleave

/-!
# Lineage.Proofs.Interleave

The merge of strands lets every node go out once, children first.  Two ways
lead out, the strand and the agenda, and the agenda keeps entries of nodes
that left by their strand.  What carries the proof is that the agenda misses
no node that is ready (`Merge.Sound`), and that without a cycle some node
always is.

* `Merge.Sound.emit` — what one node going out keeps.
* `Merge.Sound.readyOrder_run`, `Merge.Sound.length_run` — every node that
  goes out was ready, and the merge does not stop early.
* `rebaseOrder_topological` — the rebase order of a history that loads shows
  every node once, children above parents.
-/

namespace Lineage

/-! ## ranks -/

namespace Rank

theorem before_iff {a b : Rank} : a.before b = true ↔ b.timestamp < a.timestamp ∨
    a.timestamp = b.timestamp ∧ (a.lane < b.lane ∨ a.lane = b.lane ∧ a.node ≤ b.node) := by
  simp [before]

theorem before_trans (a b c : Rank) (hab : a.before b = true) (hbc : b.before c = true) :
    a.before c = true := by
  rw [before_iff] at hab hbc ⊢
  omega

theorem before_total (a b : Rank) : a.before b = true ∨ b.before a = true := by
  rw [before_iff, before_iff]
  omega

end Rank

namespace Merge

/-! ## one round -/

variable {h : History} {s : Strands} {rank : Nat → Rank} {m : Merge} {out : List Nat}

/-- What holds between two rounds when the nodes of `out` are out: the counts
and the marks are right, the agenda lists nodes whose children are out, and
every node that is ready is among them. -/
structure Sound (h : History) (rank : Nat → Rank) (m : Merge) (out : List Nat) : Prop where
  awaits : Awaits h.loadedChildren m.waiting out
  has_out : ∀ n, m.out.has n = true ↔ n ∈ out ∨ h.size ≤ n
  ranked : ∀ r ∈ m.agenda, r = rank r.node
  listed : ∀ r ∈ m.agenda, r.node < h.size ∧ ∀ c ∈ h.loadedChildren r.node, c ∈ out
  complete : ∀ {n}, IsReady h.size h.loadedChildren out n → ∃ r ∈ m.agenda, r.node = n

theorem has_out_eq_false_iff (hm : Sound h rank m out) (n : Nat) :
    m.out.has n = false ↔ n < h.size ∧ n ∉ out := by
  rw [← Bool.not_eq_true, hm.has_out n, not_or, Nat.not_le, and_comm]

/-- The next node of a strand goes out only when it is ready. -/
theorem isReady_of_continuation? (hm : Sound h rank m out) {n : Nat}
    (hn : m.continuation? s = some n) : IsReady h.size h.loadedChildren out n := by
  obtain ⟨_, hfree⟩ := Option.filter_eq_some_iff.mp hn
  simp only [Bool.and_eq_true, Bool.not_eq_true', decide_eq_true_eq] at hfree
  obtain ⟨hlt, hout⟩ := (has_out_eq_false_iff hm n).mp hfree.1
  exact ⟨hlt, hout, (hm.awaits.getD_eq_zero_iff n).mp hfree.2⟩

/-- The entries that are passed over belong to nodes that are out. -/
theorem mem_pending_or (m : Merge) {r : Rank} (hr : r ∈ m.agenda) :
    r ∈ m.pending ∨ m.out.has r.node = true := by
  simp only [pending]
  rw [← List.takeWhile_append_dropWhile (p := fun r => m.out.has r.node) (l := m.agenda)] at hr
  rcases List.mem_append.mp hr with hr | hr
  · have hall := List.all_takeWhile (p := fun r : Rank => m.out.has r.node) (l := m.agenda)
    exact Or.inr (List.all_eq_true.mp hall r hr)
  · exact Or.inl hr

/-- The node that is picked is ready, and the agenda that is left misses no
other node that is. -/
theorem pick?_spec (hm : Sound h rank m out) {node : Nat} {agenda : List Rank}
    (hp : m.pick? s = some (node, agenda)) : IsReady h.size h.loadedChildren out node ∧
      agenda ⊆ m.agenda ∧
      ∀ n, n ≠ node → IsReady h.size h.loadedChildren out n → ∃ r ∈ agenda, r.node = n := by
  simp only [pick?] at hp
  split at hp
  · next next hnext =>
      obtain ⟨rfl, rfl⟩ := Prod.mk.inj (Option.some.inj hp)
      exact ⟨isReady_of_continuation? hm hnext, fun _ hr => hr, fun n _ hn => hm.complete hn⟩
  · split at hp
    · contradiction
    · next r rest hpending =>
        obtain ⟨rfl, rfl⟩ := Prod.mk.inj (Option.some.inj hp)
        have hsub : m.pending ⊆ m.agenda := (List.dropWhile_sublist _).subset
        have hr : r ∈ m.agenda := hsub (by simp [hpending])
        have hfree : m.out.has r.node = false := by
          have hhead := List.head?_dropWhile_not (fun r : Rank => m.out.has r.node) m.agenda
          rw [← pending, hpending] at hhead
          simpa using hhead
        obtain ⟨hlt, hout⟩ := (has_out_eq_false_iff hm _).mp hfree
        refine ⟨⟨hlt, hout, (hm.listed r hr).2⟩, fun q hq => hsub (by simp [hpending, hq]), ?_⟩
        intro n hne hn
        obtain ⟨q, hq, rfl⟩ := hm.complete hn
        have hqfree := (has_out_eq_false_iff hm q.node).mpr ⟨hn.lt_size, hn.notMem_out⟩
        have hqpending : q ∈ m.pending := (mem_pending_or m hq).resolve_right (by simp [hqfree])
        rw [hpending] at hqpending
        rcases List.mem_cons.mp hqpending with rfl | hq
        · contradiction
        · exact ⟨q, hq, rfl⟩

/-- As long as a node is ready, one is picked. -/
theorem pick?_ne_none (hm : Sound h rank m out) {n : Nat}
    (hn : IsReady h.size h.loadedChildren out n) : m.pick? s ≠ none := by
  obtain ⟨r, hr, rfl⟩ := hm.complete hn
  have hfree := (has_out_eq_false_iff hm r.node).mpr ⟨hn.lt_size, hn.notMem_out⟩
  have hpending : r ∈ m.pending := (mem_pending_or m hr).resolve_right (by simp [hfree])
  simp only [pick?]
  split
  · simp
  · split
    · next hnil => simp [hnil] at hpending
    · simp

/-- What one node going out keeps. -/
theorem Sound.emit (hl : Linked h.size h.loadedParents h.loadedChildren)
    (hrank : ∀ n, (rank n).node = n) (hm : Sound h rank m out) {node : Nat} {agenda : List Rank}
    (hp : m.pick? s = some (node, agenda)) :
    Sound h rank (m.emit h rank node agenda) (node :: out) := by
  obtain ⟨hready, hsub, hcomplete⟩ := pick?_spec hm hp
  have hfreed : ∀ {n}, n ∈ (settle m.waiting (h.loadedParents node)).2 ↔ _ :=
    hm.awaits.mem_freed hl hready
  refine ⟨hm.awaits.settle hl hready, fun n => ?_, fun r hr => ?_, fun r hr => ?_, fun {n} hn => ?_⟩
  · simp only [Merge.emit, Marks.has_mark, hm.has_out n, List.mem_cons, or_assoc]
  · rcases mem_insertAllSorted.mp hr with hr | hr
    · obtain ⟨n, _, rfl⟩ := List.mem_map.mp hr
      rw [hrank]
    · exact hm.ranked r (hsub hr)
  · rcases mem_insertAllSorted.mp hr with hr | hr
    · obtain ⟨n, hn, rfl⟩ := List.mem_map.mp hr
      rw [hrank]
      exact ⟨(hfreed.mp hn).2.lt_size, (hfreed.mp hn).2.children_out⟩
    · obtain ⟨hlt, hall⟩ := hm.listed r (hsub hr)
      exact ⟨hlt, fun c hc => List.mem_cons_of_mem node (hall c hc)⟩
  · by_cases hchild : node ∈ h.loadedChildren n
    · have hr : rank n ∈ (settle m.waiting (h.loadedParents node)).2.map rank :=
        List.mem_map_of_mem (hfreed.mpr ⟨hchild, hn⟩)
      exact ⟨rank n, mem_insertAllSorted.mpr (Or.inl hr), hrank n⟩
    · have hne : n ≠ node := by
        rintro rfl
        exact hn.notMem_out List.mem_cons_self
      obtain ⟨r, hr, hnode⟩ := hcomplete n hne (hn.of_cons hchild)
      exact ⟨r, mem_insertAllSorted.mpr (Or.inr hr), hnode⟩

/-! ## all rounds -/

/-- Every node that goes out was ready. -/
theorem Sound.readyOrder_run (hl : Linked h.size h.loadedParents h.loadedChildren)
    (hrank : ∀ n, (rank n).node = n) (hm : Sound h rank m out) (rounds : Nat) :
    ReadyOrder h.size h.loadedChildren out (run h s rank rounds m) := by
  induction rounds generalizing m out with
  | zero => trivial
  | succ rounds ih =>
      simp only [run]
      split
      · trivial
      · next node agenda hp => exact ⟨(pick?_spec hm hp).1, ih (hm.emit hl hrank hp)⟩

/-- The merge does not stop before every node is out. -/
theorem Sound.length_run (hl : Linked h.size h.loadedParents h.loadedChildren)
    (hwf : WellFounded h.IsParent) (hrank : ∀ n, (rank n).node = n) (hm : Sound h rank m out)
    {rounds : Nat} (hrounds : rounds + out.length = h.size) :
    (run h s rank rounds m).length = rounds := by
  induction rounds generalizing m out with
  | zero => rfl
  | succ rounds ih =>
      simp only [run]
      split
      · next hp =>
          obtain ⟨n, hn, hout⟩ := exists_notMem_of_length_lt h.size out (by omega)
          obtain ⟨k, hk⟩ := exists_isReady hl hwf hn hout
          exact absurd hp (pick?_ne_none hm hk)
      · next node agenda hp =>
          rw [List.length_cons, ih (hm.emit hl hrank hp) (by simp; omega)]

/-- The merge before any node is out. -/
theorem Sound.start (hl : Linked h.size h.loadedParents h.loadedChildren)
    (hrank : ∀ n, (rank n).node = n) : Sound h rank (Merge.start h rank) [] := by
  have hcount : ∀ p, (Merge.start h rank).waiting.getD p 0 = (h.loadedChildren p).length := by
    intro p
    by_cases hp : p < h.size
    · simp [Merge.start, hp, History.loadedChildren]
    · have hnone : h.loadedChildren p = [] := List.eq_nil_iff_forall_not_mem.mpr fun c hc =>
        hp (hl.parent_lt (hl.mem_children.mp hc))
      simp [Merge.start, hp, hnone]
  have hready : ∀ r, r ∈ (Merge.start h rank).agenda ↔
      ∃ n, IsReady h.size h.loadedChildren [] n ∧ rank n = r := by
    intro r
    simp only [Merge.start, List.mem_mergeSort, List.mem_map, List.mem_filter, List.mem_range,
      decide_eq_true_eq]
    constructor
    · rintro ⟨n, ⟨hn, hzero⟩, rfl⟩
      exact ⟨n, ⟨hn, List.not_mem_nil, ((Awaits.start hcount).getD_eq_zero_iff n).mp hzero⟩, rfl⟩
    · rintro ⟨n, hn, rfl⟩
      refine ⟨n, ⟨hn.lt_size, ?_⟩, rfl⟩
      exact ((Awaits.start hcount).getD_eq_zero_iff n).mpr hn.children_out
  refine ⟨Awaits.start hcount, fun n => ?_, fun r hr => ?_, fun r hr => ?_, fun {n} hn => ?_⟩
  · simp [Merge.start]
  · obtain ⟨n, _, rfl⟩ := (hready r).mp hr
    rw [hrank]
  · obtain ⟨n, hn, rfl⟩ := (hready r).mp hr
    rw [hrank]
    exact ⟨hn.lt_size, hn.children_out⟩
  · exact ⟨rank n, (hready _).mpr ⟨n, hn, rfl⟩, hrank n⟩

end Merge

namespace History

/-! ## the rebase order -/

/-- The rebase order of a sound history, whatever the lanes and the
timestamps. -/
theorem Sound.rebaseOrder {h : History} (hs : h.Sound) (lanes : Lanes) (timestamp : Nat → Int) :
    (h.rebaseOrder lanes timestamp).Topological h := by
  have hstart : Merge.Sound h (fun node => ⟨timestamp node, lanes.lane node, node⟩) _ [] :=
    Merge.Sound.start hs.linked fun _ => rfl
  refine RowOrder.topological_of_readyOrder hs.linked ?_ ?_
  · exact hstart.readyOrder_run hs.linked (fun _ => rfl) h.size
  · exact hstart.length_run hs.linked hs.wellFounded (fun _ => rfl) (by simp)

variable {α : Type} [BEq α] [Hashable α] [EquivBEq α] [LawfulHashable α]
  {commits : List (Commit α)} {slots slots' : Placeholders α} {h : History}

/-- The rebase order of every history that loads has a row for each node and
shows each node once, children above their loaded parents, however heads are
ranked and whatever the timestamps. -/
theorem rebaseOrder_topological (hload : load commits slots = .ok (h, slots'))
    (compare : Nat → Nat → Ordering) (timestamp : Nat → Int) :
    (h.rebaseOrder (Lanes.ofHistory h compare) timestamp).Topological h :=
  (sound_of_load hload).rebaseOrder _ timestamp

/-- The rebase order of a merge, ranked by its nodes, the oldest first. -/
theorem rebaseOrder_topological_merge : ∃ h slots, load mergeCommits .empty = .ok (h, slots) ∧
    (h.rebaseOrder (Lanes.ofHistory h compare) fun n => -n).Topological h := by
  obtain ⟨h, slots, hload⟩ := load_mergeCommits
  exact ⟨h, slots, hload, rebaseOrder_topological hload compare fun n => -n⟩

end History

end Lineage
