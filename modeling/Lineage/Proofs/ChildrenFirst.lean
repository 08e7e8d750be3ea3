import Mathlib.Order.WellFounded
import Lineage.Proofs.Loading
import Lineage.Proofs.RowOrder

/-!
# Lineage.Proofs.ChildrenFirst

The order that loading gives to the nodes of a history.  A commit list with
children in front keeps its order; otherwise the least node that is ready
goes out next, and a list without a cycle runs out of nodes, not of ready
ones.

* `Emitting.step` — what one round of the emission keeps.
* `Emitting.least_emitLeast`, `Emitting.length_emitLeast` — every node that
  goes out was the least one ready, and without a cycle all of them do.
* `exists_least_of_orderOf?`, `orderOf?_eq_none_iff` — what order is found, and
  when none is.
* `sound_of_load` — every history that loads is sound.
-/

namespace Lineage

namespace History

/-- A history whose parent and child lists mirror each other and whose own
order puts children above parents. -/
structure Sound (h : History) : Prop where
  linked : Linked h.size h.loadedParents h.loadedChildren
  topological : h.order.Topological h

/-- Where an order puts children above parents, no way leads up forever. -/
theorem wellFounded_of_topological {h : History} {o : RowOrder}
    (hl : Linked h.size h.loadedParents h.loadedChildren) (ho : o.Topological h) :
    WellFounded h.IsParent := by
  have hrow : Subrelation h.IsParent (InvImage (· < ·) o.rowOf) := fun hp =>
    ho.rowOf_lt_rowOf (hl.child_lt hp) hp
  exact hrow.wf (InvImage.wf o.rowOf Nat.lt_wfRel.wf)

theorem Sound.wellFounded {h : History} (hs : h.Sound) : WellFounded h.IsParent :=
  wellFounded_of_topological hs.linked hs.topological

/-- No node is its own ancestor. -/
theorem Sound.acyclic {h : History} (hs : h.Sound) (n : Nat) :
    ¬ Relation.TransGen h.IsParent n n :=
  hs.wellFounded.transGen.irrefl.irrefl n

/-! ## rounds of the emission -/

/-- What holds between two rounds: the counts are right, and the agenda lists
the nodes that are ready, each once and in ascending order. -/
structure Emitting (size : Nat) (children : Nat → List Nat) (out agenda : List Nat)
    (waiting : Array Nat) : Prop where
  awaits : Awaits children waiting out
  mem_iff : ∀ {n}, n ∈ agenda ↔ IsReady size children out n
  nodup : agenda.Nodup
  sorted : agenda.Pairwise (· ≤ ·)

variable {size : Nat} {parents children : Nat → List Nat} {out agenda : List Nat}
  {waiting : Array Nat} {node : Nat}

/-- One round: the first node of the agenda goes out. -/
theorem Emitting.step (hl : Linked size parents children)
    (he : Emitting size children out (node :: agenda) waiting) :
    Emitting size children (node :: out)
      (insertAllSorted (· ≤ ·) (settle waiting (parents node)).2 agenda)
      (settle waiting (parents node)).1 := by
  have hready : IsReady size children out node := he.mem_iff.mp List.mem_cons_self
  obtain ⟨hnode, hagenda⟩ := List.nodup_cons.mp he.nodup
  refine ⟨he.awaits.settle hl hready, fun {n} => ?_, ?_, ?_⟩
  · rw [mem_insertAllSorted, he.awaits.mem_freed hl hready]
    constructor
    · rintro (⟨_, hn⟩ | hn)
      · exact hn
      · have hold : IsReady size children out n := he.mem_iff.mp (List.mem_cons_of_mem node hn)
        have hne : n ≠ node := by
          rintro rfl
          exact hnode hn
        exact ⟨hold.lt_size, by simp [hne, hold.notMem_out], fun c hc =>
          List.mem_cons_of_mem node (hold.children_out c hc)⟩
    · intro hn
      by_cases hchild : node ∈ children n
      · exact Or.inl ⟨hchild, hn⟩
      · have hold : n ∈ node :: agenda := he.mem_iff.mpr (hn.of_cons hchild)
        refine Or.inr ((List.mem_cons.mp hold).resolve_left ?_)
        rintro rfl
        exact hn.notMem_out List.mem_cons_self
  · refine (perm_insertAllSorted _ _ _).nodup_iff.mpr ?_
    refine List.nodup_append.mpr ⟨nodup_settle_freed _ _, hagenda, fun a ha b hb => ?_⟩
    rintro rfl
    obtain ⟨hchild, _⟩ := (he.awaits.mem_freed hl hready).mp ha
    have hold : IsReady size children out a := he.mem_iff.mp (List.mem_cons_of_mem node hb)
    exact hready.notMem_out (hold.children_out node hchild)
  · have htail : agenda.Pairwise fun a b => decide (a ≤ b) = true := by
      simpa using he.sorted.of_cons
    have hsorted := sorted_insertAllSorted (by simpa using fun _ _ _ => Nat.le_trans)
      (by simpa using Nat.le_total) (settle waiting (parents node)).2 htail
    simpa using hsorted

/-- The first node of the agenda is the least one that is ready. -/
theorem Emitting.isLeast (he : Emitting size children out (node :: agenda) waiting) :
    IsLeast {n | IsReady size children out n} node := by
  refine ⟨he.mem_iff.mp List.mem_cons_self, fun n hn => ?_⟩
  rcases List.mem_cons.mp (he.mem_iff.mpr hn) with rfl | hmem
  · exact Nat.le_refl n
  · exact List.rel_of_pairwise_cons he.sorted hmem

/-- Every node that goes out was the least one ready. -/
theorem Emitting.least_emitLeast (hl : Linked size parents children) (rounds : Nat)
    (he : Emitting size children out agenda waiting) :
    LeastReadyOrder size children out (emitLeast parents rounds agenda waiting) := by
  induction rounds generalizing out agenda waiting with
  | zero => trivial
  | succ rounds ih =>
      cases agenda with
      | nil => trivial
      | cons node agenda => exact ⟨he.isLeast, ih (he.step hl)⟩

/-- Without a cycle the emission does not stop before every node is out. -/
theorem Emitting.length_emitLeast (hl : Linked size parents children)
    (hwf : WellFounded fun c p => p ∈ parents c)
    (he : Emitting size children out agenda waiting) {rounds : Nat}
    (hrounds : rounds + out.length = size) :
    (emitLeast parents rounds agenda waiting).length = rounds := by
  induction rounds generalizing out agenda waiting with
  | zero => rfl
  | succ rounds ih =>
      cases agenda with
      | nil =>
          obtain ⟨n, hn, hout⟩ := exists_notMem_of_length_lt size out (by omega)
          obtain ⟨m, hm⟩ := exists_isReady hl hwf hn hout
          exact absurd (he.mem_iff.mpr hm) List.not_mem_nil
      | cons node agenda =>
          have hrest := ih (he.step hl) (by simp; omega)
          simp [emitLeast, hrest]

/-- At the start the nodes without children are ready. -/
theorem Emitting.start (hcount : ∀ p, waiting.getD p 0 = (children p).length) :
    Emitting size children [] ((List.range size).filter fun n => waiting.getD n 0 = 0) waiting := by
  refine ⟨Awaits.start hcount, fun {n} => ?_, List.nodup_range.filter _,
    List.pairwise_le_range.filter _⟩
  rw [List.mem_filter, List.mem_range, decide_eq_true_eq,
    (Awaits.start hcount).getD_eq_zero_iff n]
  exact ⟨fun h => ⟨h.1, List.not_mem_nil, h.2⟩, fun h => ⟨h.lt_size, h.children_out⟩⟩

/-! ## the order of a history -/

/-- A list whose parents all come later is a ready order as it stands. -/
theorem isChildrenFirst_iff (parents : List (List NodeId)) : isChildrenFirst parents = true ↔
    ∀ n, ∀ p ∈ loadedNodes (parents.getD n []), n ≤ p := by
  simp only [isChildrenFirst, List.all_eq_true, decide_eq_true_eq]
  constructor
  · intro h n p hp
    refine h (p, n) (List.count_pos_iff.mp ?_)
    rw [count_loadedMentions]
    exact List.count_pos_iff.mpr hp
  · rintro h ⟨p, n⟩ hmem
    refine h n p (List.count_pos_iff.mp ?_)
    rw [← count_loadedMentions]
    exact List.count_pos_iff.mpr hmem

section Order

variable {h : History}

theorem getD_map_length_children (h : History) (p : Nat) :
    (h.children.map List.length).getD p 0 = (h.loadedChildren p).length := by
  simp only [loadedChildren, childrenOf, Array.getD_eq_getD_getElem?, Array.getElem?_map]
  cases h.children[p]? <;> rfl

variable (hl : Linked h.size h.loadedParents h.loadedChildren)
include hl

/-- The emission over the tables of a history. -/
theorem least_childrenFirst :
    LeastReadyOrder h.size h.loadedChildren [] (childrenFirst h.parents h.children) :=
  (Emitting.start (getD_map_length_children h)).least_emitLeast hl _

theorem length_childrenFirst (hwf : WellFounded h.IsParent) :
    (childrenFirst h.parents h.children).length = h.size :=
  (Emitting.start (getD_map_length_children h)).length_emitLeast hl hwf (Nat.add_zero _)

variable (hown : ∀ {n p}, p ∈ h.loadedParents n → n ≠ p)
include hown

/-- Where no loaded parent comes before a child, the nodes as they are listed
are the least ready order. -/
theorem least_range (hfirst : ∀ c, ∀ p ∈ h.loadedParents c, c ≤ p) :
    LeastReadyOrder h.size h.loadedChildren [] (List.range h.size) := by
  have hbefore : ∀ p, ∀ c ∈ h.loadedChildren p, c < p := by
    intro p c hc
    have hp : p ∈ h.loadedParents c := hl.mem_children.mp hc
    exact Nat.lt_of_le_of_ne (hfirst c p hp) (hown hp)
  rw [List.range_eq_range']
  exact .range' hbefore (by simp) (Nat.zero_add _)

/-- Whichever way an order of the nodes is found, it takes the least node that
is ready each time. -/
theorem exists_least_of_orderOf? {order : RowOrder}
    (horder : orderOf? h.parents h.children = some order) :
    ∃ nodes, order = .ofList nodes ∧ nodes.length = h.size ∧
      LeastReadyOrder h.size h.loadedChildren [] nodes := by
  simp only [orderOf?] at horder
  split at horder
  · next hfirst =>
      have hfirst : ∀ c, ∀ p ∈ h.loadedParents c, c ≤ p := by
        simpa [isChildrenFirst_iff, loadedParents, parentsOf] using hfirst
      exact ⟨_, (Option.some.inj horder).symm, List.length_range, least_range hl hown hfirst⟩
  · split at horder
    · next hlen => exact ⟨_, (Option.some.inj horder).symm, hlen, least_childrenFirst hl⟩
    · contradiction

theorem topological_of_orderOf? {order : RowOrder}
    (horder : orderOf? h.parents h.children = some order) : order.Topological h := by
  obtain ⟨nodes, rfl, hlen, hleast⟩ := exists_least_of_orderOf? hl hown horder
  exact RowOrder.topological_of_readyOrder hl hleast.readyOrder hlen

end Order

/-! ## histories that load -/

variable {α : Type} [BEq α] [Hashable α] [EquivBEq α] [LawfulHashable α]
  {commits : List (Commit α)} {slots slots' : Placeholders α} {h : History}

/-- The order of a history that loads shows every node, children above
parents. -/
theorem topological_of_load (hload : load commits slots = .ok (h, slots')) :
    h.order.Topological h := by
  obtain ⟨_, _, _, _, _, _, horder⟩ := eq_of_load hload
  exact topological_of_orderOf? (linked_of_load hload) (ne_of_mem_loadedParents hload) horder

/-- Every history that loads is sound. -/
theorem sound_of_load (hload : load commits slots = .ok (h, slots')) : h.Sound :=
  ⟨linked_of_load hload, topological_of_load hload⟩

end History

end Lineage
