import Mathlib.Data.Fintype.EquivFin
import Mathlib.Data.List.Lex
import Mathlib.Data.List.Nodup
import Mathlib.Data.List.Perm.Subperm
import Mathlib.Logic.Relation
import Mathlib.Order.Bounds.Defs
import Lineage.Ready
import Lineage.Proofs.Table

/-!
# Lineage.Proofs.Ready

The counts of an emission.  As long as every node counts the mentions by
children that are not out yet (`Awaits`), settling the parents of the next
node keeps the counts right and frees exactly the nodes whose last child this
was; and an order in which every node was ready (`ReadyOrder`) puts children
before parents.

* `Awaits.settle`, `Awaits.mem_freed` — one node goes out.
* `exists_isReady` — without a cycle some node is ready until all are out.
* `ReadyOrder.child_before` — what an emission promises about its order.
* `LeastReadyOrder.le` — taking the least ready node each time is never
  behind another ready order.
-/

namespace Lineage

/-! ## settling mentions -/

@[simp] theorem size_settle (waiting : Array Nat) (ps : List Nat) :
    (settle waiting ps).1.size = waiting.size := by
  induction ps generalizing waiting with
  | nil => simp [settle]
  | cons p ps ih =>
      simp only [settle]
      split
      · exact ih waiting
      · simp [ih]

/-- Every mention takes one off the count, down to zero. -/
theorem settle_getD (waiting : Array Nat) (ps : List Nat) (n : Nat) :
    (settle waiting ps).1.getD n 0 = waiting.getD n 0 - ps.count n := by
  induction ps generalizing waiting with
  | nil => simp [settle]
  | cons p ps ih =>
      simp only [settle]
      split
      · next hzero =>
          rw [ih]
          by_cases hpn : p = n
          · subst hpn
            omega
          · rw [List.count_cons_of_ne hpn]
      · next left hleft =>
          have hp : p < waiting.size := lt_size_of_getD_ne (d := 0) (by omega)
          rw [ih, getD_setIfInBounds]
          by_cases hpn : p = n
          · subst hpn
            rw [if_pos ⟨rfl, hp⟩, List.count_cons_self]
            omega
          · rw [if_neg (fun h => hpn h.1), List.count_cons_of_ne hpn]

/-- A node is freed by the mention that takes its count to zero. -/
theorem mem_settle_freed (waiting : Array Nat) (ps : List Nat) (n : Nat) :
    n ∈ (settle waiting ps).2 ↔ 0 < waiting.getD n 0 ∧ waiting.getD n 0 ≤ ps.count n := by
  induction ps generalizing waiting with
  | nil =>
      simp only [settle, List.not_mem_nil, List.count_nil, false_iff, not_and]
      omega
  | cons p ps ih =>
      simp only [settle]
      split
      · next hzero =>
          rw [ih]
          by_cases hpn : p = n
          · subst hpn
            omega
          · rw [List.count_cons_of_ne hpn]
      · next left hleft =>
          have hp : p < waiting.size := lt_size_of_getD_ne (d := 0) (by omega)
          have htail := ih (waiting.setIfInBounds p left)
          rw [getD_setIfInBounds] at htail
          by_cases hpn : p = n
          · subst hpn
            rw [if_pos ⟨rfl, hp⟩] at htail
            rw [List.count_cons_self]
            by_cases hl : left = 0
            · simp [hl, hleft]
            · rw [if_neg hl, htail, hleft]
              omega
          · rw [if_neg (fun h => hpn h.1)] at htail
            rw [List.count_cons_of_ne hpn, ← htail]
            by_cases hl : left = 0
            · simp [hl, Ne.symm hpn]
            · rw [if_neg hl]

/-- No node is freed twice. -/
theorem nodup_settle_freed (waiting : Array Nat) (ps : List Nat) :
    (settle waiting ps).2.Nodup := by
  induction ps generalizing waiting with
  | nil => simp [settle]
  | cons p ps ih =>
      simp only [settle]
      split
      · exact ih waiting
      · next left hleft =>
          by_cases hl : left = 0
          · subst hl
            have hlt : p < waiting.size := lt_size_of_getD_ne (d := 0) (by omega)
            have hp : p ∉ (settle (waiting.setIfInBounds p 0) ps).2 := by
              rw [mem_settle_freed, getD_setIfInBounds, if_pos ⟨rfl, hlt⟩]
              omega
            rw [if_pos rfl]
            exact List.nodup_cons.mpr ⟨hp, ih _⟩
          · rw [if_neg hl]
            exact ih _

/-! ## the agenda -/

theorem mem_insertAllSorted {β : Type} {before : β → β → Bool} {bs agenda : List β} {x : β} :
    x ∈ insertAllSorted before bs agenda ↔ x ∈ bs ∨ x ∈ agenda := by
  induction bs generalizing agenda with
  | nil => simp [insertAllSorted]
  | cons b bs ih =>
      have hstep : insertAllSorted before (b :: bs) agenda =
          insertAllSorted before bs (insertSorted before b agenda) := rfl
      rw [hstep, ih, mem_insertSorted, List.mem_cons, or_left_comm, or_assoc]

theorem perm_insertSorted {β : Type} (before : β → β → Bool) (b : β) (cs : List β) :
    (insertSorted before b cs).Perm (b :: cs) := by
  induction cs with
  | nil => simp [insertSorted]
  | cons c cs ih =>
      by_cases h : before c b = true
      · simpa [insertSorted, h] using (ih.cons c).trans (List.Perm.swap b c cs)
      · simp [insertSorted, h]

theorem perm_insertAllSorted {β : Type} (before : β → β → Bool) (bs agenda : List β) :
    (insertAllSorted before bs agenda).Perm (bs ++ agenda) := by
  induction bs generalizing agenda with
  | nil => simp [insertAllSorted]
  | cons b bs ih =>
      have hstep : insertAllSorted before (b :: bs) agenda =
          insertAllSorted before bs (insertSorted before b agenda) := rfl
      rw [hstep]
      calc insertAllSorted before bs (insertSorted before b agenda)
        _ |>.Perm (bs ++ insertSorted before b agenda) := ih _
        _ |>.Perm (bs ++ b :: agenda) := (perm_insertSorted before b agenda).append_left bs
        _ |>.Perm (b :: bs ++ agenda) := List.perm_middle

section Sorted

variable {β : Type} {before : β → β → Bool}
  (htrans : ∀ a b c, before a b = true → before b c = true → before a c = true)
  (htotal : ∀ a b, before a b = true ∨ before b a = true)
include htrans htotal

theorem sorted_insertSorted {b : β} {cs : List β} (hcs : cs.Pairwise (before · ·)) :
    (insertSorted before b cs).Pairwise (before · ·) := by
  induction cs with
  | nil => simp [insertSorted]
  | cons c cs ih =>
      obtain ⟨hc, htail⟩ := List.pairwise_cons.mp hcs
      by_cases hcb : before c b = true
      · have hmem : ∀ x ∈ insertSorted before b cs, before c x = true := by
          simp only [mem_insertSorted, forall_eq_or_imp]
          exact ⟨hcb, hc⟩
        simpa [insertSorted, hcb] using ⟨hmem, ih htail⟩
      · have hbc : before b c = true := (htotal b c).resolve_right hcb
        have hmem : ∀ x ∈ cs, before b x = true := fun x hx => htrans b c x hbc (hc x hx)
        simpa [insertSorted, hcb] using ⟨⟨hbc, hmem⟩, hc, htail⟩

/-- Inserting keeps an agenda sorted. -/
theorem sorted_insertAllSorted (bs : List β) {agenda : List β}
    (hagenda : agenda.Pairwise (before · ·)) :
    (insertAllSorted before bs agenda).Pairwise (before · ·) := by
  induction bs generalizing agenda with
  | nil => exact hagenda
  | cons b bs ih => exact ih (sorted_insertSorted htrans htotal hagenda)

end Sorted

/-! ## parents and children -/

/-- Parent and child lists of the nodes below a bound that mirror each other,
mention by mention. -/
structure Linked (size : Nat) (parents children : Nat → List Nat) : Prop where
  count_children : ∀ p c, (children p).count c = (parents c).count p
  parent_lt : ∀ {c p}, p ∈ parents c → p < size
  child_lt : ∀ {c p}, p ∈ parents c → c < size

variable {size : Nat} {parents children : Nat → List Nat}

theorem Linked.mem_children (hl : Linked size parents children) {p c : Nat} :
    c ∈ children p ↔ p ∈ parents c := by
  rw [← List.count_pos_iff, ← List.count_pos_iff, hl.count_children]

/-- A node that has yet to go out and whose children are all out. -/
structure IsReady (size : Nat) (children : Nat → List Nat) (out : List Nat) (n : Nat) : Prop where
  lt_size : n < size
  notMem_out : n ∉ out
  children_out : ∀ c ∈ children n, c ∈ out

/-- On the nodes below a bound a parent relation without cycles is
well-founded: there is no way up forever. -/
theorem Linked.wellFounded (hl : Linked size parents children)
    (hacyclic : ∀ n, ¬ Relation.TransGen (fun c p => p ∈ parents c) n n) :
    WellFounded fun c p => p ∈ parents c := by
  let below : Fin size → Fin size → Prop := Relation.TransGen fun c p => p.val ∈ parents c.val
  have hirrefl : ∀ n, ¬ below n n := fun n hn => hacyclic n (hn.lift Fin.val fun _ _ h => h)
  have : IsTrans (Fin size) below := ⟨fun _ _ _ => Relation.TransGen.trans⟩
  have : Std.Irrefl below := ⟨hirrefl⟩
  have hwf : WellFounded below := Finite.wellFounded_of_trans_of_irrefl below
  have hacc : ∀ n : Fin size, Acc (fun c p => p ∈ parents c) n.val := by
    intro n
    induction n using hwf.induction with
    | _ n ih => exact .intro _ fun c hc => ih ⟨c, hl.child_lt hc⟩ (.single hc)
  -- a node beyond the bound is no parent
  exact ⟨fun n => .intro n fun c hc => hacc ⟨c, hl.child_lt hc⟩⟩

/-- Where no way leads up forever, some node is ready as long as one has to go
out: any child that is still to come is a step up. -/
theorem exists_isReady (hl : Linked size parents children)
    (hwf : WellFounded fun c p => p ∈ parents c) {out : List Nat} {n : Nat} (hn : n < size)
    (hout : n ∉ out) : ∃ m, IsReady size children out m := by
  induction n using hwf.induction with
  | _ n ih =>
      by_cases hready : ∀ c ∈ children n, c ∈ out
      · exact ⟨n, hn, hout, hready⟩
      · push Not at hready
        obtain ⟨c, hc, hcout⟩ := hready
        have hmention := hl.mem_children.mp hc
        exact ih c hmention (hl.child_lt hmention) hcout

/-- A list shorter than the number of nodes misses one. -/
theorem exists_notMem_of_length_lt (size : Nat) (out : List Nat) (hlt : out.length < size) :
    ∃ n, n < size ∧ n ∉ out := by
  by_contra hall
  push Not at hall
  have hsub : (List.range size).Subperm out :=
    List.subperm_of_subset List.nodup_range fun n hn => hall n (List.mem_range.mp hn)
  have hle := hsub.length_le
  rw [List.length_range] at hle
  omega

/-- A node that is ready and no parent of the one that went out last was ready
before. -/
theorem IsReady.of_cons {out : List Nat} {n node : Nat}
    (h : IsReady size children (node :: out) n) (hchild : node ∉ children n) :
    IsReady size children out n := by
  refine ⟨h.lt_size, fun hn => h.notMem_out (List.mem_cons_of_mem node hn), fun c hc => ?_⟩
  rcases List.mem_cons.mp (h.children_out c hc) with rfl | hout
  · contradiction
  · exact hout

/-- Where an emission stands when the nodes of `out` are out: every node
counts the mentions by its other children, and no node went out before its
children. -/
structure Awaits (children : Nat → List Nat) (waiting : Array Nat) (out : List Nat) : Prop where
  count_eq : ∀ p, waiting.getD p 0 = (children p).countP fun c => decide (c ∉ out)
  closed : ∀ n ∈ out, ∀ c ∈ children n, c ∈ out

theorem countP_notMem_cons (cs out : List Nat) {node : Nat} (hnode : node ∉ out) :
    (cs.countP fun c => decide (c ∉ node :: out)) =
      (cs.countP fun c => decide (c ∉ out)) - cs.count node := by
  have hsplit : (cs.countP fun c => decide (c ∉ node :: out)) + cs.count node =
      cs.countP fun c => decide (c ∉ out) := by
    induction cs with
    | nil => simp
    | cons c cs ih =>
        by_cases hc : c = node
        · subst hc
          simp_all
          omega
        · simp_all [List.countP_cons]
          omega
  omega

namespace Awaits

variable {waiting : Array Nat} {out : List Nat} {node : Nat}

/-- A count of zero says that all children are out. -/
theorem getD_eq_zero_iff (h : Awaits children waiting out) (p : Nat) :
    waiting.getD p 0 = 0 ↔ ∀ c ∈ children p, c ∈ out := by
  rw [h.count_eq p, List.countP_eq_zero]
  simp

/-- Nothing is out, and every node counts all its children. -/
theorem start (hcount : ∀ p, waiting.getD p 0 = (children p).length) :
    Awaits children waiting [] :=
  ⟨fun p => by simp [hcount], by simp⟩

/-- The counts stay right when a node that is ready goes out. -/
theorem settle (hl : Linked size parents children) (h : Awaits children waiting out)
    (hready : IsReady size children out node) :
    Awaits children (settle waiting (parents node)).1 (node :: out) := by
  refine ⟨fun p => ?_, fun n hn c hc => List.mem_cons_of_mem node ?_⟩
  · rw [settle_getD, h.count_eq p, countP_notMem_cons _ _ hready.notMem_out, hl.count_children]
  · rcases List.mem_cons.mp hn with rfl | hn
    · exact hready.children_out c hc
    · exact h.closed n hn c hc

/-- The freed nodes are those that become ready: the node that goes out was
the last of their children. -/
theorem mem_freed (hl : Linked size parents children) (h : Awaits children waiting out)
    (hready : IsReady size children out node) {p : Nat} :
    p ∈ (Lineage.settle waiting (parents node)).2 ↔
      node ∈ children p ∧ IsReady size children (node :: out) p := by
  have hafter := (h.settle hl hready).getD_eq_zero_iff p
  rw [settle_getD] at hafter
  rw [mem_settle_freed]
  constructor
  · rintro ⟨hpos, hle⟩
    have hmention : p ∈ parents node := List.count_pos_iff.mp (by omega)
    have hchild : node ∈ children p := hl.mem_children.mpr hmention
    refine ⟨hchild, hl.parent_lt hmention, fun hp => hready.notMem_out ?_, hafter.mp (by omega)⟩
    rcases List.mem_cons.mp hp with rfl | hp
    · exact hready.children_out p hchild
    · exact h.closed p hp node hchild
  · rintro ⟨hchild, hp⟩
    have hzero := hafter.mpr hp.children_out
    refine ⟨?_, by omega⟩
    by_contra hnot
    exact hready.notMem_out ((h.getD_eq_zero_iff p).mp (by omega) node hchild)

end Awaits

/-! ## ready orders -/

/-- A list of nodes each of which is ready when its turn comes after those of
`out`. -/
def ReadyOrder (size : Nat) (children : Nat → List Nat) : (out nodes : List Nat) → Prop
  | _, [] => True
  | out, n :: ns => IsReady size children out n ∧ ReadyOrder size children (n :: out) ns

namespace ReadyOrder

variable {out nodes : List Nat}

theorem lt_size (h : ReadyOrder size children out nodes) : ∀ n ∈ nodes, n < size := by
  induction nodes generalizing out with
  | nil => simp
  | cons n ns ih =>
      simpa [h.1.lt_size] using ih h.2

theorem notMem_out (h : ReadyOrder size children out nodes) : ∀ n ∈ nodes, n ∉ out := by
  induction nodes generalizing out with
  | nil => simp
  | cons n ns ih =>
      intro m hm
      rcases List.mem_cons.mp hm with rfl | hm
      · exact h.1.notMem_out
      · exact fun hout => ih h.2 m hm (List.mem_cons_of_mem n hout)

theorem nodup (h : ReadyOrder size children out nodes) : nodes.Nodup := by
  induction nodes generalizing out with
  | nil => simp
  | cons n ns ih =>
      refine List.nodup_cons.mpr ⟨fun hn => ?_, ih h.2⟩
      exact notMem_out h.2 n hn List.mem_cons_self

/-- A child that is not out already stands in front of its parent. -/
theorem child_before (h : ReadyOrder size children out nodes) {p c : Nat} (hp : p ∈ nodes)
    (hc : c ∈ children p) (hout : c ∉ out) : [c, p].Sublist nodes := by
  induction nodes generalizing out with
  | nil => simp at hp
  | cons n ns ih =>
      obtain ⟨hready, htail⟩ := h
      have hpn : p ≠ n := by
        rintro rfl
        exact hout (hready.children_out c hc)
      have hpns : p ∈ ns := (List.mem_cons.mp hp).resolve_left hpn
      by_cases hcn : c = n
      · subst hcn
        exact List.Sublist.cons_cons _ (List.singleton_sublist.mpr hpns)
      · exact (ih htail hpns (by simp [hcn, hout])).cons n

/-- An order of as many nodes as there are holds all of them. -/
theorem mem_iff (h : ReadyOrder size children [] nodes) (hlen : nodes.length = size) {n : Nat} :
    n ∈ nodes ↔ n < size := by
  have hperm : nodes.Perm (List.range size) := by
    refine (List.subperm_of_subset h.nodup fun m hm => ?_).perm_of_length_le (by simp [hlen])
    exact List.mem_range.mpr (h.lt_size m hm)
  rw [hperm.mem_iff, List.mem_range]

/-- A list of nodes that are not out yet in which every child is out or stands
in front of its parents. -/
theorem of_sublist (hnodup : nodes.Nodup) (hnodes : ∀ n ∈ nodes, n < size ∧ n ∉ out)
    (hbefore : ∀ p ∈ nodes, ∀ c ∈ children p, c ∈ out ∨ [c, p].Sublist nodes) :
    ReadyOrder size children out nodes := by
  induction nodes generalizing out with
  | nil => trivial
  | cons n ns ih =>
      obtain ⟨hn, hns⟩ := List.nodup_cons.mp hnodup
      have hfirst : ∀ c ∈ children n, c ∈ out := by
        intro c hc
        rcases hbefore n List.mem_cons_self c hc with hout | hpair
        · exact hout
        · have hmem : n ∈ ns := by
            cases hpair with
            | cons _ hpair => exact hpair.subset (by simp)
            | cons_cons _ hpair => exact hpair.subset (by simp)
          contradiction
      obtain ⟨hlt, hout⟩ := hnodes n List.mem_cons_self
      refine ⟨⟨hlt, hout, hfirst⟩, ih hns (fun m hm => ?_) fun p hp c hc => ?_⟩
      · have hmn : m ≠ n := fun heq => hn (heq ▸ hm)
        have := hnodes m (List.mem_cons_of_mem n hm)
        simpa [hmn] using this
      · rcases hbefore p (List.mem_cons_of_mem n hp) c hc with hout | hpair
        · exact Or.inl (List.mem_cons_of_mem n hout)
        · cases hpair with
          | cons _ hpair => exact Or.inr hpair
          | cons_cons _ _ => exact Or.inl List.mem_cons_self

end ReadyOrder

/-! ## the least ready order -/

/-- A list of nodes each of which is the least one that is ready when its turn
comes after those of `out`. -/
def LeastReadyOrder (size : Nat) (children : Nat → List Nat) : (out nodes : List Nat) → Prop
  | _, [] => True
  | out, n :: ns =>
    IsLeast {m | IsReady size children out m} n ∧ LeastReadyOrder size children (n :: out) ns

namespace LeastReadyOrder

variable {out nodes other : List Nat}

theorem readyOrder (h : LeastReadyOrder size children out nodes) :
    ReadyOrder size children out nodes := by
  induction nodes generalizing out with
  | nil => trivial
  | cons n ns ih => exact ⟨h.1.1, ih h.2⟩

/-- No other ready order of as many nodes comes before it.  Up to the first
difference the same nodes are out, so the node of the other order was ready
and is not less. -/
theorem le (h : LeastReadyOrder size children out nodes)
    (hother : ReadyOrder size children out other) (hlen : nodes.length = other.length) :
    nodes ≤ other := by
  induction nodes generalizing out other with
  | nil =>
      cases other with
      | nil => exact le_refl []
      | cons m ms => contradiction
  | cons n ns ih =>
      cases other with
      | nil => contradiction
      | cons m ms =>
          have hnm : n ≤ m := h.1.2 hother.1
          rcases Nat.lt_or_eq_of_le hnm with hlt | rfl
          · exact le_of_lt (List.Lex.rel hlt)
          · exact List.cons_le_cons n (ih h.2 hother.2 (by simpa using hlen))

/-- Two such orders of as many nodes are the same. -/
theorem unique (h : LeastReadyOrder size children out nodes)
    (hother : LeastReadyOrder size children out other) (hlen : nodes.length = other.length) :
    nodes = other :=
  le_antisymm (h.le hother.readyOrder hlen) (hother.le h.readyOrder hlen.symm)

/-- Where children have smaller numbers than their parents, counting up is the
least ready order. -/
theorem range' (hfirst : ∀ p, ∀ c ∈ children p, c < p) {start count : Nat}
    (hout : ∀ n, n ∈ out ↔ n < start) (hsize : start + count = size) :
    LeastReadyOrder size children out (List.range' start count) := by
  induction count generalizing start out with
  | zero => trivial
  | succ count ih =>
      have hready : IsReady size children out start :=
        ⟨by omega, by simp [hout], fun c hc => (hout c).mpr (hfirst start c hc)⟩
      have hleast : ∀ m, IsReady size children out m → start ≤ m := by
        intro m hm
        have := mt (hout m).mpr hm.notMem_out
        omega
      refine ⟨⟨hready, hleast⟩, ih (fun n => ?_) (by omega)⟩
      rw [List.mem_cons, hout]
      omega

end LeastReadyOrder

end Lineage
