import Mathlib.Logic.Equiv.Basic
import Lineage.Proofs.Lanes

/-!
# Lineage.Proofs.Renumbering

One history with its nodes numbered in two ways.  What is computed from parents,
children and heads in a given order only moves along with the numbers; a number
matters just where it breaks a tie.

* `Moved` — tables whose entries stand at other indices.
* `mergeSort_of_perm_map` — a sort without ties forgets how its input was
  arranged.
* `Renumbers` — two histories that differ in their numbers alone.
* `Renumbers.heads_ofHistory`, `Renumbers.lane_ofHistory` — the lanes and the
  heads of the one are those of the other.
-/

namespace Lineage

/-! ## moved entries -/

/-- Two tables with the same entries, those of the second one at the indices
that `σ` gives them. -/
def Moved {β : Type} (σ : Equiv.Perm Nat) (a b : Array β) : Prop := ∀ i : Nat, b[σ i]? = a[i]?

namespace Moved

variable {β : Type} {σ : Equiv.Perm Nat} {a b : Array β}

theorem getD (hab : Moved σ a b) (i : Nat) (d : β) : b.getD (σ i) d = a.getD i d := by
  rw [Array.getD_eq_getD_getElem?, Array.getD_eq_getD_getElem?, hab i]

theorem lt_size_iff (hab : Moved σ a b) {i : Nat} : σ i < b.size ↔ i < a.size := by
  rw [← not_iff_not, Nat.not_lt, Nat.not_lt, ← Array.getElem?_eq_none_iff,
    ← Array.getElem?_eq_none_iff, hab i]

theorem setIfInBounds (hab : Moved σ a b) (i : Nat) (v : β) :
    Moved σ (a.setIfInBounds i v) (b.setIfInBounds (σ i) v) := by
  intro j
  simp only [Array.getElem?_setIfInBounds, hab.lt_size_iff, hab j, σ.apply_eq_iff_eq]

theorem replicate {count count' : Nat} (hcount : ∀ {i}, σ i < count' ↔ i < count) (v : β) :
    Moved σ (Array.replicate count v) (Array.replicate count' v) := by
  intro i
  simp only [Array.getElem?_replicate, hcount]

end Moved

/-! ## sorting without ties -/

/-- A comparison that puts the entries of a list in one order. -/
structure LinearOn {β : Type} (le : β → β → Bool) (xs : List β) : Prop where
  trans : ∀ a ∈ xs, ∀ b ∈ xs, ∀ c ∈ xs, le a b = true → le b c = true → le a c = true
  total : ∀ a ∈ xs, ∀ b ∈ xs, le a b = true ∨ le b a = true
  antisymm : ∀ a ∈ xs, ∀ b ∈ xs, le a b = true → le b a = true → a = b

section Sorting

variable {β γ : Type} {le : β → β → Bool} {le' : γ → γ → Bool} {xs : List β} {ys : List γ}
  {f : β → γ}

theorem LinearOn.perm {zs : List β} (hle : LinearOn le xs) (hperm : zs.Perm xs) :
    LinearOn le zs where
  trans a ha b hb c hc := hle.trans a (hperm.subset ha) b (hperm.subset hb) c (hperm.subset hc)
  total a ha b hb := hle.total a (hperm.subset ha) b (hperm.subset hb)
  antisymm a ha b hb := hle.antisymm a (hperm.subset ha) b (hperm.subset hb)

theorem LinearOn.map (hle : LinearOn le xs)
    (hf : ∀ a ∈ xs, ∀ b ∈ xs, le' (f a) (f b) = le a b) : LinearOn le' (xs.map f) := by
  refine ⟨?_, ?_, ?_⟩
  · simp only [List.forall_mem_map]
    intro a ha b hb c hc hab hbc
    rw [hf a ha b hb] at hab
    rw [hf b hb c hc] at hbc
    rw [hf a ha c hc]
    exact hle.trans a ha b hb c hc hab hbc
  · simp only [List.forall_mem_map]
    intro a ha b hb
    rw [hf a ha b hb, hf b hb a ha]
    exact hle.total a ha b hb
  · simp only [List.forall_mem_map]
    intro a ha b hb hab hba
    rw [hf a ha b hb] at hab
    rw [hf b hb a ha] at hba
    rw [hle.antisymm a ha b hb hab hba]

/-- A sort needs its comparison on the entries of the list only. -/
theorem LinearOn.pairwise_mergeSort (hle : LinearOn le xs) :
    (xs.mergeSort le).Pairwise (le · ·) := by
  let leOn : {x // x ∈ xs} → {x // x ∈ xs} → Bool := fun a b => le a.1 b.1
  have hattach : (xs.attach.mergeSort leOn).map Subtype.val = xs.mergeSort le := by
    rw [List.map_mergeSort (s := le) fun _ _ _ _ => rfl, List.attach_map_subtype_val]
  rw [← hattach, List.pairwise_map]
  refine List.pairwise_mergeSort (fun a b c => hle.trans a.1 a.2 b.1 b.2 c.1 c.2) (fun a b => ?_) _
  simpa using hle.total a.1 a.2 b.1 b.2

/-- The same entries under other names, however they are arranged, are sorted
in the same way. -/
theorem mergeSort_of_perm_map (hle : LinearOn le xs) (hperm : ys.Perm (xs.map f))
    (hf : ∀ a ∈ xs, ∀ b ∈ xs, le' (f a) (f b) = le a b) :
    ys.mergeSort le' = (xs.mergeSort le).map f := by
  have hmap := hle.map hf
  have hys := hmap.perm hperm
  rw [List.map_mergeSort fun a ha b hb => (hf a ha b hb).symm]
  refine List.Perm.eq_of_pairwise (fun a b ha hb => ?_) hys.pairwise_mergeSort
    hmap.pairwise_mergeSort ?_
  · rw [List.mem_mergeSort] at ha hb
    exact hys.antisymm a ha b (hperm.mem_iff.mpr hb)
  · exact (List.mergeSort_perm ys le').trans (hperm.trans (List.mergeSort_perm _ le').symm)

end Sorting

/-! ## one history, two numberings -/

/-- Two histories that differ in the numbers of their nodes alone. -/
structure Renumbers (σ : Equiv.Perm Nat) (h h' : History) : Prop where
  lt_size_iff : ∀ {n}, σ n < h'.size ↔ n < h.size
  parents : ∀ n, h'.loadedParents (σ n) = (h.loadedParents n).map σ
  children : ∀ n, (h'.loadedChildren (σ n)).Perm ((h.loadedChildren n).map σ)

namespace Renumbers

variable {σ : Equiv.Perm Nat} {h h' : History} (hr : Renumbers σ h h')
include hr

theorem perm_range : (List.range h'.size).Perm ((List.range h.size).map σ) := by
  refine (List.perm_ext_iff_of_nodup List.nodup_range
    (List.nodup_range.map σ.injective)).mpr fun n => ?_
  simp only [List.mem_range, List.mem_map]
  constructor
  · intro hn
    refine ⟨σ.symm n, ?_, σ.apply_symm_apply n⟩
    rwa [← hr.lt_size_iff, σ.apply_symm_apply]
  · rintro ⟨m, hm, rfl⟩
    exact hr.lt_size_iff.mpr hm

theorem size_eq : h'.size = h.size := by
  simpa using hr.perm_range.length_eq

theorem length_children (n : Nat) :
    (h'.loadedChildren (σ n)).length = (h.loadedChildren n).length := by
  simpa using (hr.children n).length_eq

/-- Nodes chosen by a property that does not depend on numbers. -/
theorem perm_filter_range {p q : Nat → Bool} (hpq : ∀ n, q (σ n) = p n) :
    ((List.range h'.size).filter q).Perm (((List.range h.size).filter p).map σ) := by
  have hcomp : q ∘ σ = p := funext hpq
  have hperm := hr.perm_range.filter q
  rwa [List.filter_map, hcomp] at hperm

theorem perm_headsOf : (Lanes.headsOf h').Perm ((Lanes.headsOf h).map σ) := by
  refine hr.perm_filter_range fun n => ?_
  rw [Bool.eq_iff_iff, List.isEmpty_iff_length_eq_zero, List.isEmpty_iff_length_eq_zero]
  exact Eq.congr_left (hr.length_children n)

/-- A way down is one between the same nodes. -/
theorem reach {u v : Nat} (huv : Relation.ReflTransGen h.IsParent u v) :
    Relation.ReflTransGen h'.IsParent (σ u) (σ v) := by
  refine huv.lift σ fun a b (hab : b ∈ h.loadedParents a) => ?_
  have hmem : σ b ∈ h'.loadedParents (σ a) := by
    rw [hr.parents a]
    exact List.mem_map_of_mem hab
  exact hmem

end Renumbers

/-! ## painting -/

namespace Painting

/-- Paintings of the same nodes under other numbers. -/
structure Renumbered (σ : Equiv.Perm Nat) (p p' : Painting) : Prop where
  lanes : Moved σ p.lanes p'.lanes
  closed : p'.closed = p.closed

variable {σ : Equiv.Perm Nat} {h h' : History} {p p' : Painting} {node parent : Nat}
  {rest : List Nat}

/-- A walk goes on to the first free parent. -/
theorem descend_push (hfound : (h.loadedParents node).find? p.isFree = some parent)
    (arrived : Bool) : p.descend h (node :: rest) arrived =
      (p.give parent).descend h (parent :: node :: rest) true := by
  rw [descend.eq_2]
  split
  · next first hfirst => rw [Option.some.inj (hfirst.symm.trans hfound)]
  · next hnone => simp only [hnone] at hfound; contradiction

/-- Without a free parent a walk goes back. -/
theorem descend_pop (hnone : (h.loadedParents node).find? p.isFree = none) (arrived : Bool) :
    p.descend h (node :: rest) arrived = (p.leave arrived).descend h rest false := by
  rw [descend.eq_2]
  split
  · next first hfirst => simp only [hfirst] at hnone; contradiction
  · rfl

namespace Renumbered

theorem current (hp : Renumbered σ p p') : p'.current = p.current := by
  rw [Painting.current, Painting.current, hp.closed]

theorem isFree (hp : Renumbered σ p p') (n : Nat) : p'.isFree (σ n) = p.isFree n := by
  rw [Painting.isFree, Painting.isFree, hp.lanes n]

theorem give (hp : Renumbered σ p p') (n : Nat) : Renumbered σ (p.give n) (p'.give (σ n)) := by
  refine ⟨?_, hp.closed⟩
  rw [Painting.give, Painting.give, hp.current]
  exact hp.lanes.setIfInBounds n p.current

theorem leave (hp : Renumbered σ p p') (arrived : Bool) :
    Renumbered σ (p.leave arrived) (p'.leave arrived) := by
  cases arrived with
  | false => exact hp
  | true => exact ⟨hp.lanes, congrArg (· + 1) hp.closed⟩

/-- The first free parent is the same node. -/
theorem find?_parent (hp : Renumbered σ p p') (hr : Renumbers σ h h') (n : Nat) :
    (h'.loadedParents (σ n)).find? p'.isFree = ((h.loadedParents n).find? p.isFree).map σ := by
  have hfree : p'.isFree ∘ σ = p.isFree := funext hp.isFree
  rw [hr.parents n, List.find?_map, hfree]

/-- Walks from the same stack take the same way. -/
theorem descend (hr : Renumbers σ h h') (hp : Renumbered σ p p') (stack : List Nat)
    (arrived : Bool) :
    Renumbered σ (p.descend h stack arrived) (p'.descend h' (stack.map σ) arrived) := by
  fun_induction Painting.descend h p stack arrived generalizing p' with
  | case1 p arrived =>
      rw [List.map_nil, Painting.descend]
      exact hp
  | case2 p arrived node rest parent hfound ih =>
      have hfound' : (h'.loadedParents (σ node)).find? p'.isFree = some (σ parent) := by
        rw [hp.find?_parent hr, hfound]
        rfl
      rw [List.map_cons, descend_push hfound']
      exact ih (hp.give parent)
  | case3 p arrived node rest hnone ih =>
      have hnone' : (h'.loadedParents (σ node)).find? p'.isFree = none := by
        rw [hp.find?_parent hr, hnone]
        rfl
      rw [List.map_cons, descend_pop hnone']
      exact ih (hp.leave arrived)

theorem paintAll (hr : Renumbers σ h h') (hp : Renumbered σ p p') (heads : List Nat) :
    Renumbered σ (p.paintAll h heads).1 (p'.paintAll h' (heads.map σ)).1 ∧
      (p'.paintAll h' (heads.map σ)).2 = (p.paintAll h heads).2 := by
  induction heads generalizing p p' with
  | nil => exact ⟨hp, rfl⟩
  | cons head heads ih =>
      have hpaint : Renumbered σ (p.paint h head) (p'.paint h' (σ head)) :=
        (hp.give head).descend hr [head] true
      obtain ⟨hlanes, hstarts⟩ := ih hpaint
      refine ⟨hlanes, ?_⟩
      simp only [List.map_cons, Painting.paintAll, hstarts, hp.current]

end Renumbered

end Painting

/-! ## lanes -/

/-- A comparison that is a strict total order on the values with a property. -/
structure StrictlyRanks {β : Type} (compare : β → β → Ordering) (S : β → Prop) : Prop where
  swap : ∀ {a b}, S a → S b → compare b a = (compare a b).swap
  trans : ∀ {a b c}, S a → S b → S c → compare a b = .lt → compare b c = .lt → compare a c = .lt
  eq : ∀ {a b}, S a → S b → compare a b = .eq → a = b

theorem strictlyRanks_of_lawful {β : Type} (compare : β → β → Ordering) [Std.TransCmp compare]
    [Std.LawfulEqCmp compare] (S : β → Prop) : StrictlyRanks compare S where
  swap _ _ := Std.OrientedCmp.eq_swap
  trans _ _ _ hab hbc := Std.TransCmp.lt_trans hab hbc
  eq _ _ hab := Std.LawfulEqCmp.eq_of_compare hab

theorem StrictlyRanks.linearOn {β : Type} {compare : β → β → Ordering} {S : β → Prop}
    (hc : StrictlyRanks compare S) {xs : List β} (hxs : ∀ x ∈ xs, S x) :
    LinearOn (fun a b => compare a b != .gt) xs := by
  have hlt : ∀ {a b}, a ∈ xs → b ∈ xs → (compare a b != .gt) = true →
      compare a b = .lt ∨ a = b := by
    intro a b ha hb hab
    cases hcompare : compare a b with
    | lt => exact Or.inl rfl
    | eq => exact Or.inr (hc.eq (hxs a ha) (hxs b hb) hcompare)
    | gt => simp [hcompare] at hab
  refine ⟨fun a ha b hb c hcm hab hbc => ?_, fun a ha b hb => ?_, fun a ha b hb hab hba => ?_⟩
  · rcases hlt ha hb hab with hab | rfl
    · rcases hlt hb hcm hbc with hbc | rfl
      · simp [hc.trans (hxs a ha) (hxs b hb) (hxs c hcm) hab hbc]
      · simp [hab]
    · exact hbc
  · rw [hc.swap (hxs a ha) (hxs b hb)]
    cases compare a b <;> simp
  · rcases hlt ha hb hab with hab | rfl
    · rw [hc.swap (hxs a ha) (hxs b hb), hab] at hba
      contradiction
    · rfl

namespace Renumbers

variable {σ : Equiv.Perm Nat} {h h' : History} {compare compare' : Nat → Nat → Ordering}
  (hr : Renumbers σ h h') (hstrict : StrictlyRanks compare h.IsHead)
  (hcompare : ∀ {a b}, h.IsHead a → h.IsHead b → compare' (σ a) (σ b) = compare a b)
include hr hstrict hcompare

/-- The heads come in the same order. -/
theorem heads_ofHistory :
    (Lanes.ofHistory h' compare').heads = (Lanes.ofHistory h compare).heads.map σ := by
  have hheads : ∀ n ∈ Lanes.headsOf h, h.IsHead n := fun n hn => History.mem_headsOf.mp hn
  refine mergeSort_of_perm_map (hstrict.linearOn hheads) hr.perm_headsOf fun a ha b hb => ?_
  rw [hcompare (hheads a ha) (hheads b hb)]

/-- Every node is in the same lane, and every head begins with the same one. -/
theorem lane_ofHistory :
    (∀ n, (Lanes.ofHistory h' compare').lane (σ n) = (Lanes.ofHistory h compare).lane n) ∧
      (Lanes.ofHistory h' compare').starts = (Lanes.ofHistory h compare).starts := by
  have hblank : Painting.Renumbered σ (Lanes.blank h) (Lanes.blank h') :=
    ⟨.replicate hr.lt_size_iff 0, rfl⟩
  have hheads := hr.heads_ofHistory hstrict hcompare
  obtain ⟨hlanes, hstarts⟩ := hblank.paintAll hr (Lanes.ofHistory h compare).heads
  rw [← hheads] at hlanes hstarts
  exact ⟨fun n => hlanes.lanes.getD n 0, hstarts⟩

end Renumbers

end Lineage
