import Mathlib.Algebra.GroupWithZero.Nat
import Lineage.Proofs.Store

/-!
# Lineage.Proofs.Store.Filling

The flat table of children.  A node has as many places as it is mentioned, from
where those of the node before it end; each child goes to the next place of its
parent.  So no place is taken twice, none is left free, and every node gets its
children in the order in which they come.

* `Store.exists_offsetsOf` — where the places of each node begin.
* `Store.Layout.exists_put` — a child goes to a free place of its parent.
* `Store.Layout.exists_fill` — in the end every place is taken.
* `Store.Filled.slice_eq` — what is read back.
-/

namespace Lineage

namespace Store

variable {α : Type}

/-! ## offsets -/

/-- The offsets of some counts: each one is the sum of the counts before it. -/
structure Sums (counts : List UInt32) (offsets : Array UInt32) : Prop where
  size_eq : offsets.size = counts.length + 1
  getD_eq : ∀ {i}, i ≤ counts.length →
    (offsets.getD i 0).toNat = ((counts.take i).map UInt32.toNat).sum

theorem Sums.push {counts : List UInt32} {offsets : Array UInt32} {count next : UInt32}
    (h : Sums counts offsets)
    (hnext : next.toNat = (offsets.getD (offsets.size - 1) 0).toNat + count.toNat) :
    Sums (counts ++ [count]) (offsets.push next) where
  size_eq := by simp [h.size_eq]
  getD_eq {i} hi := by
    rw [List.length_append, List.length_singleton] at hi
    rw [getD_push, h.size_eq]
    rcases Nat.eq_or_lt_of_le hi with rfl | hi
    · rw [if_pos rfl, hnext, h.size_eq, Nat.add_sub_cancel, h.getD_eq (Nat.le_refl _),
        List.take_length, List.take_of_length_le (by simp)]
      simp
    · rw [if_neg (Nat.ne_of_lt hi), h.getD_eq (Nat.le_of_lt_succ hi),
        List.take_append_of_le_length (Nat.le_of_lt_succ hi)]

/-- Offsets fit their words if the sum of all counts does. -/
theorem exists_offsetsOf {counts : Array UInt32}
    (hsum : (counts.toList.map UInt32.toNat).sum < 4294967296) :
    ∃ offsets, (offsetsOf counts : Except (StoreFault α) (Array UInt32)) = .ok offsets ∧
      Sums counts.toList offsets := by
  have hrun : ∀ (rest done : List UInt32) (offsets : Array UInt32), Sums done offsets →
      ((done ++ rest).map UInt32.toNat).sum < 4294967296 →
      ∃ offsets', (rest.foldlM (fun offsets count => do
        let next ← word ((offsets.getD (offsets.size - 1) 0).toNat + count.toNat)
        .ok (offsets.push next)) offsets : Except (StoreFault α) (Array UInt32)) = .ok offsets' ∧
        Sums (done ++ rest) offsets' := by
    intro rest
    induction rest with
    | nil =>
        intro done offsets hsums _
        exact ⟨offsets, rfl, by simpa using hsums⟩
    | cons count rest ih =>
        intro done offsets hsums hlt
        have hlast := hsums.getD_eq (Nat.le_refl _)
        rw [List.take_length] at hlast
        obtain ⟨next, hword, hnext⟩ := exists_word (α := α)
          (n := (offsets.getD (offsets.size - 1) 0).toNat + count.toNat) (by
            rw [hsums.size_eq, Nat.add_sub_cancel, hlast]
            simp only [List.map_append, List.sum_append, List.map_cons, List.sum_cons] at hlt
            omega)
        obtain ⟨offsets', hrest, hsums'⟩ := ih (done ++ [count]) (offsets.push next)
          (hsums.push hnext) (by simpa using hlt)
        refine ⟨offsets', ?_, by simpa using hsums'⟩
        rw [List.foldlM_cons, hword]
        exact hrest
  have hstart : Sums [] #[0] := ⟨rfl, fun {i} hi => by
    obtain rfl := Nat.le_zero.mp hi
    rfl⟩
  exact hrun counts.toList [] #[0] hstart (by simpa using hsum)

/-! ## places -/

/-- The children that some entries put under a node. -/
def placed (entries : List (Nat × Int32)) (x : NodeId) : List Nat :=
  (entries.filter fun e => nodeOf e.2 == x).map (·.1)

theorem placed_append (entries : List (Nat × Int32)) (e : Nat × Int32) (x : NodeId) :
    placed (entries ++ [e]) x = placed entries x ++ if nodeOf e.2 = x then [e.1] else [] := by
  by_cases hx : nodeOf e.2 = x <;> simp [placed, hx]

/-- The loaded nodes below `nodes` and the placeholders below `missing`. -/
def InRange (nodes missing : Nat) : NodeId → Prop
  | .loaded p => p < nodes
  | .none => False
  | .missing m => m < missing

theorem InRange.mono {nodes missing missing' : Nat} (hle : missing ≤ missing') {x : NodeId}
    (h : InRange nodes missing x) : InRange nodes missing' x := by
  cases x with
  | loaded p => exact h
  | none => exact h
  | missing m => exact Nat.lt_of_lt_of_le h hle

/-- The places of some entries: those of a node begin at its `base` and end at
that of the next one, and no entry leads elsewhere. -/
structure Layout (base : Nat → Nat) (nodes missing room : Nat) (entries : List (Nat × Int32)) :
    Prop where
  base_succ : ∀ p < nodes, base (p + 1) = base p + (placed entries (.loaded p)).length
  base_le : base nodes ≤ room
  room_lt : room < 4294967296
  child_lt : ∀ e ∈ entries, e.1 < 4294967296
  inRange : ∀ e ∈ entries, InRange nodes missing (nodeOf e.2)

/-- What is in place after some entries. -/
structure Filled (base : Nat → Nat) (nodes missing room : Nat) (done : List (Nat × Int32))
    (f : Filling) : Prop where
  size_fill : f.fill.size = nodes
  /-- The children of a node so far are in front of its next place. -/
  fill_eq : ∀ p < nodes, (f.fill.getD p 0).toNat = base p + (placed done (.loaded p)).length
  size_upSources : f.upSources.size = room
  source_eq : ∀ p < nodes, ∀ j < (placed done (.loaded p)).length,
    f.upSources[base p + j]?.map UInt32.toNat = (placed done (.loaded p))[j]?
  size_missingUp : f.missingUp.size = missing
  missing_eq : ∀ m < missing,
    (f.missingUp.getD m #[]).toList.map UInt32.toNat = placed done (.missing m)

section Places

variable {base : Nat → Nat} {nodes missing room : Nat} {entries done rest : List (Nat × Int32)}
  {e : Nat × Int32} {f : Filling}

theorem Layout.base_mono (hl : Layout base nodes missing room entries) {p q : Nat} (hpq : p ≤ q)
    (hq : q ≤ nodes) : base p ≤ base q := by
  induction q, hpq using Nat.le_induction with
  | base => exact Nat.le_refl _
  | succ q _ ih =>
      have := ih (Nat.le_of_succ_le hq)
      have := hl.base_succ q hq
      omega

/-- While an entry is to come, a place of its node is free. -/
theorem length_placed_lt {p : Nat} (he : nodeOf e.2 = .loaded p) :
    (placed done (.loaded p)).length < (placed (done ++ e :: rest) (.loaded p)).length := by
  simp [placed, he]

theorem length_placed_le (x : NodeId) :
    (placed done x).length ≤ (placed (done ++ rest) x).length := by
  simp [placed]

/-- The next place of a node that an entry leads to is one of its own. -/
theorem Layout.place_lt (hl : Layout base nodes missing room (done ++ e :: rest)) {p : Nat}
    (he : nodeOf e.2 = .loaded p) :
    p < nodes ∧ base p + (placed done (.loaded p)).length < base (p + 1) ∧
      base (p + 1) ≤ room := by
  have hp := hl.inRange e (by simp)
  rw [he] at hp
  have hsucc := hl.base_succ p hp
  have hfree : (placed done (.loaded p)).length < (placed (done ++ e :: rest) (.loaded p)).length :=
    length_placed_lt he
  exact ⟨hp, by omega, (hl.base_mono hp (Nat.le_refl _)).trans hl.base_le⟩

/-- No place of another node is the next one of this node. -/
theorem Layout.place_ne (hl : Layout base nodes missing room (done ++ e :: rest)) {p q j : Nat}
    (he : nodeOf e.2 = .loaded p) (hq : q < nodes) (hqp : q ≠ p)
    (hj : j < (placed done (.loaded q)).length) :
    base q + j ≠ base p + (placed done (.loaded p)).length := by
  obtain ⟨hp, hplace, _⟩ := hl.place_lt he
  have hsucc := hl.base_succ q hq
  have hle : (placed done (.loaded q)).length ≤ (placed (done ++ e :: rest) (.loaded q)).length :=
    length_placed_le _
  rcases Nat.lt_or_gt_of_ne hqp with hlt | hlt
  · have := hl.base_mono (show q + 1 ≤ p from hlt) (Nat.le_of_lt hp)
    omega
  · have := hl.base_mono (show p + 1 ≤ q from hlt) (Nat.le_of_lt hq)
    omega

/-- A child goes to the next place of a loaded parent. -/
theorem Layout.exists_put_loaded (hl : Layout base nodes missing room (done ++ e :: rest))
    (hf : Filled base nodes missing room done f) {p : Nat} (he : nodeOf e.2 = .loaded p) :
    ∃ f', (f.put e : Except (StoreFault α) Filling) = .ok f' ∧
      Filled base nodes missing room (done ++ [e]) f' := by
  obtain ⟨hp, hplace, hroom⟩ := hl.place_lt he
  obtain ⟨child, hword, hchild⟩ := exists_word (α := α) (hl.child_lt e (by simp))
  have hnext := hf.fill_eq p hp
  have hsize : p < f.fill.size := hf.size_fill.symm ▸ hp
  have hlt : (f.fill.getD p 0).toNat < f.upSources.size := by
    rw [hnext, hf.size_upSources]
    omega
  obtain ⟨fill, hbump⟩ := exists_bump (α := α) hsize (by
    have := hl.room_lt
    omega)
  obtain ⟨hfill, hfills⟩ := eq_of_bump hbump
  refine ⟨{ f with fill, upSources := f.upSources.setIfInBounds (f.fill.getD p 0).toNat child },
    ?_, hfill.trans hf.size_fill, fun q hq => ?_, ?_, fun q hq j hj => ?_, hf.size_missingUp,
    fun m hm => ?_⟩
  · rw [Filling.put, he]
    exact bind_eq_ok_iff.mpr ⟨child, hword, bind_eq_ok_iff.mpr ⟨_, read_of_lt hsize 0,
      bind_eq_ok_iff.mpr ⟨_, write_eq_ok_iff.mpr ⟨hlt, rfl⟩,
        bind_eq_ok_iff.mpr ⟨fill, hbump, rfl⟩⟩⟩⟩
  · rw [hfills, hf.fill_eq q hq, placed_append, he]
    by_cases hpq : p = q <;> simp [hpq, Nat.add_assoc]
  · exact Array.size_setIfInBounds.trans hf.size_upSources
  · show (f.upSources.setIfInBounds _ child)[base q + j]?.map _ = _
    rw [Array.getElem?_setIfInBounds, hnext]
    rw [placed_append, he] at hj ⊢
    by_cases hpq : p = q
    · subst hpq
      rw [if_pos rfl, List.length_append, List.length_singleton] at hj
      rw [if_pos rfl]
      rcases Nat.eq_or_lt_of_le (Nat.le_of_lt_succ hj) with rfl | hj
      · rw [if_pos rfl, if_pos (by rw [hf.size_upSources]; omega),
          List.getElem?_append_right (Nat.le_refl _)]
        simp [hchild]
      · rw [if_neg (by omega), List.getElem?_append_left hj]
        exact hf.source_eq p hq j hj
    · have hother : NodeId.loaded p ≠ .loaded q := mt NodeId.loaded.inj hpq
      rw [if_neg hother, List.append_nil] at hj ⊢
      rw [if_neg (hl.place_ne he hq (Ne.symm hpq) hj).symm]
      exact hf.source_eq q hq j hj
  · rw [placed_append, he, if_neg (by simp), List.append_nil]
    exact hf.missing_eq m hm

/-- A child goes behind the others of a placeholder. -/
theorem Layout.exists_put_missing (hl : Layout base nodes missing room (done ++ e :: rest))
    (hf : Filled base nodes missing room done f) {m : Nat} (he : nodeOf e.2 = .missing m) :
    ∃ f', (f.put e : Except (StoreFault α) Filling) = .ok f' ∧
      Filled base nodes missing room (done ++ [e]) f' := by
  have hm := hl.inRange e (by simp)
  rw [he] at hm
  obtain ⟨child, hword, hchild⟩ := exists_word (α := α) (hl.child_lt e (by simp))
  have hsize : m < f.missingUp.size := hf.size_missingUp.symm ▸ hm
  refine ⟨{ f with
    missingUp := f.missingUp.setIfInBounds m ((f.missingUp.getD m #[]).push child) },
    ?_, hf.size_fill, fun q hq => ?_, hf.size_upSources, fun q hq j hj => ?_,
    Array.size_setIfInBounds.trans hf.size_missingUp, fun k hk => ?_⟩
  · rw [Filling.put, he]
    exact bind_eq_ok_iff.mpr ⟨child, hword, bind_eq_ok_iff.mpr ⟨_, read_of_lt hsize #[],
      bind_eq_ok_iff.mpr ⟨_, write_eq_ok_iff.mpr ⟨hsize, rfl⟩, rfl⟩⟩⟩
  · rw [placed_append, he, if_neg (by simp), List.append_nil]
    exact hf.fill_eq q hq
  · have hother : NodeId.missing m ≠ .loaded q := by simp
    rw [placed_append, he, if_neg hother, List.append_nil] at hj ⊢
    exact hf.source_eq q hq j hj
  · rw [getD_setIfInBounds, placed_append, he]
    by_cases hmk : m = k
    · subst hmk
      rw [if_pos ⟨rfl, hsize⟩, if_pos rfl, Array.toList_push, List.map_append,
        hf.missing_eq m hm]
      simp [hchild]
    · rw [if_neg (by simp [hmk]), if_neg (by simp [hmk]), List.append_nil]
      exact hf.missing_eq k hk

/-- A child goes to a free place of its parent. -/
theorem Layout.exists_put (hl : Layout base nodes missing room (done ++ e :: rest))
    (hf : Filled base nodes missing room done f) :
    ∃ f', (f.put e : Except (StoreFault α) Filling) = .ok f' ∧
      Filled base nodes missing room (done ++ [e]) f' := by
  cases he : nodeOf e.2 with
  | loaded p => exact hl.exists_put_loaded hf he
  | none =>
      have hnot := hl.inRange e (by simp)
      rw [he] at hnot
      exact hnot.elim
  | missing m => exact hl.exists_put_missing hf he

/-- In the end the children of all entries are in place. -/
theorem Layout.exists_fill (hl : Layout base nodes missing room (done ++ rest))
    (hf : Filled base nodes missing room done f) :
    ∃ f', (rest.foldlM Filling.put f : Except (StoreFault α) Filling) = .ok f' ∧
      Filled base nodes missing room (done ++ rest) f' := by
  induction rest generalizing done f with
  | nil => exact ⟨f, rfl, by simpa using hf⟩
  | cons e rest ih =>
      obtain ⟨next, hput, hnext⟩ := hl.exists_put (α := α) hf
      obtain ⟨f', hrest, hf'⟩ := ih (by simpa using hl) hnext
      refine ⟨f', ?_, by simpa using hf'⟩
      rw [List.foldlM_cons, hput]
      exact hrest

/-- Nothing is in place at first. -/
theorem filled_start (missing room : Nat) {offsets : Array UInt32} (hsize : nodes < offsets.size)
    (hbase : ∀ i ≤ nodes, (offsets.getD i 0).toNat = base i) :
    Filled base nodes missing room []
      { fill := offsets.extract 0 nodes
        upSources := Array.replicate room 0
        missingUp := Array.replicate missing #[] } where
  size_fill := by simp [Nat.min_eq_left (Nat.le_of_lt hsize)]
  fill_eq p hp := by
    have hin : p < offsets.size := hp.trans hsize
    show _ = base p
    rw [← hbase p (Nat.le_of_lt hp)]
    simp [Array.getD_eq_getD_getElem?, hp, hin]
  size_upSources := Array.size_replicate
  source_eq p hp j hj := by simp [placed] at hj
  size_missingUp := Array.size_replicate
  missing_eq m hm := by simp [Array.getD_eq_getD_getElem?, hm, placed]

/-- Between its base and the next one a node has its children. -/
theorem Filled.slice_eq (hl : Layout base nodes missing room entries)
    (hf : Filled base nodes missing room entries f) {offsets : Array UInt32}
    (hoffsets : ∀ i ≤ nodes, (offsets.getD i 0).toNat = base i) {p : Nat} (hp : p < nodes) :
    (slice offsets (f.upSources.extract 0 (base nodes)) p).map UInt32.toNat =
      placed entries (.loaded p) := by
  have hend : base (p + 1) ≤ base nodes := hl.base_mono hp (Nat.le_refl _)
  have hsucc := hl.base_succ p hp
  have hroom := hl.base_le
  have hlength : ((f.upSources.toList.extract (base p) (base (p + 1))).map UInt32.toNat).length =
      (placed entries (.loaded p)).length := by
    have hsize : f.upSources.toList.length = room := hf.size_upSources
    rw [List.length_map, List.extract_eq_take_drop, List.length_take, List.length_drop, hsize]
    omega
  rw [slice, hoffsets p (Nat.le_of_lt hp), hoffsets (p + 1) hp, Array.extract_extract, Nat.zero_add,
    Nat.zero_add, Nat.min_eq_left hend, Array.toList_extract]
  refine List.ext_getElem? fun j => ?_
  rcases Nat.lt_or_ge j (placed entries (.loaded p)).length with hj | hj
  · rw [← hf.source_eq p hp j hj, List.getElem?_map, List.extract_eq_take_drop,
      List.getElem?_take_of_lt (by omega), List.getElem?_drop, Array.getElem?_toList]
  · rw [List.getElem?_eq_none (by omega), List.getElem?_eq_none hj]

end Places

end Store

end Lineage
