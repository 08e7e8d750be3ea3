import Mathlib.Data.List.Nodup
import Lineage.Directory
import Lineage.Proofs.Loading

/-!
# Lineage.Proofs.Directory

Names and numbers.  Placeholder slots and the commits that hold them name each
other, slots that are taken stay taken, and only commits that are not listed
take one; so a directory translates either way without loss.

* `Placeholders.Numbered`, `Placeholders.Extends` — what asking for slots
  keeps.
* `History.resolveCommits_spec` — the parents of a node are the nodes of the
  listed parents.
* `Directory.node?_ofCommits` — the nodes of a directory.
-/

namespace Lineage

variable {α : Type} [BEq α] [Hashable α]

/-! ## placeholder slots -/

namespace Placeholders

/-- Slots and commits name each other. -/
def Numbered (p : Placeholders α) : Prop :=
  ∀ (commit : α) (slot : Nat), p.slots[commit]? = some slot ↔ p.commits[slot]? = some commit

/-- Slots that are taken stay taken. -/
def Extends (p q : Placeholders α) : Prop :=
  ∀ (commit : α) (slot : Nat), p.commits[slot]? = some commit → q.commits[slot]? = some commit

variable {p q r : Placeholders α} {commit : α}

theorem Extends.refl (p : Placeholders α) : Extends p p := fun _ _ h => h

theorem Extends.trans (hpq : Extends p q) (hqr : Extends q r) : Extends p r := fun c s h =>
  hqr c s (hpq c s h)

/-- No commit has two slots. -/
theorem Numbered.nodup (hp : p.Numbered) : p.commits.toList.Nodup := by
  rw [List.nodup_iff_pairwise_ne, List.pairwise_iff_getElem]
  intro i j hi hj hij heq
  have hget : ∀ {k} (hk : k < p.commits.toList.length),
      p.slots[p.commits.toList[k]]? = some k := fun hk => (hp _ _).mpr (by simp)
  have hsame := (hget hi).symm.trans (heq ▸ hget hj)
  exact Nat.ne_of_lt hij (Option.some.inj hsame)

variable [LawfulBEq α]

theorem numbered_empty : (empty : Placeholders α).Numbered := by
  simp [Numbered, empty]

/-- Asking for a slot numbers one commit at most, the one that asks. -/
theorem slotFor_spec (hp : p.Numbered) (commit : α) :
    (p.slotFor commit).2.Numbered ∧ Extends p (p.slotFor commit).2 ∧
      (p.slotFor commit).2.commits[(p.slotFor commit).1]? = some commit ∧
      ∀ c ∈ (p.slotFor commit).2.commits, c ∈ p.commits ∨ c = commit := by
  rw [slotFor]
  split
  · next slot hslot => exact ⟨hp, .refl p, (hp commit slot).mp hslot, fun c hc => Or.inl hc⟩
  · next hnone =>
      have hpush : ∀ c s, (p.commits.push commit)[s]? = some c ↔
          s = p.size ∧ c = commit ∨ p.commits[s]? = some c := by
        intro c s
        rw [Array.getElem?_push]
        by_cases hs : s = p.size
        · subst hs
          simp [size, eq_comm]
        · rw [if_neg (by simpa [size] using hs)]
          simp [hs]
      refine ⟨fun c s => ?_, fun c s h => (hpush c s).mpr (Or.inr h),
        (hpush commit p.size).mpr (Or.inl ⟨rfl, rfl⟩), fun c hc => ?_⟩
      · rw [Std.HashMap.getElem?_insert, hpush, ← hp c s]
        by_cases hc : commit = c
        · subst hc
          simp [hnone, eq_comm]
        · simp [hc, Ne.symm hc]
      · exact Array.mem_push.mp hc

theorem reserve_spec (hp : p.Numbered) (commits : List α) :
    (p.reserve commits).Numbered ∧ Extends p (p.reserve commits) ∧
      (∀ c ∈ commits, ∃ s : Nat, (p.reserve commits).commits[s]? = some c) ∧
      ∀ c ∈ (p.reserve commits).commits, c ∈ p.commits ∨ c ∈ commits := by
  induction commits generalizing p with
  | nil => exact ⟨hp, .refl p, by simp, fun c hc => Or.inl hc⟩
  | cons x xs ih =>
      obtain ⟨hnum, hext, hslot, hmem⟩ := slotFor_spec hp x
      obtain ⟨hnum', hext', hslot', hmem'⟩ := ih hnum
      have hstep : p.reserve (x :: xs) = (p.slotFor x).2.reserve xs := rfl
      rw [hstep]
      refine ⟨hnum', hext.trans hext', List.forall_mem_cons.mpr ⟨⟨_, hext' _ _ hslot⟩, hslot'⟩,
        fun c hc => ?_⟩
      rcases hmem' c hc with hc | hc
      · exact (hmem c hc).imp_right fun h : c = x => h ▸ List.mem_cons_self
      · exact Or.inr (List.mem_cons_of_mem x hc)

end Placeholders

namespace History

/-! ## the names of parents -/

/-- A node is that of a parent: its position if it is listed, else its
placeholder. -/
def Named (index : Std.HashMap α Nat) (slots : Placeholders α) (parent : α) : NodeId → Prop
  | .loaded n => index[parent]? = some n
  | .none => False
  | .missing s => index[parent]? = none ∧ slots.commits[s]? = some parent

theorem Named.mono {index : Std.HashMap α Nat} {p q : Placeholders α}
    (hpq : Placeholders.Extends p q) {parent : α} {id : NodeId} (h : Named index p parent id) :
    Named index q parent id := by
  cases id with
  | loaded n => exact h
  | none => exact h
  | missing s => exact ⟨h.1, hpq _ _ h.2⟩

/-- What numbering a list of parents keeps: slots stay numbered and taken, and
only those of the parents that are not in the index take one. -/
structure Resolving (index : Std.HashMap α Nat) (parents : List α) (p q : Placeholders α) :
    Prop where
  numbered : q.Numbered
  extends_ : Placeholders.Extends p q
  fresh : ∀ c ∈ q.commits, c ∈ p.commits ∨ c ∈ parents ∧ index[c]? = none

theorem Resolving.refl {index : Std.HashMap α Nat} {p : Placeholders α} (hp : p.Numbered)
    (parents : List α) : Resolving index parents p p :=
  ⟨hp, .refl p, fun _ hc => Or.inl hc⟩

theorem Resolving.append {index : Std.HashMap α Nat} {parents parents' : List α}
    {p q r : Placeholders α} (hpq : Resolving index parents p q)
    (hqr : Resolving index parents' q r) : Resolving index (parents ++ parents') p r := by
  refine ⟨hqr.numbered, hpq.extends_.trans hqr.extends_, fun c hc => ?_⟩
  rcases hqr.fresh c hc with hc | ⟨hmem, hnone⟩
  · exact (hpq.fresh c hc).imp_right fun h => ⟨List.mem_append_left _ h.1, h.2⟩
  · exact Or.inr ⟨List.mem_append_right _ hmem, hnone⟩

variable [LawfulBEq α] (index : Std.HashMap α Nat) {p : Placeholders α}

theorem resolve_spec (hp : p.Numbered) (parent : α) :
    Resolving index [parent] p (resolve index p parent).2 ∧
      Named index (resolve index p parent).2 parent (resolve index p parent).1 := by
  rw [resolve]
  split
  · next n hn => exact ⟨.refl hp _, hn⟩
  · next hnone =>
      obtain ⟨hnum, hext, hslot, hmem⟩ := Placeholders.slotFor_spec hp parent
      refine ⟨⟨hnum, hext, fun c hc => ?_⟩, hnone, hslot⟩
      exact (hmem c hc).imp_right fun h : c = parent => by simp [h, hnone]

theorem resolveAll_spec (hp : p.Numbered) (parents : List α) :
    Resolving index parents p (resolveAll index p parents).2 ∧
      List.Forall₂ (Named index (resolveAll index p parents).2) parents
        (resolveAll index p parents).1 := by
  induction parents generalizing p with
  | nil => exact ⟨.refl hp _, .nil⟩
  | cons x xs ih =>
      obtain ⟨hfirst, hname⟩ := resolve_spec index hp x
      obtain ⟨hrest, hnames⟩ := ih hfirst.numbered
      exact ⟨hfirst.append hrest, .cons (hname.mono hrest.extends_) hnames⟩

theorem resolveCommits_spec (hp : p.Numbered) (commits : List (Commit α)) :
    Resolving index (commits.flatMap (·.parents)) p (resolveCommits index p commits).2 ∧
      List.Forall₂ (fun c ids => List.Forall₂ (Named index (resolveCommits index p commits).2)
        c.parents ids) commits (resolveCommits index p commits).1 := by
  induction commits generalizing p with
  | nil => exact ⟨.refl hp _, .nil⟩
  | cons c cs ih =>
      obtain ⟨hfirst, hnames⟩ := resolveAll_spec index hp c.parents
      obtain ⟨hrest, htable⟩ := ih hfirst.numbered
      refine ⟨hfirst.append hrest, .cons ?_ htable⟩
      exact hnames.imp fun _ _ hname => hname.mono hrest.extends_

/-! ## the index of a commit list -/

/-- A list that has no repeated id. -/
theorem nodup_of_firstRepeated {ids : List α} (h : firstRepeated ∅ ids = none) : ids.Nodup := by
  simpa [List.nodup_iff_pairwise_ne] using (firstRepeated_eq_none_iff.mp h).1

/-- Entering values under distinct keys: the keys of the list get theirs, any
other key keeps what it had. -/
theorem getElem?_enter {β γ : Type} (key : β → α) (value : Nat → γ) {xs : List β}
    (hnodup : (xs.map key).Nodup) (k : Nat) (m : Std.HashMap α γ) {a : α} {v : γ} :
    ((xs.zipIdx k).foldl (fun m p => m.insert (key p.1) (value p.2)) m)[a]? = some v ↔
      (∃ i, (xs.map key)[i]? = some a ∧ value (k + i) = v) ∨ a ∉ xs.map key ∧ m[a]? = some v := by
  induction xs generalizing k m with
  | nil => simp
  | cons x xs ih =>
      obtain ⟨hx, hnodup⟩ := List.nodup_cons.mp hnodup
      rw [List.zipIdx_cons, List.foldl_cons, ih hnodup, Std.HashMap.getElem?_insert]
      have hsucc : (∃ i, ((x :: xs).map key)[i]? = some a ∧ value (k + i) = v) ↔
          (key x = a ∧ value k = v) ∨ ∃ i, (xs.map key)[i]? = some a ∧ value (k + 1 + i) = v := by
        constructor
        · rintro ⟨i, hi, hv⟩
          cases i with
          | zero => exact Or.inl ⟨by simpa using hi, hv⟩
          | succ i => exact Or.inr ⟨i, by simpa using hi, by rwa [Nat.add_right_comm]⟩
        · rintro (⟨rfl, hv⟩ | ⟨i, hi, hv⟩)
          · exact ⟨0, by simp, hv⟩
          · exact ⟨i + 1, by simpa using hi, by rwa [Nat.add_right_comm] at hv⟩
      rw [hsucc, or_assoc, List.map_cons, List.mem_cons]
      by_cases hxa : key x = a
      · subst hxa
        simp [hx, or_comm]
      · simp [hxa, Ne.symm hxa]

/-- The index holds the positions of the listed ids. -/
theorem getElem?_indexOf {commits : List (Commit α)} (hnodup : (commits.map (·.id)).Nodup)
    {id : α} {n : Nat} : (indexOf commits)[id]? = some n ↔ (commits.map (·.id))[n]? = some id := by
  rw [indexOf, getElem?_enter (fun c : Commit α => c.id) (fun i => i) hnodup]
  simp

theorem getElem?_indexOf_eq_none {commits : List (Commit α)}
    (hnodup : (commits.map (·.id)).Nodup) {id : α} :
    (indexOf commits)[id]? = none ↔ id ∉ commits.map (·.id) := by
  rw [Option.eq_none_iff_forall_ne_some, List.mem_iff_getElem?, not_exists]
  exact forall_congr' fun n => not_congr (getElem?_indexOf hnodup)

end History

namespace Directory

variable [LawfulBEq α] {commits : List (Commit α)} {missing : List α}

/-! ## directories -/

/-- The nodes of a directory: a listed id has its position, a placeholder its
slot. -/
theorem node?_ofCommits (hnodup : (commits.map (·.id)).Nodup) (hmissing : missing.Nodup)
    (hunlisted : ∀ id ∈ missing, id ∉ commits.map (·.id)) {id : α} {node : NodeId} :
    (ofCommits commits missing).node? id = some node ↔
      (∃ n, (commits.map (·.id))[n]? = some id ∧ .loaded n = node) ∨
        ∃ s, missing[s]? = some id ∧ .missing s = node := by
  have hloaded := History.getElem?_enter (fun c : Commit α => c.id) NodeId.loaded hnodup 0 ∅
    (a := id) (v := node)
  have hboth := History.getElem?_enter (fun id : α => id) NodeId.missing
    (by simpa using hmissing) 0
    (commits.zipIdx.foldl (fun nodes p => nodes.insert p.1.id (.loaded p.2)) ∅)
    (a := id) (v := node)
  simp only [List.map_id', Nat.zero_add] at hloaded hboth
  rw [node?, ofCommits, hboth, hloaded]
  constructor
  · rintro (hs | ⟨_, hn | ⟨_, hempty⟩⟩)
    · exact Or.inr hs
    · exact Or.inl hn
    · simp at hempty
  · rintro (⟨n, hn, hnode⟩ | hs)
    · refine Or.inr ⟨fun hmem => hunlisted id hmem (List.mem_of_getElem? hn), Or.inl ⟨n, hn, hnode⟩⟩
    · exact Or.inl hs

end Directory

end Lineage
