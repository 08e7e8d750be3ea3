import Mathlib.Data.List.Infix
import Mathlib.Data.List.Nodup
import Lineage.Proofs.Table
import Lineage.Rebase.Strands

/-!
# Lineage.Proofs.Strands

The strands of a history.  A node is taken when it is put on a strand, and only
free nodes are put on one, so no node is on two strands or twice on one; that is
why one entry for each node is enough in the tables that say where it stands.

* `History.nodup_growAll`, `History.mem_growAll` — no node is taken twice, and
  none is left out.
* `Strands.Noted`, `Strands.noted_ofHistory` — the tables of numbers and offsets
  agree with the strands.
* `Strands.next?_eq_some_iff` — the node after a node, looked up in the tables.
-/

namespace Lineage

namespace History

variable {h : History} {lane : Nat → Nat} {taken : Marks} {node parent n : Nat} {nodes : List Nat}

/-! ## one strand -/

theorem grow_none (hnone : h.strandParent? lane taken node = none) :
    h.grow lane taken node = ([], taken) := by
  rw [grow]
  split
  · rfl
  · next next hnext => simp [hnone] at hnext

theorem grow_some (hsome : h.strandParent? lane taken node = some parent) :
    h.grow lane taken node = (parent :: (h.grow lane (taken.mark parent) parent).1,
      (h.grow lane (taken.mark parent) parent).2) := by
  rw [grow]
  split
  · next hnone => simp [hnone] at hsome
  · next next hnext => rw [Option.some.inj (hnext.symm.trans hsome)]

/-- The nodes of a strand are taken with it. -/
theorem has_grow (n : Nat) : (h.grow lane taken node).2.has n = true ↔
    n ∈ (h.grow lane taken node).1 ∨ taken.has n = true := by
  fun_induction h.grow lane taken node with
  | case1 taken node hnone => simp
  | case2 taken node parent hsome rest taken' hgrow ih =>
      rw [hgrow, Marks.has_mark] at ih
      rw [ih, List.mem_cons, or_left_comm, or_assoc]

theorem has_grow_eq_false : (h.grow lane taken node).2.has n = false ↔
    n ∉ (h.grow lane taken node).1 ∧ taken.has n = false := by
  rw [← Bool.not_eq_true, has_grow, not_or, Bool.not_eq_true]

/-- The nodes that a strand grows along were free. -/
theorem has_of_mem_grow (hn : n ∈ (h.grow lane taken node).1) : taken.has n = false := by
  fun_induction h.grow lane taken node with
  | case1 taken node hnone => contradiction
  | case2 taken node parent hsome rest taken' hgrow ih =>
      rw [hgrow] at ih
      rcases List.mem_cons.mp hn with rfl | hn
      · exact strandParent?_free hsome
      · exact (Marks.has_mark_eq_false.mp (ih hn)).2

/-- A strand does not come back to a node that is taken. -/
theorem notMem_grow_mark : n ∉ (h.grow lane (taken.mark n) node).1 := fun hmem =>
  (Marks.has_mark_eq_false.mp (has_of_mem_grow hmem)).1 rfl

theorem nodup_grow : (h.grow lane taken node).1.Nodup := by
  fun_induction h.grow lane taken node with
  | case1 taken node hnone => exact List.nodup_nil
  | case2 taken node parent hsome rest taken' hgrow ih =>
      have hnot : parent ∉ (h.grow lane (taken.mark parent) parent).1 := notMem_grow_mark
      rw [hgrow] at ih hnot
      exact List.nodup_cons.mpr ⟨hnot, ih⟩

/-! ## all strands -/

theorem growAll_cons_of_has (hnode : taken.has node = true) (nodes : List Nat) :
    h.growAll lane taken (node :: nodes) = h.growAll lane taken nodes := by
  rw [growAll, if_pos hnode]

theorem growAll_cons_of_free (hnode : taken.has node = false) (nodes : List Nat) :
    h.growAll lane taken (node :: nodes) = (node :: (h.grow lane (taken.mark node) node).1) ::
      h.growAll lane (h.grow lane (taken.mark node) node).2 nodes := by
  rw [growAll, if_neg (Bool.eq_false_iff.mp hnode)]

/-- Only free nodes are put on strands. -/
theorem has_of_mem_growAll {nodes : List Nat} (hn : n ∈ (h.growAll lane taken nodes).flatten) :
    taken.has n = false := by
  induction nodes generalizing taken with
  | nil => contradiction
  | cons node nodes ih =>
      cases hnode : taken.has node with
      | true =>
          rw [growAll_cons_of_has hnode] at hn
          exact ih hn
      | false =>
          rw [growAll_cons_of_free hnode, List.flatten_cons, List.mem_append, List.mem_cons] at hn
          rcases hn with (rfl | hn) | hn
          · exact hnode
          · exact (Marks.has_mark_eq_false.mp (has_of_mem_grow hn)).2
          · exact (Marks.has_mark_eq_false.mp (has_grow_eq_false.mp (ih hn)).2).2

/-- No node is put on two strands, or twice on one. -/
theorem nodup_growAll (nodes : List Nat) : (h.growAll lane taken nodes).flatten.Nodup := by
  induction nodes generalizing taken with
  | nil => exact List.nodup_nil
  | cons node nodes ih =>
      cases hnode : taken.has node with
      | true =>
          rw [growAll_cons_of_has hnode]
          exact ih
      | false =>
          rw [growAll_cons_of_free hnode, List.flatten_cons, List.nodup_append]
          refine ⟨List.nodup_cons.mpr ⟨notMem_grow_mark, nodup_grow⟩, ih, ?_⟩
          rintro a ha b hb rfl
          obtain ⟨hnot, hmark⟩ := has_grow_eq_false.mp (has_of_mem_growAll hb)
          rcases List.mem_cons.mp ha with rfl | ha
          · exact (Marks.has_mark_eq_false.mp hmark).1 rfl
          · exact hnot ha

/-- A free node whose turn comes is on a strand by then. -/
theorem mem_growAll (hn : n ∈ nodes) (hfree : taken.has n = false) :
    n ∈ (h.growAll lane taken nodes).flatten := by
  induction nodes generalizing taken with
  | nil => simp at hn
  | cons node nodes ih =>
      cases hnode : taken.has node with
      | true =>
          have hne : n ≠ node := by
            intro heq
            rw [heq, hnode] at hfree
            contradiction
          rw [growAll_cons_of_has hnode]
          exact ih (List.mem_of_ne_of_mem hne hn) hfree
      | false =>
          rw [growAll_cons_of_free hnode, List.flatten_cons, List.mem_append]
          by_cases hmem : n ∈ node :: (h.grow lane (taken.mark node) node).1
          · exact Or.inl hmem
          · have hstill : (h.grow lane (taken.mark node) node).2.has n = false := by
              rw [List.mem_cons, not_or] at hmem
              rw [has_grow_eq_false, Marks.has_mark_eq_false]
              exact ⟨hmem.2, hmem.1, hfree⟩
            exact Or.inr (ih (List.mem_of_ne_of_mem (List.ne_of_not_mem_cons hmem) hn) hstill)

end History

namespace Strands

variable {s : Strands} {h : History} {lanes : Lanes} {path : List Nat} {paths : List (List Nat)}
  {size a b b' n k : Nat}

/-! ## where the nodes stand -/

@[simp] theorem rows_note (s : Strands) (p : Nat × Nat) : (s.note p).rows = s.rows := rfl

/-- A note changes what is said of one node. -/
theorem spot?_note (s : Strands) (p : Nat × Nat) (n : Nat) : (s.note p).spot? n =
    if p.1 = n then (s.spot? n).map fun _ => (s.rows.size, p.2) else s.spot? n := by
  unfold spot? note
  rw [Array.getElem?_setIfInBounds, Array.getElem?_setIfInBounds]
  split
  · next heq =>
      subst heq
      by_cases hnumber : p.1 < s.number.size <;> by_cases hoffset : p.1 < s.offset.size <;>
        simp [hnumber, hoffset]
  · rfl

@[simp] theorem rows_notes (s : Strands) (ps : List (Nat × Nat)) :
    (ps.foldl note s).rows = s.rows := by
  induction ps generalizing s with
  | nil => rfl
  | cons p ps ih => rw [List.foldl_cons, ih, rows_note]

/-- The notes of a strand leave other nodes alone. -/
theorem spot?_notes_of_notMem (s : Strands) (k : Nat) (hn : n ∉ path) :
    ((path.zipIdx k).foldl note s).spot? n = s.spot? n := by
  induction path generalizing s k with
  | nil => rfl
  | cons node path ih =>
      rw [List.mem_cons, not_or] at hn
      rw [List.zipIdx_cons, List.foldl_cons, ih _ _ hn.2, spot?_note, if_neg (Ne.symm hn.1)]

/-- The notes of a strand say where on it a node stands. -/
theorem spot?_notes (s : Strands) (start : Nat) (hpath : path.Nodup) (hn : path[k]? = some n) :
    ((path.zipIdx start).foldl note s).spot? n =
      (s.spot? n).map fun _ => (s.rows.size, start + k) := by
  induction path generalizing s start k with
  | nil => simp at hn
  | cons node path ih =>
      obtain ⟨hnot, hpath⟩ := List.nodup_cons.mp hpath
      rw [List.zipIdx_cons, List.foldl_cons]
      cases k with
      | zero =>
          obtain rfl : node = n := by simpa using hn
          rw [spot?_notes_of_notMem _ _ hnot, spot?_note, if_pos rfl, Nat.add_zero]
      | succ k =>
          rw [List.getElem?_cons_succ] at hn
          have hne : node ≠ n := fun heq => hnot (heq ▸ List.mem_of_getElem? hn)
          rw [ih _ _ hpath hn, spot?_note, if_neg hne, rows_note, Nat.add_right_comm, Nat.add_assoc]

/-- The two tables agree with the strands: every node of a strand is noted with
its number and offset, and any node may be asked for. -/
structure Noted (s : Strands) (size : Nat) (paths : List (List Nat)) : Prop where
  paths_eq : s.paths = paths
  isSome : ∀ n, (s.spot? n).isSome = true ↔ n < size
  spot? : ∀ {i path k n}, paths[i]? = some path → path[k]? = some n → s.spot? n = some (i, k)

theorem getElem?_paths (s : Strands) (i : Nat) : s.paths[i]? = s.rows[i]?.map Array.toList := by
  rw [paths, List.getElem?_map, Array.getElem?_toList]

theorem length_paths (s : Strands) : s.paths.length = s.rows.size := by
  rw [paths, List.length_map, Array.length_toList]

theorem paths_push (s : Strands) (path : List Nat) : (s.push path).paths = s.paths ++ [path] := by
  simp [paths, push]

theorem spot?_push (s : Strands) (path : List Nat) (n : Nat) :
    (s.push path).spot? n = (path.zipIdx.foldl note s).spot? n := rfl

theorem noted_blank (size : Nat) : (blank size).Noted size [] := by
  constructor
  · rfl
  · intro n
    unfold blank spot?
    rw [Array.getElem?_replicate]
    split <;> simp [*]
  · intro i path k n hpath
    simp at hpath

/-- A further strand is noted if its nodes are on no other one. -/
theorem Noted.push (hs : s.Noted size paths) (hnodup : (paths ++ [path]).flatten.Nodup)
    (hlt : ∀ n ∈ path, n < size) : (s.push path).Noted size (paths ++ [path]) := by
  rw [List.flatten_append, List.flatten_singleton, List.nodup_append] at hnodup
  obtain ⟨_, hpath, hapart⟩ := hnodup
  have hlast : ∀ {k n}, path[k]? = some n → (s.push path).spot? n = some (paths.length, k) := by
    intro k n hn
    obtain ⟨spot, hspot⟩ := Option.isSome_iff_exists.mp
      ((hs.isSome n).mpr (hlt n (List.mem_of_getElem? hn)))
    rw [spot?_push, spot?_notes s 0 hpath hn, hspot, Option.map_some, Nat.zero_add,
      ← length_paths, hs.paths_eq]
  have hother : ∀ {n}, n ∉ path → (s.push path).spot? n = s.spot? n := fun hn =>
    spot?_notes_of_notMem s 0 hn
  constructor
  · rw [paths_push, hs.paths_eq]
  · intro n
    by_cases hn : n ∈ path
    · obtain ⟨k, hk⟩ := List.mem_iff_getElem?.mp hn
      simp [hlast hk, hlt n hn]
    · rw [hother hn]
      exact hs.isSome n
  · intro i other k n hat hn
    rw [List.getElem?_append] at hat
    split at hat
    · have hmem : n ∈ paths.flatten :=
        List.mem_flatten.mpr ⟨other, List.mem_of_getElem? hat, List.mem_of_getElem? hn⟩
      rw [hother fun hpath => hapart n hmem n hpath rfl]
      exact hs.spot? hat hn
    · rw [List.getElem?_singleton] at hat
      split at hat
      · obtain rfl := Option.some.inj hat
        obtain rfl : i = paths.length := by omega
        exact hlast hn
      · contradiction

/-- Strands without a common node are all noted. -/
theorem Noted.pushAll {more : List (List Nat)} (hs : s.Noted size paths)
    (hnodup : (paths ++ more).flatten.Nodup) (hlt : ∀ n ∈ more.flatten, n < size) :
    (more.foldl Strands.push s).Noted size (paths ++ more) := by
  induction more generalizing s paths with
  | nil => simpa using hs
  | cons path more ih =>
      rw [List.append_cons] at hnodup ⊢
      rw [List.flatten_cons, List.forall_mem_append] at hlt
      have hfirst : (paths ++ [path]).flatten.Nodup := by
        rw [List.flatten_append] at hnodup
        exact (List.nodup_append.mp hnodup).1
      exact ih (hs.push hfirst hlt.1) hnodup hlt.2

/-- The strands of a history are noted. -/
theorem noted_ofHistory (h : History) (lanes : Lanes) : (ofHistory h lanes).Noted h.size
    (h.growAll lanes.lane (Marks.blank h.size) (byLane h lanes.lane)) := by
  refine (noted_blank h.size).pushAll (History.nodup_growAll _) fun n hn => ?_
  have hfree := History.has_of_mem_growAll hn
  rw [← Bool.not_eq_true, Marks.has_blank] at hfree
  omega

theorem paths_ofHistory (h : History) (lanes : Lanes) : (ofHistory h lanes).paths =
    h.growAll lanes.lane (Marks.blank h.size) (byLane h lanes.lane) :=
  (noted_ofHistory h lanes).paths_eq

theorem nodup_paths (h : History) (lanes : Lanes) : (ofHistory h lanes).paths.flatten.Nodup := by
  rw [paths_ofHistory]
  exact History.nodup_growAll _

theorem lt_size_of_mem_paths (hn : n ∈ (ofHistory h lanes).paths.flatten) : n < h.size := by
  rw [paths_ofHistory] at hn
  have hfree := History.has_of_mem_growAll hn
  rw [← Bool.not_eq_true, Marks.has_blank] at hfree
  omega

/-- The nodes of the strands are those of the history, each of them once. -/
theorem perm_paths (h : History) (lanes : Lanes) :
    (ofHistory h lanes).paths.flatten.Perm (List.range h.size) := by
  refine (List.perm_ext_iff_of_nodup (nodup_paths h lanes) List.nodup_range).mpr fun n => ?_
  rw [List.mem_range]
  constructor
  · exact lt_size_of_mem_paths
  · intro hn
    rw [paths_ofHistory]
    refine History.mem_growAll ?_ ?_
    · simpa [byLane] using hn
    · rw [← Bool.not_eq_true, Marks.has_blank]
      omega

/-! ## the node after a node -/

/-- A node comes directly after another one on some strand. -/
def Follows (s : Strands) (a b : Nat) : Prop := ∃ path ∈ s.paths, [a, b] <:+: path

theorem pair_infix_iff_getElem? :
    [a, b] <:+: path ↔ ∃ k, path[k]? = some a ∧ path[k + 1]? = some b := by
  constructor
  · rintro ⟨before, after, rfl⟩
    exact ⟨before.length, by simp, by simp⟩
  · rintro ⟨k, ha, hb⟩
    obtain ⟨hk, rfl⟩ := List.getElem?_eq_some_iff.mp ha
    obtain ⟨hk', rfl⟩ := List.getElem?_eq_some_iff.mp hb
    refine ⟨path.take k, path.drop (k + 1 + 1), ?_⟩
    rw [List.append_assoc, List.cons_append, List.cons_append, List.nil_append,
      List.getElem_cons_drop, List.getElem_cons_drop, List.take_append_drop]

/-- What the tables say of a node that is noted. -/
theorem next?_of_spot? {i : Nat} (hpath : s.paths[i]? = some path) (hn : s.spot? n = some (i, k)) :
    s.next? n = path[k + 1]? := by
  rw [getElem?_paths, Option.map_eq_some_iff] at hpath
  obtain ⟨row, hrow, rfl⟩ := hpath
  rw [next?, hn]
  show (s.rows[i]? >>= _) = _
  rw [hrow]
  exact Array.getElem?_toList.symm

/-- The tables say which node comes after which on the strands. -/
theorem next?_eq_some_iff :
    (ofHistory h lanes).next? a = some b ↔ (ofHistory h lanes).Follows a b := by
  have hs := noted_ofHistory h lanes
  rw [← hs.paths_eq] at hs
  have hnext : ∀ {i path k}, (ofHistory h lanes).paths[i]? = some path → path[k]? = some a →
      (ofHistory h lanes).next? a = path[k + 1]? := fun hpath ha =>
    next?_of_spot? hpath (hs.spot? hpath ha)
  constructor
  · intro hb
    have ha : a ∈ (ofHistory h lanes).paths.flatten := by
      rw [(perm_paths h lanes).mem_iff, List.mem_range, ← hs.isSome]
      cases hspot : (ofHistory h lanes).spot? a with
      | none => simp [next?, hspot] at hb
      | some spot => rfl
    obtain ⟨path, hpath, hmem⟩ := List.mem_flatten.mp ha
    obtain ⟨i, hi⟩ := List.mem_iff_getElem?.mp hpath
    obtain ⟨k, hk⟩ := List.mem_iff_getElem?.mp hmem
    exact ⟨path, hpath, pair_infix_iff_getElem?.mpr ⟨k, hk, by rw [← hnext hi hk, hb]⟩⟩
  · rintro ⟨path, hpath, hpair⟩
    obtain ⟨i, hi⟩ := List.mem_iff_getElem?.mp hpath
    obtain ⟨k, ha, hb⟩ := pair_infix_iff_getElem?.mp hpair
    rw [hnext hi ha, hb]

/-- One node at most comes after another one. -/
theorem Follows.unique (hb : (ofHistory h lanes).Follows a b)
    (hb' : (ofHistory h lanes).Follows a b') : b = b' := by
  rw [← next?_eq_some_iff] at hb hb'
  exact Option.some.inj (hb.symm.trans hb')

end Strands

end Lineage
