/-!
# Lineage.Table

Tables indexed by small numbers, as every part of a history uses them: the
values gathered under each index, the position of each index in a list, and
marks on indices with a count of those still free.

* `gather_getD` — an index holds its own values, in the order of the pairs.
* `Marks.free_mark` — a new mark takes one free index.
-/

namespace Lineage

/-! ## values gathered by index -/

/-- For each index below `count`, the values paired with it, in order. -/
def gather {β : Type} (count : Nat) (pairs : List (Nat × β)) : Array (List β) :=
  pairs.foldr (fun p table => table.modify p.1 (p.2 :: ·)) (Array.replicate count [])

@[simp] theorem size_gather {β : Type} (count : Nat) (pairs : List (Nat × β)) :
    (gather count pairs).size = count := by
  induction pairs with
  | nil => simp [gather]
  | cons p ps ih => simpa [gather] using ih

theorem gather_getD {β : Type} (count : Nat) (pairs : List (Nat × β)) {k : Nat} (h : k < count) :
    (gather count pairs).getD k [] = (pairs.filter (·.1 == k)).map (·.2) := by
  induction pairs with
  | nil => simp [gather, Array.getD_eq_getD_getElem?, h]
  | cons p ps ih =>
    have hs : (gather count ps).size = count := size_gather count ps
    have hstep : gather count (p :: ps) = (gather count ps).modify p.1 (p.2 :: ·) := rfl
    rw [Array.getD_eq_getD_getElem?] at ih ⊢
    rw [hstep, Array.getElem?_modify]
    by_cases hk : p.1 = k
    · rw [Array.getElem?_eq_getElem (by omega)] at ih ⊢
      simp_all
    · simp_all

/-! ## positions in a list -/

/-- For each index below `count`, its position in `xs` (the last one, should
it occur more than once). -/
def positions (count : Nat) (xs : List Nat) : Array (Option Nat) :=
  xs.zipIdx.foldl (fun table p => table.setIfInBounds p.1 (some p.2)) (Array.replicate count none)

/-! ## marks -/

/-- Marks on the indices below a bound. -/
structure Marks where
  flags : Array Bool

namespace Marks

/-- No index below `count` is marked. -/
def blank (count : Nat) : Marks := ⟨Array.replicate count false⟩

/-- Whether an index is marked.  Indices beyond the bound count as marked, so
that only those below it are ever free. -/
def has (m : Marks) (i : Nat) : Bool := m.flags.getD i true

/-- The marks with one more. -/
def mark (m : Marks) (i : Nat) : Marks := ⟨m.flags.setIfInBounds i true⟩

/-- The marks with those of a list. -/
def markAll (m : Marks) (is : List Nat) : Marks := is.foldl mark m

/-- The number of indices without a mark. -/
def free (m : Marks) : Nat := m.flags.count false

theorem free_mark {m : Marks} {i : Nat} (h : m.has i = false) : (m.mark i).free + 1 = m.free := by
  obtain ⟨flags⟩ := m
  simp only [has, Array.getD_eq_getD_getElem?] at h
  have hi : i < flags.size := by
    rcases Nat.lt_or_ge i flags.size with hi | hi
    · exact hi
    · simp [Array.getElem?_eq_none hi] at h
  have hf : flags[i] = false := by simpa [Array.getElem?_eq_getElem hi] using h
  have hpos : 0 < flags.count false :=
    Array.count_pos_iff.2 (hf ▸ Array.getElem_mem hi)
  simp only [mark, free, Array.setIfInBounds, hi, dif_pos, Array.count_set hi, hf]
  simp
  omega

end Marks

end Lineage
