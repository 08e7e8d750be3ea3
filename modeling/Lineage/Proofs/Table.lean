import Mathlib.Data.List.Flatten
import Mathlib.Data.List.Nodup
import Lineage.Table

/-!
# Lineage.Proofs.Table

What the tables of a history hold, read through `getD` and `has` alone:

* `positions_getD_eq_some_iff` — the table of positions inverts a list
  without repetitions;
* `Marks.has_markAll` — the marks after marking the indices of a list;
* `count_flatMap_zipIdx` — a list drawn from numbered rows holds an item as
  often as the row of its number does.
-/

namespace Lineage

/-! ## order in a list -/

/-- Of two entries of a list without repetitions, the one in front stands at
the smaller index. -/
theorem lt_of_pair_sublist {β : Type} {xs : List β} {a b : β} {i j : Nat} (hxs : xs.Nodup)
    (hab : [a, b].Sublist xs) (hi : xs[i]? = some a) (hj : xs[j]? = some b) : i < j := by
  induction xs generalizing i j with
  | nil => simp at hi
  | cons x xs ih =>
      obtain ⟨hx, hxs⟩ := List.nodup_cons.mp hxs
      cases hab with
      | cons _ hab =>
          have ha : a ∈ xs := hab.subset (by simp)
          have hb : b ∈ xs := hab.subset (by simp)
          cases i with
          | zero => simp at hi; subst hi; contradiction
          | succ i =>
              cases j with
              | zero => simp at hj; subst hj; contradiction
              | succ j => have := ih hxs hab hi hj; omega
      | cons_cons _ hb =>
          have hb : b ∈ xs := hb.subset (by simp)
          have hi0 : i = 0 := by
            cases i with
            | zero => rfl
            | succ i =>
                rw [List.getElem?_cons_succ] at hi
                exact absurd (List.mem_of_getElem? hi) hx
          have hj0 : j ≠ 0 := by
            rintro rfl
            simp at hj
            subst hj
            contradiction
          omega

/-- Two entries of a list without repetitions stand in one order only. -/
theorem not_pair_sublist_swap {β : Type} {xs : List β} {a b : β} (hxs : xs.Nodup)
    (hab : [a, b].Sublist xs) : ¬ [b, a].Sublist xs := by
  intro hba
  obtain ⟨i, hi⟩ := List.mem_iff_getElem?.mp (hab.subset List.mem_cons_self)
  obtain ⟨j, hj⟩ := List.mem_iff_getElem?.mp (hba.subset List.mem_cons_self)
  have hij := lt_of_pair_sublist hxs hab hi hj
  have hji := lt_of_pair_sublist hxs hba hj hi
  omega

/-- Entries from an earlier and a later block of a list of blocks. -/
theorem pair_sublist_flatMap {β γ : Type} {f : β → List γ} {xs : List β} {x y : β} {a b : γ}
    (hxy : [x, y].Sublist xs) (ha : a ∈ f x) (hb : b ∈ f y) : [a, b].Sublist (xs.flatMap f) := by
  rw [List.flatMap_def]
  refine List.Sublist.trans ?_ (hxy.map f).flatten
  simpa using (List.singleton_sublist.mpr ha).append (List.singleton_sublist.mpr hb)

/-- A list drawn from one entry of a list without repetitions only. -/
theorem flatMap_eq_of_nodup {β γ : Type} {f : β → List γ} {xs : List β} {x : β} (hxs : xs.Nodup)
    (hx : x ∈ xs) (hnil : ∀ y ∈ xs, y ≠ x → f y = []) : xs.flatMap f = f x := by
  obtain ⟨front, back, rfl⟩ := List.append_of_mem hx
  obtain ⟨_, hnodup, hne⟩ := List.nodup_append.mp hxs
  obtain ⟨hout, _⟩ := List.nodup_cons.mp hnodup
  have hfront : front.flatMap f = [] := List.flatMap_eq_nil_iff.mpr fun y hy =>
    hnil y (by simp [hy]) (hne y hy x List.mem_cons_self)
  have hback : back.flatMap f = [] := List.flatMap_eq_nil_iff.mpr fun y hy =>
    hnil y (by simp [hy]) fun heq => hout (heq ▸ hy)
  rw [List.flatMap_append, List.flatMap_cons, hfront, hback, List.nil_append, List.append_nil]

/-- A filter that keeps at most the own entry of each block. -/
theorem filter_flatMap_eq_filter {β : Type} {f : β → List β} {p : β → Bool} {xs : List β}
    (hf : ∀ x ∈ xs, (f x).filter p = if p x then [x] else []) :
    (xs.flatMap f).filter p = xs.filter p := by
  induction xs with
  | nil => rfl
  | cons x xs ih =>
      obtain ⟨hx, hrest⟩ := List.forall_mem_cons.mp hf
      rw [List.flatMap_cons, List.filter_append, hx, ih hrest, List.filter_cons]
      split <;> rfl

/-- Smaller numbers stand in front in an ascending range. -/
theorem pair_sublist_range {a b n : Nat} (hab : a < b) (hb : b < n) :
    [a, b].Sublist (List.range n) := by
  induction n with
  | zero => omega
  | succ n ih =>
      rw [List.range_succ]
      rcases Nat.lt_or_ge b n with hbn | hbn
      · exact (ih hbn).trans (List.sublist_append_left _ _)
      · have hbn : b = n := by omega
        subst hbn
        exact (List.singleton_sublist.mpr (List.mem_range.mpr hab)).append (List.Sublist.refl [b])

/-- A prefix is as long as the property that it is taken by holds. -/
theorem length_takeWhile {β : Type} {xs : List β} {f : β → Bool} {k : Nat} (hk : k ≤ xs.length)
    (hf : ∀ j x, xs[j]? = some x → (f x = true ↔ j < k)) : (xs.takeWhile f).length = k := by
  induction xs generalizing k with
  | nil =>
      obtain rfl : k = 0 := by simpa using hk
      rfl
  | cons x xs ih =>
      have hx := hf 0 x rfl
      cases k with
      | zero => simp [hx]
      | succ k =>
          have hrest := ih (by simpa using hk) fun j y hy => by simpa using hf (j + 1) y hy
          simp [hx, hrest]

/-- The entries of a list, place by place. -/
theorem filterMap_getElem?_range {β : Type} (xs : List β) :
    (List.range xs.length).filterMap (fun n => xs[n]?) = xs := by
  induction xs with
  | nil => rfl
  | cons x xs ih =>
      rw [List.length_cons, List.range_succ_eq_map, List.filterMap_cons, List.filterMap_map]
      exact congrArg (x :: ·) ih

/-- A pick that never fails leaves nothing out. -/
theorem map_some_filterMap {β γ : Type} {f : β → Option γ} {xs : List β}
    (hxs : ∀ x ∈ xs, (f x).isSome = true) : (xs.filterMap f).map some = xs.map f := by
  rw [List.map_filterMap, List.filterMap_eq_map_iff_forall_eq_some]
  intro x hx
  obtain ⟨y, hy⟩ := Option.isSome_iff_exists.mp (hxs x hx)
  rw [hy, Option.map_some]

/-! ## lists without repetitions -/

theorem nodup_eraseDups {β : Type} [BEq β] [LawfulBEq β] (xs : List β) : xs.eraseDups.Nodup := by
  induction hk : xs.length using Nat.strongRecOn generalizing xs with
  | _ k ih =>
      cases xs with
      | nil => simp
      | cons x xs =>
          have hle := List.length_filter_le (fun y => !y == x) xs
          rw [List.length_cons] at hk
          rw [List.eraseDups_cons, List.nodup_cons, List.mem_eraseDups]
          exact ⟨by simp, ih _ (by omega) _ rfl⟩

/-- Where a function tells entries apart, at most one has a given value. -/
theorem length_filter_le_one {β γ : Type} {f : β → γ} {xs : List β} (hxs : (xs.map f).Nodup)
    {p : β → Bool} {c : γ} (hp : ∀ x, p x = true → f x = c) : (xs.filter p).length ≤ 1 := by
  have hnodup : ((xs.filter p).map f).Nodup := hxs.sublist (List.filter_sublist.map f)
  have hall : ∀ y ∈ (xs.filter p).map f, y = c := by
    intro y hy
    obtain ⟨x, hx, rfl⟩ := List.mem_map.mp hy
    exact hp x (List.mem_filter.mp hx).2
  rw [List.eq_replicate_of_mem hall, List.nodup_replicate] at hnodup
  simpa using hnodup

/-! ## entries of a table -/

/-- An entry after one has been set. -/
theorem getD_setIfInBounds {β : Type} (table : Array β) (i j : Nat) (b d : β) :
    (table.setIfInBounds i b).getD j d = if i = j ∧ i < table.size then b else table.getD j d := by
  simp only [Array.getD_eq_getD_getElem?, Array.getElem?_setIfInBounds]
  by_cases hij : i = j
  · subst hij
    by_cases hi : i < table.size
    · simp [hi]
    · simp [hi]
  · simp [hij]

/-- An entry after one has been added. -/
theorem getD_push {β : Type} (table : Array β) (b d : β) (i : Nat) :
    (table.push b).getD i d = if i = table.size then b else table.getD i d := by
  simp only [Array.getD_eq_getD_getElem?, Array.getElem?_push]
  split <;> rfl

/-- An entry other than the default lies inside the table. -/
theorem lt_size_of_getD_ne {β : Type} {table : Array β} {i : Nat} {d : β}
    (h : table.getD i d ≠ d) : i < table.size := by
  by_contra hge
  exact h (by simp [Array.getD_eq_getD_getElem?, Array.getElem?_eq_none (Nat.le_of_not_lt hge)])

/-! ## positions -/

@[simp] theorem size_positions (count : Nat) (xs : List Nat) :
    (positions count xs).size = count := by
  have hfold : ∀ (ps : List (Nat × Nat)) (table : Array (Option Nat)),
      (ps.foldl (fun table p => table.setIfInBounds p.1 (some p.2)) table).size = table.size := by
    intro ps
    induction ps with
    | nil => simp
    | cons p ps ih => intro table; simp [ih]
  simp [positions, hfold]

/-- Entering the positions of a list into a table: a listed index gets its
position, counted from `k`, and any other index keeps its entry. -/
theorem getD_enterPositions {xs : List Nat} (hxs : xs.Nodup) (k : Nat)
    (table : Array (Option Nat)) {i : Nat} (hi : i < table.size) :
    ((xs.zipIdx k).foldl (fun table p => table.setIfInBounds p.1 (some p.2)) table).getD i none =
      if i ∈ xs then some (k + xs.idxOf i) else table.getD i none := by
  induction xs generalizing k table with
  | nil => simp
  | cons x xs ih =>
      obtain ⟨hx, hxs⟩ := List.nodup_cons.mp hxs
      rw [List.zipIdx_cons, List.foldl_cons, ih hxs _ _ (by simpa using hi)]
      rw [getD_setIfInBounds]
      by_cases hix : x = i
      · subst hix
        simp [hx, hi]
      · by_cases him : i ∈ xs
        · simp [him, hix]
          omega
        · simp [him, hix, Ne.symm hix]

theorem positions_getD {count : Nat} {xs : List Nat} (hxs : xs.Nodup) {i : Nat} (hi : i < count) :
    (positions count xs).getD i none = if i ∈ xs then some (xs.idxOf i) else none := by
  rw [positions, getD_enterPositions hxs 0 _ (by simpa using hi)]
  simp [hi]

/-- The table of positions inverts a list without repetitions. -/
theorem positions_getD_eq_some_iff {count : Nat} {xs : List Nat} (hxs : xs.Nodup)
    (hlt : ∀ x ∈ xs, x < count) {i k : Nat} :
    (positions count xs).getD i none = some k ↔ xs[k]? = some i := by
  rcases Nat.lt_or_ge i count with hi | hi
  · rw [positions_getD hxs hi]
    constructor
    · intro h
      by_cases him : i ∈ xs
      · rw [if_pos him] at h
        have hk : xs.idxOf i = k := Option.some.inj h
        rw [← hk]
        exact List.getElem?_idxOf him
      · simp [him] at h
    · intro h
      have him : i ∈ xs := List.mem_of_getElem? h
      obtain ⟨hk, hget⟩ := List.getElem?_eq_some_iff.mp h
      rw [if_pos him, ← hget, hxs.idxOf_getElem]
  · constructor
    · intro h
      have hlt : i < (positions count xs).size := lt_size_of_getD_ne (d := none) (by simp [h])
      rw [size_positions] at hlt
      omega
    · intro h
      have := hlt i (List.mem_of_getElem? h)
      omega

/-! ## gathered values -/

theorem gather_getD_of_le {β : Type} {count : Nat} (pairs : List (Nat × β)) {k : Nat}
    (h : count ≤ k) : (gather count pairs).getD k [] = [] := by
  by_contra hne
  have := lt_size_of_getD_ne hne
  simp at this
  omega

/-- What an index has gathered, whether or not the table is long enough. -/
theorem mem_gather_getD {β : Type} {count : Nat} {pairs : List (Nat × β)} {k : Nat} {b : β} :
    b ∈ (gather count pairs).getD k [] ↔ k < count ∧ (k, b) ∈ pairs := by
  rcases Nat.lt_or_ge k count with hk | hk
  · rw [gather_getD count pairs hk]
    simp only [List.mem_map, List.mem_filter, beq_iff_eq]
    constructor
    · rintro ⟨p, ⟨hp, rfl⟩, rfl⟩
      exact ⟨hk, hp⟩
    · rintro ⟨_, hp⟩
      exact ⟨(k, b), ⟨hp, rfl⟩, rfl⟩
  · rw [gather_getD_of_le pairs hk]
    constructor
    · simp
    · intro h
      omega

theorem count_gather_getD {β : Type} [BEq β] [LawfulBEq β] {count : Nat} (pairs : List (Nat × β))
    {k : Nat} (hk : k < count) (b : β) :
    ((gather count pairs).getD k []).count b = pairs.count (k, b) := by
  rw [gather_getD count pairs hk]
  induction pairs with
  | nil => simp
  | cons p ps ih =>
      obtain ⟨i, c⟩ := p
      by_cases hik : i = k
      · subst hik
        have hbeq : ((i, c) == (i, b)) = (c == b) := by
          rw [Bool.eq_iff_iff]
          simp
        rw [List.filter_cons_of_pos (by simp), List.map_cons, List.count_cons, List.count_cons,
          hbeq, ih]
      · simp_all

/-- A list drawn from numbered rows holds an item as often as the row of its
number does, if every item shows the number of its row. -/
theorem count_flatMap_zipIdx {β γ : Type} [BEq γ] [LawfulBEq γ] (xs : List β) (f : β × Nat → List γ)
    (row : γ → Nat) (hrow : ∀ x i, ∀ c ∈ f (x, i), row c = i) (c : γ) :
    (xs.zipIdx.flatMap f).count c = match xs[row c]? with
      | some x => (f (x, row c)).count c
      | none => 0 := by
  have hfrom : ∀ (xs : List β) (k : Nat), ((xs.zipIdx k).flatMap f).count c =
      if row c < k then 0 else match xs[row c - k]? with
        | some x => (f (x, row c)).count c
        | none => 0 := by
    intro xs
    induction xs with
    | nil => intro k; simp
    | cons x xs ih =>
        intro k
        rw [List.zipIdx_cons, List.flatMap_cons, List.count_append, ih]
        have hother : row c ≠ k → (f (x, k)).count c = 0 := fun hne =>
          List.count_eq_zero_of_not_mem fun hc => hne (hrow x k c hc)
        rcases Nat.lt_trichotomy (row c) k with hlt | heq | hgt
        · rw [hother (by omega), if_pos (by omega), if_pos hlt]
        · subst heq
          simp
        · have hsub : row c - k = row c - (k + 1) + 1 := by omega
          rw [hother (by omega), if_neg (by omega), if_neg (by omega), hsub, Nat.zero_add,
            List.getElem?_cons_succ]
  simpa using hfrom xs 0

/-! ## marks -/

namespace Marks

@[simp] theorem has_blank (count i : Nat) : (blank count).has i = true ↔ count ≤ i := by
  simp only [blank, has, Array.getD_eq_getD_getElem?, Array.getElem?_replicate]
  by_cases h : i < count
  · simp [h]
  · simp [h]; omega

@[simp] theorem has_mark (m : Marks) (i j : Nat) :
    (m.mark i).has j = true ↔ j = i ∨ m.has j = true := by
  obtain ⟨flags⟩ := m
  simp only [mark, has, getD_setIfInBounds]
  by_cases hij : i = j
  · subst hij
    by_cases hi : i < flags.size
    · simp [hi]
    · simp [hi]
  · simp [hij, Ne.symm hij]

theorem has_mark_eq_false {m : Marks} {i j : Nat} :
    (m.mark i).has j = false ↔ j ≠ i ∧ m.has j = false := by
  rw [← Bool.not_eq_true, has_mark, not_or, Bool.not_eq_true]

/-- The marks after marking the indices of a list. -/
@[simp] theorem has_markAll (m : Marks) (is : List Nat) (j : Nat) :
    (m.markAll is).has j = true ↔ j ∈ is ∨ m.has j = true := by
  induction is generalizing m with
  | nil => simp [markAll]
  | cons i is ih =>
      have hstep : m.markAll (i :: is) = (m.mark i).markAll is := rfl
      rw [hstep, ih, has_mark, List.mem_cons, or_left_comm, or_assoc]

end Marks

end Lineage
