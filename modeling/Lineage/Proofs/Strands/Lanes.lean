import Mathlib.Data.List.Sort
import Lineage.Proofs.LanePaths.Chains
import Lineage.Proofs.Listing
import Lineage.Proofs.Strands

/-!
# Lineage.Proofs.Strands.Lanes

Strands and lanes are found in different ways, but where children are listed
before their parents they are the same.  A lane leads from a node to its first
parent in no smaller lane.  When the strand of that lane gets there, the smaller
lanes are taken, so it finds that parent; and all children of the parent are
taken or in larger lanes, because they have smaller numbers.

* `History.LanePath.eq_inLane` — the nodes of a lane in their order.
* `History.grow_inLane` — a strand follows its lane.
* `History.growAll_inLane` — the strands of all lanes.
* `Strands.areLanes_of_load` — the strands of a history that loads.
-/

namespace Lineage

/-! ## ascending lists -/

section Ascending

variable {xs ys : List Nat} {a b : Nat}

/-- What comes directly after an entry of an ascending list is the next greater
one. -/
theorem pair_infix_iff (hxs : xs.Pairwise (· < ·)) :
    [a, b] <:+: xs ↔ a ∈ xs ∧ IsLeast {x | x ∈ xs ∧ a < x} b := by
  constructor
  · rintro ⟨before, after, rfl⟩
    rw [List.append_assoc, List.pairwise_append] at hxs
    obtain ⟨_, htail, hbefore⟩ := hxs
    obtain ⟨ha, hb⟩ := List.pairwise_cons.mp htail
    refine ⟨by simp, ⟨by simp, ha b (by simp)⟩, fun x ⟨hx, hax⟩ => ?_⟩
    simp only [List.mem_append, List.mem_cons, List.not_mem_nil, or_false] at hx
    rcases hx with (hx | rfl | rfl) | hx
    · have := hbefore x hx a (by simp)
      omega
    · omega
    · exact Nat.le_refl x
    · exact Nat.le_of_lt (List.rel_of_pairwise_cons hb hx)
  · rintro ⟨ha, ⟨hb, hab⟩, hleast⟩
    obtain ⟨before, after, rfl⟩ := List.append_of_mem ha
    obtain ⟨_, htail, hbefore⟩ := List.pairwise_append.mp hxs
    obtain ⟨hafter, htail⟩ := List.pairwise_cons.mp htail
    have hbafter : b ∈ after := by
      rcases List.mem_append.mp hb with hb | hb
      · have := hbefore b hb a List.mem_cons_self
        omega
      · exact (List.mem_cons.mp hb).resolve_left (by omega)
    cases after with
    | nil => contradiction
    | cons c after =>
        have hle : b ≤ c := hleast ⟨by simp, hafter c List.mem_cons_self⟩
        have hbc : b = c := by
          rcases List.mem_cons.mp hbafter with hbc | hbafter
          · exact hbc
          · have := List.rel_of_pairwise_cons htail hbafter
            omega
        exact ⟨before, after, by simp [hbc]⟩

end Ascending

namespace History

variable {h : History} {lane : Nat → Nat} {l count m n : Nat} {path rest : List Nat} {taken : Marks}

/-! ## nodes of a lane -/

/-- The nodes of a lane, in the order of their numbers. -/
def inLane (h : History) (lane : Nat → Nat) (l : Nat) : List Nat :=
  (List.range h.size).filter fun n => lane n = l

theorem mem_inLane : n ∈ h.inLane lane l ↔ n < h.size ∧ lane n = l := by
  simp [inLane]

theorem ascending_inLane (h : History) (lane : Nat → Nat) (l : Nat) :
    (h.inLane lane l).Pairwise (· < ·) :=
  List.pairwise_lt_range.filter _

/-- Where numbers grow toward parents, so they do down a lane. -/
theorem LanePath.eq_inLane (hfirst : ∀ {c p}, p ∈ h.loadedParents c → c < p)
    (hsize : ∀ {n}, lane n = l → n < h.size) (hpath : h.LanePath lane l path) :
    path = h.inLane lane l := by
  have hascending : path.IsChain (· < ·) := hpath.chain.imp fun _ _ hlead => hfirst hlead.isParent
  refine (List.sortedLT_iff_isChain.mpr hascending).eq_of_mem_iff
    (ascending_inLane h lane l).sortedLT fun n => ?_
  rw [hpath.mem_iff, mem_inLane]
  exact (and_iff_right_of_imp hsize).symm

/-! ## the strand of a lane -/

section ChildrenFirst

variable (hl : Linked h.size h.loadedParents h.loadedChildren)
  (hfirst : ∀ {c p}, p ∈ h.loadedParents c → c < p)
include hl hfirst

/-- A strand goes on to the next node of its lane when smaller lanes and the
nodes above that one are taken. -/
theorem strandParent?_eq_some (hlead : h.Leads lane m n) (hm : lane m = l)
    (hrest : ∀ x ∈ rest, n < x)
    (htaken : ∀ x, taken.has x = true ↔ lane x < l ∨ lane x = l ∧ x ∉ n :: rest) :
    h.strandParent? lane taken m = some n := by
  obtain ⟨before, after, hparents, hbefore, hn⟩ := hlead
  have hfree : taken.has n = false := by
    rw [← Bool.not_eq_true, htaken]
    simp [hn, hm]
  have hchildren : ∀ c ∈ h.childrenOf (.loaded n), taken.has c = true ∨ lane n < lane c := by
    intro c hc
    have hlt : c < n := hfirst (hl.mem_children.mp hc)
    have hnot : c ∉ n :: rest := fun hmem => by
      rcases List.mem_cons.mp hmem with rfl | hmem
      · omega
      · have := hrest c hmem
        omega
    rw [htaken]
    by_cases heq : lane c = l
    · exact Or.inl (Or.inr ⟨heq, hnot⟩)
    · omega
  rw [strandParent?, hparents, List.find?_eq_some_iff_append]
  refine ⟨?_, before, after, rfl, fun b hb => ?_⟩
  · simpa [hfree, hn] using hchildren
  · have hb' : taken.has b = true := (htaken b).mpr (Or.inl (hm ▸ (hbefore b hb).2))
    simp [hb']

omit hl hfirst in
/-- It ends where the lane does. -/
theorem strandParent?_eq_none (hends : h.Ends lane m) (hm : lane m = l)
    (htaken : ∀ x, lane x < l → taken.has x = true) : h.strandParent? lane taken m = none := by
  rw [strandParent?, List.find?_eq_none]
  intro b hb
  simp [htaken b (hm ▸ (hends b hb).2)]

/-- A strand follows its lane. -/
theorem grow_lane (hchain : (m :: rest).IsChain (h.Leads lane))
    (hends : ∀ last ∈ (m :: rest).getLast?, h.Ends lane last) (hm : lane m = l)
    (htaken : ∀ x, taken.has x = true ↔ lane x < l ∨ lane x = l ∧ x ∉ rest) :
    (h.grow lane taken m).1 = rest := by
  induction rest generalizing m taken with
  | nil =>
      rw [grow_none (strandParent?_eq_none (hends m rfl) hm fun x hx => (htaken x).mpr (Or.inl hx))]
  | cons n rest ih =>
      obtain ⟨hlead, hchain⟩ := List.isChain_cons_cons.mp hchain
      have hn : lane n = l := hlead.choose_spec.choose_spec.2.2.trans hm
      have hascending : (n :: rest).Pairwise (· < ·) :=
        (hchain.imp fun _ _ hlead => hfirst hlead.isParent).pairwise
      obtain ⟨hrest, _⟩ := List.pairwise_cons.mp hascending
      rw [grow_some (strandParent?_eq_some hl hfirst hlead hm hrest htaken)]
      refine congrArg (n :: ·) (ih hchain (by simpa using hends) hn fun x => ?_)
      rw [Marks.has_mark, htaken]
      by_cases hxn : x = n
      · subst hxn
        have hnot : x ∉ rest := fun hmem => Nat.lt_irrefl x (hrest x hmem)
        simp [hn, hnot]
      · simp [hxn]

/-! ## the strands of all lanes -/

omit hl in
/-- The nodes of a lane in their order lead down it. -/
theorem LanePaths.exists_inLane (hp : h.LanePaths lane count) (hpos : 1 ≤ l) (hle : l ≤ count) :
    ∃ first rest, h.inLane lane l = first :: rest ∧ (first :: rest).IsChain (h.Leads lane) ∧
      ∀ last ∈ (first :: rest).getLast?, h.Ends lane last := by
  obtain ⟨path, hpath, last, hlast, hends⟩ := hp.exists_path hpos hle
  have heq := hpath.eq_inLane hfirst fun {n} hn => hp.pos_iff.mp (by omega)
  cases path with
  | nil => simp at hlast
  | cons first rest =>
      refine ⟨first, rest, heq.symm, hpath.chain, fun last' hlast' => ?_⟩
      obtain rfl := Option.some.inj (hlast.symm.trans hlast')
      exact hends

omit hl hfirst in
theorem growAll_of_has {nodes : List Nat} (hnodes : ∀ n ∈ nodes, taken.has n = true)
    (others : List Nat) : h.growAll lane taken (nodes ++ others) = h.growAll lane taken others := by
  induction nodes with
  | nil => rfl
  | cons n nodes ih =>
      obtain ⟨hn, hnodes⟩ := List.forall_mem_cons.mp hnodes
      rw [List.cons_append, growAll_cons_of_has hn, ih hnodes]

/-- Every strand takes the nodes of its lane, and the next one those of the next
lane. -/
theorem growAll_inLane (hp : h.LanePaths lane count) {start k : Nat} (hpos : 1 ≤ start)
    (hcount : start + k = count + 1) (htaken : ∀ n, taken.has n = true ↔ lane n < start) :
    h.growAll lane taken ((List.range' start k).flatMap (h.inLane lane)) =
      (List.range' start k).map (h.inLane lane) := by
  induction k generalizing start taken with
  | zero => rfl
  | succ k ih =>
      obtain ⟨first, rest, heq, hchain, hends⟩ := hp.exists_inLane hfirst hpos (by omega)
      have hmem : ∀ n, lane n = start ↔ n = first ∨ n ∈ rest := fun n => by
        rw [← List.mem_cons, ← heq, mem_inLane, and_iff_right_of_imp fun hn => ?_]
        exact hp.pos_iff.mp (by omega)
      have hnodup : (first :: rest).Nodup := heq ▸ (ascending_inLane h lane start).nodup
      have hnot : first ∉ rest := (List.nodup_cons.mp hnodup).1
      have hstart : lane first = start := (hmem first).mpr (Or.inl rfl)
      have hfree : taken.has first = false := by
        rw [← Bool.not_eq_true, htaken]
        omega
      have hgrow : (h.grow lane (taken.mark first) first).1 = rest := by
        refine grow_lane hl hfirst hchain hends hstart fun x => ?_
        rw [Marks.has_mark, htaken, hmem]
        by_cases hx : x = first
        · simp [hx, hnot]
        · simp [hx]
      have htaken' : ∀ n, (h.grow lane (taken.mark first) first).2.has n = true ↔
          lane n < start + 1 := fun n => by
        rw [has_grow, hgrow, Marks.has_mark, htaken, or_left_comm, ← or_assoc, ← hmem]
        omega
      have hrest : ∀ n ∈ rest, (h.grow lane (taken.mark first) first).2.has n = true := by
        intro n hn
        rw [htaken', (hmem n).mpr (Or.inr hn)]
        omega
      rw [List.range'_succ, List.flatMap_cons, List.map_cons, heq, List.cons_append,
        growAll_cons_of_free hfree, hgrow, growAll_of_has hrest, ih (by omega) (by omega) htaken']

end ChildrenFirst

end History

namespace Strands

open History

variable {h : History} {lane : Nat → Nat} {count n : Nat}

/-- The nodes of a history by lane, then by number: those of its lanes, one after
the other. -/
theorem byLane_eq (hp : h.LanePaths lane count) :
    byLane h lane = (List.range' 1 count).flatMap (h.inLane lane) := by
  have hlex : ∀ a b, (lane a < lane b || (lane a = lane b && a ≤ b) : Bool) = true ↔
      lane a < lane b ∨ lane a = lane b ∧ a ≤ b := by
    simp
  have hsorted : (byLane h lane).Pairwise fun a b =>
      (lane a < lane b || (lane a = lane b && a ≤ b) : Bool) = true := by
    refine List.pairwise_mergeSort (fun a b c => ?_) (fun a b => ?_) _
    · rw [hlex, hlex, hlex]
      omega
    · rw [Bool.or_eq_true, hlex, hlex]
      omega
  have hascending : ((List.range' 1 count).flatMap (h.inLane lane)).Pairwise fun a b =>
      lane a < lane b ∨ lane a = lane b ∧ a < b := by
    refine List.pairwise_flatMap.mpr ⟨fun l _ => ?_, (List.pairwise_lt_range' 1).imp ?_⟩
    · refine (ascending_inLane h lane l).imp_of_mem fun ha hb hlt => ?_
      exact Or.inr ⟨(mem_inLane.mp ha).2.trans (mem_inLane.mp hb).2.symm, hlt⟩
    · intro l l' hlt a ha b hb
      rw [(mem_inLane.mp ha).2, (mem_inLane.mp hb).2]
      exact Or.inl hlt
  have hnodup : ((List.range' 1 count).flatMap (h.inLane lane)).Nodup :=
    hascending.imp fun hlt heq => by simp [heq] at hlt
  have hmem : ∀ n, n ∈ byLane h lane ↔ n ∈ (List.range' 1 count).flatMap (h.inLane lane) := by
    intro n
    have hle := hp.lane_le n
    simp only [byLane, List.mem_mergeSort, List.mem_range, List.mem_flatMap, List.mem_range'_1,
      mem_inLane, exists_eq_right_right']
    rw [← hp.pos_iff]
    omega
  have hnodup' : (byLane h lane).Nodup :=
    (List.mergeSort_perm _ _).nodup_iff.mpr List.nodup_range
  refine List.Perm.eq_of_pairwise (fun a b _ _ => ?_) hsorted ?_
    ((List.perm_ext_iff_of_nodup hnodup' hnodup).mpr hmem)
  · rw [hlex, hlex]
    omega
  · refine hascending.imp fun {a b} hlt => ?_
    rw [hlex]
    omega

/-! ## strands as lanes -/

/-- The strands of a history are its lanes, which are numbered from `1` to
`count`: there is one strand for each lane, in their order, with all nodes of the
lane, in the order of their numbers. -/
structure AreLanes (h : History) (lanes : Lanes) (count : Nat) : Prop where
  lane_pos : ∀ {n}, n < h.size → 1 ≤ lanes.lane n
  lane_le : ∀ {n}, n < h.size → lanes.lane n ≤ count
  used : ∀ {l}, 1 ≤ l → l ≤ count → ∃ n < h.size, lanes.lane n = l
  paths_eq : (ofHistory h lanes).paths = (List.range' 1 count).map (h.inLane lanes.lane)
  next?_iff : ∀ {n m}, n < h.size → ((ofHistory h lanes).next? n = some m ↔
    IsLeast {k | n < k ∧ k < h.size ∧ lanes.lane k = lanes.lane n} m)

theorem areLanes_of_lanePaths {lanes : Lanes}
    (hl : Linked h.size h.loadedParents h.loadedChildren)
    (hfirst : ∀ {c p}, p ∈ h.loadedParents c → c < p) (hp : h.LanePaths lanes.lane count) :
    AreLanes h lanes count := by
  have hblank : ∀ n, (Marks.blank h.size).has n = true ↔ lanes.lane n < 1 := fun n => by
    rw [Marks.has_blank, ← Nat.not_lt, ← hp.pos_iff, Nat.not_le]
  have hpaths : (ofHistory h lanes).paths = (List.range' 1 count).map (h.inLane lanes.lane) := by
    have hgrow := growAll_inLane hl hfirst hp (Nat.le_refl 1) (Nat.add_comm 1 count) hblank
    rw [← byLane_eq hp] at hgrow
    rw [paths_ofHistory, hgrow]
  refine ⟨hp.pos_iff.mpr, fun {n} _ => hp.lane_le n, fun {l} hpos hle => ?_, hpaths,
    fun {n m} hn => ?_⟩
  · obtain ⟨first, rest, heq, _⟩ := hp.exists_inLane hfirst hpos hle
    exact ⟨first, mem_inLane.mp (heq ▸ List.mem_cons_self)⟩
  · have hpair : (ofHistory h lanes).Follows n m ↔ [n, m] <:+: h.inLane lanes.lane (lanes.lane n) := by
      have hpos := hp.pos_iff.mpr hn
      have hle := hp.lane_le n
      rw [Follows, hpaths]
      simp only [List.mem_map, List.mem_range'_1, exists_exists_and_eq_and]
      constructor
      · rintro ⟨l, _, hpair⟩
        obtain ⟨_, rfl⟩ := mem_inLane.mp (hpair.subset List.mem_cons_self)
        exact hpair
      · exact fun hpair => ⟨_, by omega, hpair⟩
    have hset : {k | k ∈ h.inLane lanes.lane (lanes.lane n) ∧ n < k} =
        {k | n < k ∧ k < h.size ∧ lanes.lane k = lanes.lane n} := by
      ext k
      show k ∈ h.inLane lanes.lane (lanes.lane n) ∧ n < k ↔ _
      rw [mem_inLane, and_comm]
      rfl
    rw [next?_eq_some_iff, hpair, pair_infix_iff (ascending_inLane h _ _),
      and_iff_right (mem_inLane.mpr ⟨hn, rfl⟩), hset]

end Strands

namespace History

variable {α : Type} [BEq α] [Hashable α] [LawfulBEq α] {commits : List (Commit α)}
  {slots slots' : Placeholders α} {h : History}

/-- Where every commit stands in front of its parents, parents have greater
numbers. -/
theorem lt_of_mem_loadedParents (hload : load commits slots = .ok (h, slots'))
    (hfirst : ChildrenFirst commits) {c p : Nat} (hp : p ∈ h.loadedParents c) : c < p := by
  obtain ⟨child, parent, hc, hd, id, hid, hparent⟩ :=
    (tabulates_of_load hload).mem_loadedParents hp
  obtain rfl : parent.id = id := eq_of_beq hparent
  obtain ⟨hclt, rfl⟩ := List.getElem?_eq_some_iff.mp hc
  obtain ⟨hplt, rfl⟩ := List.getElem?_eq_some_iff.mp hd
  have hne : c ≠ p := ne_of_mem_loadedParents hload hp
  have hnot : ¬ p < c := fun hlt => List.pairwise_iff_getElem.mp hfirst p c hplt hclt hlt hid
  omega

/-- The strands of every history that loads from a list in which no commit stands
behind a parent are its lanes, however its heads are ranked. -/
theorem areLanes_of_load (hload : load commits slots = .ok (h, slots'))
    (hfirst : ChildrenFirst commits) (compare : Nat → Nat → Ordering) :
    ∃ count, Strands.AreLanes h (Lanes.ofHistory h compare) count := by
  have hs := sound_of_load hload
  obtain ⟨count, hp⟩ := Lanes.exists_lanePaths hs compare
  exact ⟨count, Strands.areLanes_of_lanePaths hs.linked (lt_of_mem_loadedParents hload hfirst) hp⟩

/-- The strands of a merge are its two lanes. -/
theorem areLanes_of_load_fork :
    load Graph.forkCommits .empty = .ok (Graph.fork.history, .empty) ∧
      ChildrenFirst Graph.forkCommits ∧
      ∃ count, Strands.AreLanes Graph.fork.history (Lanes.ofHistory Graph.fork.history compare)
        count := by
  have hfirst : ChildrenFirst Graph.forkCommits := by
    simp [ChildrenFirst, Graph.forkCommits]
  exact ⟨Graph.load_history_fork, hfirst, areLanes_of_load Graph.load_history_fork hfirst compare⟩

/-- Its paths. -/
example : (Strands.ofHistory Graph.fork.history (Lanes.ofHistory Graph.fork.history compare)).paths =
    [[0, 1, 3], [2]] := by
  cbv

end History

end Lineage
