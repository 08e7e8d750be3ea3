import Lineage.History.Store
import Lineage.Proofs.ChildrenFirst

/-!
# Lineage.Proofs.Store

The flat table of parents.  Taking up a commit list leaves every node its
parents, in order, between its offset and the next one, and counts how often
each node is mentioned; so the order of the nodes is that of the gathered lists.
It ends early at a commit among its own parents, or where a number has no room.

* `Store.Scan.Lines` — what the tables hold after some lines.
* `Store.Scan.lines_ofCommits` — what they hold in the end.
* `Store.Scan.fault_of_ofCommits` — a list is refused for a commit among its own
  parents, or where there is no room.
* `Store.Scan.order_eq` — the order of the nodes.
-/

namespace Lineage

/-- A computation that goes on succeeds if both of its parts do. -/
theorem bind_eq_ok_iff {ε β γ : Type} {x : Except ε β} {f : β → Except ε γ} {c : γ} :
    (x >>= f) = .ok c ↔ ∃ b, x = .ok b ∧ f b = .ok c := by
  cases x with
  | ok b => simp [bind, Except.bind]
  | error e => simp [bind, Except.bind]

/-- A computation that goes on fails in its first part, or else in the second. -/
theorem bind_eq_error_iff {ε β γ : Type} {x : Except ε β} {f : β → Except ε γ} {e : ε} :
    (x >>= f) = .error e ↔ x = .error e ∨ ∃ b, x = .ok b ∧ f b = .error e := by
  cases x with
  | ok b => simp [bind, Except.bind]
  | error e => simp [bind, Except.bind]

/-- A list of lists is laid out with each of them behind those before it. -/
theorem take_drop_flatten {β : Type} (xss : List (List β)) {i : Nat} (hi : i < xss.length) :
    (xss.flatten.drop (xss.take i).flatten.length).take xss[i].length = xss[i] := by
  have hsplit : xss.flatten = (xss.take i).flatten ++ (xss[i] ++ (xss.drop (i + 1)).flatten) := by
    rw [← List.flatten_cons, ← List.drop_eq_getElem_cons hi, ← List.flatten_append,
      List.take_append_drop]
  rw [hsplit, List.drop_left, List.take_left]

/-- Every position in an index is below `size`. -/
def History.IndexBelow {α : Type} [BEq α] [Hashable α] (index : Std.HashMap α Nat) (size : Nat) :
    Prop :=
  ∀ (x : α) (p : Nat), index[x]? = some p → p < size

namespace Store

variable {α : Type}

/-! ## words and tables -/

theorem word_eq_ok_iff {n : Nat} {w : UInt32} :
    (word n : Except (StoreFault α) UInt32) = .ok w ↔ w.toNat = n := by
  rw [word]
  split
  · next hn =>
      rw [Except.ok.injEq]
      constructor
      · rintro rfl
        exact UInt32.toNat_ofNat_of_lt' hn
      · rintro rfl
        exact UInt32.ofNat_toNat
  · next hn =>
      have := w.toNat_lt
      simp only [reduceCtorEq, false_iff]
      omega

theorem exists_word {n : Nat} (hn : n < 4294967296) :
    ∃ w : UInt32, (word n : Except (StoreFault α) UInt32) = .ok w ∧ w.toNat = n :=
  ⟨.ofNat n, if_pos hn, UInt32.toNat_ofNat_of_lt' hn⟩

theorem word_eq_error_iff {n : Nat} {fault : StoreFault α} :
    word n = .error fault ↔ 4294967296 ≤ n ∧ fault = .overflow := by
  rw [word]
  split
  · next hn =>
      simp only [reduceCtorEq, false_iff]
      omega
  · next hn => simp [Nat.not_lt.mp hn, eq_comm]

theorem nodeOf_eq_iff {target : Int32} {node : NodeId} :
    nodeOf target = node ↔ target.toInt = node.toInt := by
  constructor
  · rintro rfl
    exact (NodeId.toInt_ofInt _).symm
  · intro h
    rw [nodeOf, h, NodeId.ofInt_toInt]

theorem number_eq_ok_iff {node : NodeId} {target : Int32} :
    (number node : Except (StoreFault α) Int32) = .ok target ↔ nodeOf target = node := by
  rw [number, nodeOf_eq_iff]
  split
  · next hnode =>
      rw [Except.ok.injEq, ← Int32.toInt_inj, Int32.toInt_ofInt_of_le hnode.1 hnode.2, eq_comm]
  · next hnode =>
      have := target.le_toInt
      have := target.toInt_lt
      simp only [reduceCtorEq, false_iff]
      omega

theorem read_eq_ok_iff {β : Type} {table : Array β} {i : Nat} {b : β} :
    (read table i : Except (StoreFault α) β) = .ok b ↔ table[i]? = some b := by
  rw [read]
  cases table[i]? with
  | some c => simp
  | none => simp

/-- Inside its table every entry is read. -/
theorem read_of_lt {β : Type} {table : Array β} {i : Nat} (hi : i < table.size) (d : β) :
    (read table i : Except (StoreFault α) β) = .ok (table.getD i d) := by
  rw [read, Array.getElem?_eq_getElem hi, Array.getElem_eq_getD d]

theorem write_eq_ok_iff {β : Type} {table table' : Array β} {i : Nat} {b : β} :
    (write table i b : Except (StoreFault α) (Array β)) = .ok table' ↔
      i < table.size ∧ table' = table.setIfInBounds i b := by
  rw [write]
  split
  · next hi => simp [hi, eq_comm]
  · next hi => simp [hi]

/-- One word of a table goes up by one. -/
theorem eq_of_bump {counts counts' : Array UInt32} {i : Nat}
    (hbump : (bump counts i : Except (StoreFault α) (Array UInt32)) = .ok counts') :
    counts'.size = counts.size ∧
      ∀ j, (counts'.getD j 0).toNat = (counts.getD j 0).toNat + if i = j then 1 else 0 := by
  obtain ⟨count, hread, hrest⟩ := bind_eq_ok_iff.mp hbump
  obtain ⟨next, hword, hwrite⟩ := bind_eq_ok_iff.mp hrest
  rw [read_eq_ok_iff] at hread
  rw [word_eq_ok_iff] at hword
  obtain ⟨hi, rfl⟩ := write_eq_ok_iff.mp hwrite
  refine ⟨Array.size_setIfInBounds, fun j => ?_⟩
  rw [getD_setIfInBounds]
  by_cases hij : i = j
  · subst hij
    rw [if_pos ⟨rfl, hi⟩, if_pos rfl, hword, Array.getD_eq_getD_getElem?, hread]
    rfl
  · simp [hij]

/-- A word of a table fails to go up only if it is the last one. -/
theorem fault_of_bump {counts : Array UInt32} {i : Nat} (hi : i < counts.size)
    {fault : StoreFault α} (hbump : bump counts i = .error fault) :
    fault = .overflow ∧ 4294967296 ≤ (counts.getD i 0).toNat + 1 := by
  rcases bind_eq_error_iff.mp hbump with hnone | ⟨count, hcount, hrest⟩
  · rw [read_of_lt hi 0] at hnone
    contradiction
  · obtain rfl := Except.ok.inj ((read_of_lt hi 0).symm.trans hcount)
    rcases bind_eq_error_iff.mp hrest with hword | ⟨next, _, hwrite⟩
    · exact (word_eq_error_iff.mp hword).symm
    · rw [write, if_pos hi] at hwrite
      contradiction

theorem exists_bump {counts : Array UInt32} {i : Nat} (hi : i < counts.size)
    (hcount : (counts.getD i 0).toNat + 1 < 4294967296) :
    ∃ counts', (bump counts i : Except (StoreFault α) (Array UInt32)) = .ok counts' := by
  cases hbump : (bump counts i : Except (StoreFault α) (Array UInt32)) with
  | ok counts' => exact ⟨counts', rfl⟩
  | error fault =>
      have := (fault_of_bump hi hbump).2
      omega

namespace Scan

/-- Only a loaded node is counted. -/
theorem eq_of_countUp {counts counts' : Array UInt32} {node : NodeId}
    (hcount : (countUp counts node : Except (StoreFault α) (Array UInt32)) = .ok counts') :
    counts'.size = counts.size ∧ ∀ p,
      (counts'.getD p 0).toNat = (counts.getD p 0).toNat + (loadedNodes [node]).count p := by
  cases node with
  | loaded q =>
      obtain ⟨hsize, hcounts⟩ := eq_of_bump hcount
      refine ⟨hsize, fun p => ?_⟩
      rw [hcounts, loadedNodes_loaded, loadedNodes_nil, List.count_singleton]
      simp
  | none =>
      obtain rfl := Except.ok.inj hcount
      simp
  | missing slot =>
      obtain rfl := Except.ok.inj hcount
      simp

variable [BEq α] [Hashable α] {index : Std.HashMap α Nat} {slots : Placeholders α}
  {s s' s'' : Scan α} {child : Nat} {id x : α} {taken more : List NodeId}

/-! ## the parents of one commit -/

/-- The parents that are taken up so far. -/
def nodes (s : Scan α) : List NodeId := s.downTargets.toList.map nodeOf

/-- How often a node is mentioned so far. -/
def count (s : Scan α) (p : Nat) : Nat := (s.upCounts.getD p 0).toNat

/-- What changes as some parents of the commit at `child` are taken up. -/
structure Takes (child : Nat) (taken : List NodeId) (s s' : Scan α) : Prop where
  downOffsets_eq : s'.downOffsets = s.downOffsets
  nodes_eq : s'.nodes = s.nodes ++ taken
  size_upCounts : s'.upCounts.size = s.upCounts.size
  count_eq : ∀ p, s'.count p = s.count p + (loadedNodes taken).count p
  early_eq : s'.early = s.early + (loadedNodes taken).countP (· < child)

theorem Takes.refl (child : Nat) (s : Scan α) : Takes child [] s s :=
  ⟨rfl, by simp, rfl, by simp, by simp⟩

theorem Takes.append (h : Takes child taken s s') (h' : Takes child more s' s'') :
    Takes child (taken ++ more) s s'' where
  downOffsets_eq := h'.downOffsets_eq.trans h.downOffsets_eq
  nodes_eq := by rw [h'.nodes_eq, h.nodes_eq, List.append_assoc]
  size_upCounts := h'.size_upCounts.trans h.size_upCounts
  count_eq p := by
    rw [h'.count_eq, h.count_eq, loadedNodes_append, List.count_append, Nat.add_assoc]
  early_eq := by
    rw [h'.early_eq, h.early_eq, loadedNodes_append, List.countP_append, Nat.add_assoc]

/-- A parent that is taken up is not the commit itself. -/
theorem takes_of_mention (hmention : mention index child id s x = .ok s') :
    ¬ x == id ∧ s'.slots = (History.resolve index s.slots x).2 ∧
      Takes child [(History.resolve index s.slots x).1] s s' := by
  rw [mention] at hmention
  split at hmention
  · contradiction
  · next hown =>
      generalize History.resolve index s.slots x = found at hmention ⊢
      obtain ⟨node, slots⟩ := found
      obtain ⟨counts, hcount, hrest⟩ := bind_eq_ok_iff.mp hmention
      obtain ⟨target, hnumber, hok⟩ := bind_eq_ok_iff.mp hrest
      obtain ⟨hsize, hcounts⟩ := eq_of_countUp hcount
      rw [number_eq_ok_iff] at hnumber
      obtain rfl := Except.ok.inj hok
      refine ⟨hown, rfl, rfl, by simp [nodes, hnumber], hsize, hcounts, ?_⟩
      cases node with
      | loaded p => by_cases hp : p < child <;> simp [NodeId.loaded?, hp]
      | none => simp [NodeId.loaded?]
      | missing slot => simp [NodeId.loaded?]

/-- The parents of a commit are taken up in order. -/
theorem takes_of_mentions {parents : List α}
    (hmentions : parents.foldlM (mention index child id) s = .ok s') :
    (∀ x ∈ parents, ¬ x == id) ∧ s'.slots = (History.resolveAll index s.slots parents).2 ∧
      Takes child (History.resolveAll index s.slots parents).1 s s' := by
  induction parents generalizing s with
  | nil =>
      obtain rfl := Except.ok.inj hmentions
      exact ⟨by simp, rfl, .refl child _⟩
  | cons x xs ih =>
      rw [List.foldlM_cons] at hmentions
      obtain ⟨next, hmention, hrest⟩ := bind_eq_ok_iff.mp hmentions
      obtain ⟨hown, hslots, htakes⟩ := takes_of_mention hmention
      obtain ⟨howns, hslots', htakes'⟩ := ih hrest
      rw [hslots] at hslots' htakes'
      exact ⟨List.forall_mem_cons.mpr ⟨hown, howns⟩, hslots', htakes.append htakes'⟩

/-! ## line after line -/

/-- What the tables hold after the commits with the parents `lines`, where
`size` commits are listed in all. -/
structure Lines (size : Nat) (lines : List (List NodeId)) (s : Scan α) : Prop where
  size_downOffsets : s.downOffsets.size = lines.length + 1
  downOffset_eq : ∀ {i}, i ≤ lines.length →
    (s.downOffsets.getD i 0).toNat = (lines.take i).flatten.length
  nodes_eq : s.nodes = lines.flatten
  size_upCounts : s.upCounts.size = size
  count_eq : ∀ p, s.count p = (loadedNodes lines.flatten).count p
  early_eq : s.early = (History.loadedMentions lines).countP fun m => m.1 < m.2

theorem lines_start (size : Nat) (slots : Placeholders α) : Lines size [] (start size slots) where
  size_downOffsets := rfl
  downOffset_eq hi := by
    obtain rfl := Nat.le_zero.mp hi
    rfl
  nodes_eq := rfl
  size_upCounts := Array.size_replicate
  count_eq p := by
    by_cases hp : p < size <;> simp [count, start, Array.getD_eq_getD_getElem?, hp]
  early_eq := rfl

/-- One more line: its mentions are those of its number. -/
theorem loadedMentions_append (lines : List (List NodeId)) (line : List NodeId) :
    History.loadedMentions (lines ++ [line]) =
      History.loadedMentions lines ++ (loadedNodes line).map (·, lines.length) := by
  simp [History.loadedMentions_eq_flatMap, List.zipIdx_append]

/-- A commit that is taken up adds the line of its parents. -/
theorem lines_of_commit {size : Nat} {lines : List (List NodeId)} (hlines : Lines size lines s)
    {c : Commit α} (hcommit : commit index s (c, lines.length) = .ok s') :
    (∀ x ∈ c.parents, ¬ x == c.id) ∧
      s'.slots = (History.resolveAll index s.slots c.parents).2 ∧
      Lines size (lines ++ [(History.resolveAll index s.slots c.parents).1]) s' := by
  obtain ⟨next, hmentions, hrest⟩ := bind_eq_ok_iff.mp hcommit
  obtain ⟨offset, hword, hok⟩ := bind_eq_ok_iff.mp hrest
  obtain ⟨hown, hslots, htakes⟩ := takes_of_mentions hmentions
  rw [word_eq_ok_iff] at hword
  obtain rfl := Except.ok.inj hok
  generalize (History.resolveAll index s.slots c.parents).1 = line at htakes ⊢
  have hnodes : next.nodes = (lines ++ [line]).flatten := by
    rw [htakes.nodes_eq, hlines.nodes_eq, List.flatten_append, List.flatten_singleton]
  refine ⟨hown, hslots, ?_, ?_, hnodes, htakes.size_upCounts.trans hlines.size_upCounts, ?_, ?_⟩
  · simp [htakes.downOffsets_eq, hlines.size_downOffsets]
  · intro i hi
    rw [List.length_append, List.length_singleton] at hi
    rw [getD_push, htakes.downOffsets_eq, hlines.size_downOffsets]
    rcases Nat.eq_or_lt_of_le hi with rfl | hi
    · rw [if_pos rfl, hword, List.take_of_length_le (by simp), ← hnodes]
      simp [nodes]
    · rw [if_neg (Nat.ne_of_lt hi), hlines.downOffset_eq (Nat.le_of_lt_succ hi),
        List.take_append_of_le_length (Nat.le_of_lt_succ hi)]
  · intro p
    show next.count p = _
    rw [htakes.count_eq, hlines.count_eq, List.flatten_append, List.flatten_singleton,
      loadedNodes_append, List.count_append]
  · show next.early = _
    rw [htakes.early_eq, hlines.early_eq, loadedMentions_append, List.countP_append,
      List.countP_map]
    rfl

/-- The commits that are taken up add their lines, one after the other. -/
theorem lines_of_commits {size : Nat} {lines : List (List NodeId)} (hlines : Lines size lines s)
    {cs : List (Commit α)}
    (hcommits : (cs.zipIdx lines.length).foldlM (commit index) s = .ok s') :
    (∀ c ∈ cs, ∀ x ∈ c.parents, ¬ x == c.id) ∧
      s'.slots = (History.resolveCommits index s.slots cs).2 ∧
      Lines size (lines ++ (History.resolveCommits index s.slots cs).1) s' := by
  induction cs generalizing s lines with
  | nil =>
      obtain rfl := Except.ok.inj hcommits
      exact ⟨by simp, rfl, by simpa [History.resolveCommits] using hlines⟩
  | cons c cs ih =>
      rw [List.zipIdx_cons, List.foldlM_cons] at hcommits
      obtain ⟨next, hcommit, hrest⟩ := bind_eq_ok_iff.mp hcommits
      obtain ⟨hown, hslots, hnext⟩ := lines_of_commit hlines hcommit
      rw [← List.length_concat (a := (History.resolveAll index s.slots c.parents).1),
        List.concat_eq_append] at hrest
      obtain ⟨howns, hslots', hlines'⟩ := ih hnext hrest
      rw [hslots] at hslots' hlines'
      rw [List.append_assoc] at hlines'
      exact ⟨List.forall_mem_cons.mpr ⟨hown, howns⟩, hslots', hlines'⟩

/-! ## room for the numbers -/

/-- There is room for some more parents: counts and places that fit their
words, and numbers that fit theirs. -/
structure Room (s : Scan α) (more : List NodeId) : Prop where
  count_le : ∀ p, s.count p ≤ s.nodes.length
  length_lt : s.nodes.length + more.length < 4294967296
  number : ∀ node ∈ more, -2147483648 ≤ node.toInt ∧ node.toInt < 2147483648

theorem Room.append_left (h : Room s (taken ++ more)) : Room s taken where
  count_le := h.count_le
  length_lt := by
    have := h.length_lt
    rw [List.length_append] at this
    omega
  number node hnode := h.number node (List.mem_append_left _ hnode)

/-- Parents that are taken up leave the room of those after them. -/
theorem Takes.room (htakes : Takes child taken s s') (h : Room s (taken ++ more)) :
    Room s' more where
  count_le p := by
    have hcount : (loadedNodes taken).count p ≤ taken.length :=
      List.count_le_length.trans (List.length_filterMap_le _ _)
    have := h.count_le p
    rw [htakes.count_eq, htakes.nodes_eq, List.length_append]
    omega
  length_lt := by
    have := h.length_lt
    rw [List.length_append] at this
    rw [htakes.nodes_eq, List.length_append]
    omega
  number node hnode := h.number node (List.mem_append_right _ hnode)

section Faults

variable {fault : StoreFault α}

end Faults

/-! ## the lines of a commit list -/

section Order

variable {size : Nat} {lines : List (List NodeId)}

/-- The parents of a node stand between its offset and the next one. -/
theorem Lines.slice_eq (hlines : Lines size lines s) {n : Nat} (hn : n < lines.length) :
    (slice s.downOffsets s.downTargets n).map nodeOf = lines[n] := by
  have hbegin := hlines.downOffset_eq (Nat.le_of_lt hn)
  have hend := hlines.downOffset_eq (Nat.succ_le_of_lt hn)
  have hnext : (lines.take (n + 1)).flatten.length =
      (lines.take n).flatten.length + lines[n].length := by
    rw [List.take_succ_eq_append_getElem hn, List.flatten_append, List.length_append,
      List.flatten_singleton]
  rw [slice, hbegin, hend, hnext, Array.toList_extract, List.extract_eq_take_drop,
    Nat.add_sub_cancel_left, List.map_take, List.map_drop]
  have hnodes : s.downTargets.toList.map nodeOf = lines.flatten := hlines.nodes_eq
  rw [hnodes, take_drop_flatten lines hn]

/-- There are no parents of other numbers. -/
theorem Lines.slice_eq_nil (hlines : Lines size lines s) {n : Nat} (hn : lines.length ≤ n) :
    slice s.downOffsets s.downTargets n = [] := by
  have hend : s.downOffsets.getD (n + 1) 0 = 0 := by
    rw [Array.getD_eq_getD_getElem?,
      Array.getElem?_eq_none (by rw [hlines.size_downOffsets]; omega)]
    rfl
  simp [slice, hend]

theorem Lines.map_slice_eq (hlines : Lines size lines s) (n : Nat) :
    (slice s.downOffsets s.downTargets n).map nodeOf = lines.getD n [] := by
  rcases Nat.lt_or_ge n lines.length with hn | hn
  · rw [hlines.slice_eq hn, List.getD_eq_getElem?_getD, List.getElem?_eq_getElem hn]
    rfl
  · rw [hlines.slice_eq_nil hn, List.getD_eq_getElem?_getD, List.getElem?_eq_none hn]
    rfl

/-- The parents in the pairs of parent and child are the loaded ones of all
lines. -/
theorem map_fst_loadedMentions (lines : List (List NodeId)) :
    (History.loadedMentions lines).map Prod.fst = loadedNodes lines.flatten := by
  rw [History.loadedMentions_eq_flatMap, List.map_flatMap, loadedNodes, List.filterMap_flatten,
    ← List.flatMap_def]
  have hlines : lines = (lines.zipIdx.map Prod.fst) := by simp
  conv_rhs => rw [hlines, List.flatMap_map]
  simp [Function.comp_def, loadedNodes]

/-- The counts are the numbers of children. -/
theorem Lines.map_toNat_upCounts (hlines : Lines size lines s) :
    s.upCounts.map UInt32.toNat =
      (gather size (History.loadedMentions lines)).map List.length := by
  refine Array.ext (by simp [hlines.size_upCounts]) fun p hp _ => ?_
  rw [Array.size_map] at hp
  have hcount := hlines.count_eq p
  rw [count, Array.getD_eq_getD_getElem?, Array.getElem?_eq_getElem hp, Option.getD_some] at hcount
  have hchildren := gather_getD size (History.loadedMentions lines) (hlines.size_upCounts ▸ hp)
  rw [Array.getD_eq_getD_getElem?, Array.getElem?_eq_getElem (by simpa [← hlines.size_upCounts]),
    Option.getD_some] at hchildren
  rw [Array.getElem_map, Array.getElem_map, hcount, hchildren, List.length_map,
    ← map_fst_loadedMentions, List.count, List.countP_map, List.countP_eq_length_filter]
  rfl

/-- The order of the nodes is that of the gathered lists. -/
theorem Lines.order_eq (hlines : Lines lines.length lines s) : s.order =
    match History.orderOf? lines.toArray
        (gather lines.length (History.loadedMentions lines)) with
      | some order => .ok order
      | none => .error (.malformed .cycle) := by
  have hearly : 0 < s.early ↔ ¬ History.isChildrenFirst lines = true := by
    rw [hlines.early_eq, List.countP_pos_iff, History.isChildrenFirst, List.all_eq_true]
    simp
  have htargets : s.loadedTargets = fun n => loadedNodes (lines.toArray.getD n []) := by
    funext n
    rw [loadedTargets, hlines.map_slice_eq]
    simp [Array.getD_eq_getD_getElem?, List.getD_eq_getElem?_getD]
  unfold order History.orderOf? History.childrenFirst
  rw [hlines.size_upCounts, hlines.map_toNat_upCounts, htargets]
  by_cases hfirst : History.isChildrenFirst lines = true
  · rw [if_neg (fun h => hearly.mp h hfirst), if_pos hfirst]
    simp
  · rw [if_pos (hearly.mpr hfirst), if_neg hfirst]
    simp only [List.size_toArray]
    split <;> rfl

end Order

variable [EquivBEq α] {commits : List (Commit α)}

omit [Hashable α] in
theorem firstOwnParent_eq (commits : List (Commit α)) : History.firstOwnParent commits =
    commits.find? fun c => c.parents.any (· == c.id) := by
  simp only [History.firstOwnParent, List.contains_eq_any_beq, BEq.comm]

/-- The tables of a commit list hold the lines of its parents. -/
theorem lines_ofCommits (hscan : ofCommits commits slots = .ok s) :
    History.firstOwnParent commits = none ∧
      s.slots = (History.resolveCommits (History.indexOf commits) slots commits).2 ∧
      Lines commits.length
        (History.resolveCommits (History.indexOf commits) slots commits).1 s := by
  obtain ⟨hown, hslots, hlines⟩ := lines_of_commits (lines_start commits.length slots) hscan
  refine ⟨?_, hslots, hlines⟩
  rw [firstOwnParent_eq, List.find?_eq_none]
  simpa using hown

end Scan

end Store

end Lineage
