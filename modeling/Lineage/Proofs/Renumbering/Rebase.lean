import Lineage.Proofs.Interleave
import Lineage.Proofs.Renumbering
import Lineage.Proofs.Strands

/-!
# Lineage.Proofs.Renumbering.Rebase

The rebase order of a history with its nodes numbered in two ways.  Numbers
count in two places: strands start from the nodes of a lane as they are
numbered, and equally new nodes of one lane go out as they are numbered.  So the
order moves along with the numbers if they agree within each lane and no two
nodes are equally new.

* `Renumbers.byLane`, `Renumbers.paths_ofHistory` — the strands.
* `Merge.Renumbered.emit` — one node goes out.
* `Renumbers.interleave` — the order.
-/

namespace Lineage

/-! ## marks -/

namespace Marks

/-- Marks on the same indices under other numbers. -/
def Renumbered (σ : Equiv.Perm Nat) (m m' : Marks) : Prop := Moved σ m.flags m'.flags

variable {σ : Equiv.Perm Nat} {m m' : Marks}

theorem Renumbered.has (hm : Renumbered σ m m') (i : Nat) : m'.has (σ i) = m.has i :=
  hm.getD i true

theorem Renumbered.mark (hm : Renumbered σ m m') (i : Nat) :
    Renumbered σ (m.mark i) (m'.mark (σ i)) :=
  hm.setIfInBounds i true

end Marks

theorem Renumbers.blank {σ : Equiv.Perm Nat} {h h' : History} (hr : Renumbers σ h h') :
    Marks.Renumbered σ (.blank h.size) (.blank h'.size) :=
  .replicate hr.lt_size_iff false

/-! ## strands -/

namespace Renumbers

variable {σ : Equiv.Perm Nat} {h h' : History} (hr : Renumbers σ h h') {lane lane' : Nat → Nat}
  (hlane : ∀ n, lane' (σ n) = lane n) {taken taken' : Marks}
include hr hlane

theorem strandParent? (htaken : Marks.Renumbered σ taken taken') (node : Nat) :
    h'.strandParent? lane' taken' (σ node) = (h.strandParent? lane taken node).map σ := by
  have hchildren : ∀ parent, ((h'.childrenOf (.loaded (σ parent))).all fun child =>
      taken'.has child || lane' (σ parent) < lane' child) =
      (h.childrenOf (.loaded parent)).all fun child =>
        taken.has child || lane parent < lane child := by
    intro parent
    refine (hr.children parent).all_eq.trans ?_
    rw [List.all_map]
    simp only [Function.comp_def, htaken.has, hlane]
    rfl
  rw [History.strandParent?, hr.parents node, List.find?_map]
  simp only [Function.comp_def, hchildren]
  simp only [htaken.has, hlane]
  rfl

/-- A strand grows along the same nodes. -/
theorem grow (htaken : Marks.Renumbered σ taken taken') (node : Nat) :
    (h'.grow lane' taken' (σ node)).1 = (h.grow lane taken node).1.map σ ∧
      Marks.Renumbered σ (h.grow lane taken node).2 (h'.grow lane' taken' (σ node)).2 := by
  fun_induction h.grow lane taken node generalizing taken' with
  | case1 taken node hnone =>
      have hnone' : h'.strandParent? lane' taken' (σ node) = none := by
        rw [hr.strandParent? hlane htaken, hnone]
        rfl
      rw [History.grow_none hnone']
      exact ⟨rfl, htaken⟩
  | case2 taken node parent hsome rest taken₁ hgrow ih =>
      have hsome' : h'.strandParent? lane' taken' (σ node) = some (σ parent) := by
        rw [hr.strandParent? hlane htaken, hsome]
        rfl
      obtain ⟨hrest, hmarks⟩ := ih (htaken.mark parent)
      rw [History.grow_some hsome', hrest]
      rw [hgrow] at hmarks ⊢
      exact ⟨rfl, hmarks⟩

theorem growAll (htaken : Marks.Renumbered σ taken taken') (nodes : List Nat) :
    h'.growAll lane' taken' (nodes.map σ) = (h.growAll lane taken nodes).map (·.map σ) := by
  induction nodes generalizing taken taken' with
  | nil => rfl
  | cons node nodes ih =>
      rw [List.map_cons, History.growAll, History.growAll, htaken.has]
      split
      · exact ih htaken
      · obtain ⟨hrest, hmarks⟩ := hr.grow hlane (htaken.mark node) node
        simp only [hrest, ih hmarks, List.map_cons]

/-- Where the numbers agree within each lane, the nodes come in the same order
by lane. -/
theorem byLane (hsame : ∀ {a b}, a < h.size → b < h.size → lane a = lane b →
      (σ a ≤ σ b ↔ a ≤ b)) :
    Strands.byLane h' lane' = (Strands.byLane h lane).map σ := by
  refine mergeSort_of_perm_map ⟨?_, ?_, ?_⟩ hr.perm_range fun a ha b hb => ?_
  · simp only [Bool.or_eq_true, Bool.and_eq_true, decide_eq_true_eq]
    omega
  · simp only [Bool.or_eq_true, Bool.and_eq_true, decide_eq_true_eq]
    omega
  · simp only [Bool.or_eq_true, Bool.and_eq_true, decide_eq_true_eq]
    omega
  · rw [hlane, hlane]
    by_cases heq : lane a = lane b
    · simp only [hsame (List.mem_range.mp ha) (List.mem_range.mp hb) heq]
    · simp [heq]

end Renumbers

/-- What comes after a node on a strand that is renumbered. -/
theorem pair_infix_map (σ : Equiv.Perm Nat) (path : List Nat) (n b : Nat) :
    [σ n, b] <:+: path.map σ ↔ ∃ c, [n, c] <:+: path ∧ σ c = b := by
  rw [List.infix_map_iff]
  constructor
  · rintro ⟨pair, hpair, heq⟩
    obtain ⟨m, tail, rfl, hm, htail⟩ := List.map_eq_cons_iff.mp heq.symm
    obtain ⟨c, rfl, hc⟩ := List.map_eq_singleton_iff.mp htail
    exact ⟨c, σ.injective hm ▸ hpair, hc⟩
  · rintro ⟨c, hpair, rfl⟩
    exact ⟨_, hpair, rfl⟩

namespace Renumbers

variable {σ : Equiv.Perm Nat} {h h' : History} {l l' : Lanes} (hr : Renumbers σ h h')
  (hlane : ∀ n, l'.lane (σ n) = l.lane n)
  (hsame : ∀ {a b}, a < h.size → b < h.size → l.lane a = l.lane b → (σ a ≤ σ b ↔ a ≤ b))
include hr hlane hsame

theorem map_paths :
    (Strands.ofHistory h' l').paths = (Strands.ofHistory h l).paths.map (·.map σ) := by
  rw [Strands.paths_ofHistory, Strands.paths_ofHistory, hr.byLane hlane hsame]
  exact hr.growAll hlane hr.blank (Strands.byLane h l.lane)

/-- Every node has the same one after it on its strand. -/
theorem next?_ofHistory (n : Nat) :
    (Strands.ofHistory h' l').next? (σ n) = ((Strands.ofHistory h l).next? n).map σ := by
  refine Option.ext fun b => ?_
  rw [Strands.next?_eq_some_iff, Option.map_eq_some_iff, Strands.Follows, hr.map_paths hlane hsame]
  simp only [Strands.next?_eq_some_iff, Strands.Follows]
  constructor
  · rintro ⟨_, hmem, hpair⟩
    obtain ⟨path, hpath, rfl⟩ := List.mem_map.mp hmem
    obtain ⟨c, hpair, hc⟩ := (pair_infix_map σ path n b).mp hpair
    exact ⟨c, ⟨path, hpath, hpair⟩, hc⟩
  · rintro ⟨c, ⟨path, hpath, hpair⟩, hc⟩
    exact ⟨_, List.mem_map_of_mem hpath, (pair_infix_map σ path n b).mpr ⟨c, hpair, hc⟩⟩

end Renumbers

/-! ## the agenda -/

section Agenda

variable {β γ : Type} {before : β → β → Bool} {before' : γ → γ → Bool} {f : β → γ}

theorem insertSorted_map {b : β} {cs : List β} (hf : ∀ c ∈ cs, before' (f c) (f b) = before c b) :
    insertSorted before' (f b) (cs.map f) = (insertSorted before b cs).map f := by
  induction cs with
  | nil => rfl
  | cons c cs ih =>
      obtain ⟨hc, hcs⟩ := List.forall_mem_cons.mp hf
      rw [List.map_cons, insertSorted, insertSorted, hc]
      split
      · rw [ih hcs, List.map_cons]
      · rfl

theorem insertAllSorted_map {bs cs : List β}
    (hf : ∀ b ∈ bs ++ cs, ∀ c ∈ bs ++ cs, before' (f b) (f c) = before b c) :
    insertAllSorted before' (bs.map f) (cs.map f) = (insertAllSorted before bs cs).map f := by
  induction bs generalizing cs with
  | nil => rfl
  | cons b bs ih =>
      have hperm := (perm_insertSorted before b cs).append_left bs |>.trans List.perm_middle
      have hinsert := insertSorted_map fun c hc =>
        hf c (List.mem_append_right _ hc) b (List.mem_append_left _ List.mem_cons_self)
      simp only [insertAllSorted, List.map_cons, List.foldl_cons, hinsert] at ih ⊢
      exact ih fun x hx y hy => hf x (hperm.subset hx) y (hperm.subset hy)

end Agenda

/-- Settling the same mentions under other numbers. -/
theorem settle_map {σ : Equiv.Perm Nat} {waiting waiting' : Array Nat}
    (hw : Moved σ waiting waiting') (ps : List Nat) :
    Moved σ (settle waiting ps).1 (settle waiting' (ps.map σ)).1 ∧
      (settle waiting' (ps.map σ)).2 = (settle waiting ps).2.map σ := by
  induction ps generalizing waiting waiting' with
  | nil => exact ⟨hw, rfl⟩
  | cons p ps ih =>
      rw [List.map_cons, settle, settle, hw.getD]
      split
      · exact ih hw
      · next left _ =>
          obtain ⟨htable, hfreed⟩ := ih (hw.setIfInBounds p left)
          refine ⟨htable, ?_⟩
          simp only [hfreed]
          split <;> rfl

/-! ## the merge -/

/-- The rank of the same node under another number. -/
def Rank.renumber (σ : Equiv.Perm Nat) (r : Rank) : Rank := { r with node := σ r.node }

namespace Rank

theorem linearOn_before (rs : List Rank) : LinearOn before rs := by
  refine ⟨fun a _ b _ c _ => before_trans a b c, fun a _ b _ => before_total a b,
    fun a _ b _ => ?_⟩
  · simp only [before_iff]
    intro hab hba
    obtain ⟨htime, hlane, hnode⟩ :
        a.timestamp = b.timestamp ∧ a.lane = b.lane ∧ a.node = b.node := by omega
    cases a
    cases b
    simp_all

/-- Nodes that are not equally new are ranked without their numbers. -/
theorem before_renumber {σ : Equiv.Perm Nat} {a b : Rank}
    (hab : a.timestamp = b.timestamp → a = b) :
    (a.renumber σ).before (b.renumber σ) = a.before b := by
  by_cases htime : a.timestamp = b.timestamp
  · rw [hab htime, Bool.eq_iff_iff, before_iff, before_iff]
    simp
  · rw [Bool.eq_iff_iff, before_iff, before_iff]
    simp [renumber, htime]

end Rank

namespace Merge

/-- Merges of the same nodes under other numbers. -/
structure Renumbered (σ : Equiv.Perm Nat) (m m' : Merge) : Prop where
  waiting : Moved σ m.waiting m'.waiting
  out : Marks.Renumbered σ m.out m'.out
  agenda : m'.agenda = m.agenda.map (Rank.renumber σ)
  last : m'.last = m.last.map σ

/-- Where no two nodes are equally new, those on the agenda are ranked in the
same way under other numbers. -/
theorem Sound.before_renumber {h : History} {rank : Nat → Rank} {m : Merge} {out : List Nat}
    (hm : Sound h rank m out)
    (hnew : ∀ {a b}, a < h.size → b < h.size → (rank a).timestamp = (rank b).timestamp → a = b)
    (σ : Equiv.Perm Nat) :
    ∀ a ∈ m.agenda, ∀ b ∈ m.agenda, (a.renumber σ).before (b.renumber σ) = a.before b := by
  refine fun a ha b hb => Rank.before_renumber fun htime => ?_
  rw [hm.ranked a ha, hm.ranked b hb] at htime ⊢
  rw [hnew (hm.listed a ha).1 (hm.listed b hb).1 htime]

namespace Renumbered

variable {σ : Equiv.Perm Nat} {h h' : History} {s s' : Strands} {m m' : Merge}
  {rank rank' : Nat → Rank}

theorem continuation? (hm : Renumbered σ m m') (hs : ∀ n, s'.next? (σ n) = (s.next? n).map σ) :
    m'.continuation? s' = (m.continuation? s).map σ := by
  have hbind : m'.last.bind s'.next? = (m.last.bind s.next?).map σ := by
    rw [hm.last]
    cases m.last with
    | none => rfl
    | some n => exact hs n
  rw [Merge.continuation?, hbind, Option.filter_map, Merge.continuation?]
  simp only [Function.comp_def, hm.out.has, hm.waiting.getD]

theorem pending (hm : Renumbered σ m m') : m'.pending = m.pending.map (Rank.renumber σ) := by
  rw [Merge.pending, hm.agenda, List.dropWhile_map, Merge.pending]
  simp only [Function.comp_def, Rank.renumber, hm.out.has]

theorem pick? (hm : Renumbered σ m m') (hs : ∀ n, s'.next? (σ n) = (s.next? n).map σ) :
    m'.pick? s' = (m.pick? s).map fun p => (σ p.1, p.2.map (Rank.renumber σ)) := by
  rw [Merge.pick?, hm.continuation? hs, hm.pending, hm.agenda, Merge.pick?]
  cases m.continuation? s with
  | some next => rfl
  | none => cases m.pending <;> rfl

/-- One node goes out. -/
theorem emit (hr : Renumbers σ h h') (hm : Renumbered σ m m')
    (hrank : ∀ n, rank' (σ n) = (rank n).renumber σ) {node : Nat} {agenda : List Rank}
    (hbefore : ∀ a ∈ (m.emit h rank node agenda).agenda,
      ∀ b ∈ (m.emit h rank node agenda).agenda,
        (a.renumber σ).before (b.renumber σ) = a.before b) :
    Renumbered σ (m.emit h rank node agenda)
      (m'.emit h' rank' (σ node) (agenda.map (Rank.renumber σ))) := by
  obtain ⟨hwaiting, hfreed⟩ := settle_map hm.waiting (h.loadedParents node)
  rw [← hr.parents node] at hwaiting hfreed
  refine ⟨hwaiting, hm.out.mark node, ?_, rfl⟩
  have hmap : (settle m'.waiting (h'.loadedParents (σ node))).2.map rank' =
      ((settle m.waiting (h.loadedParents node)).2.map rank).map (Rank.renumber σ) := by
    simp only [hfreed, List.map_map, Function.comp_def, hrank]
  have hmem := (perm_insertAllSorted Rank.before
    ((settle m.waiting (h.loadedParents node)).2.map rank) agenda).symm.subset
  simp only [Merge.emit, hmap]
  exact insertAllSorted_map fun a ha b hb => hbefore a (hmem ha) b (hmem hb)

end Renumbered

end Merge

namespace Renumbers

open Merge

variable {σ : Equiv.Perm Nat} {h h' : History} {s s' : Strands} {m m' : Merge}
  {rank rank' : Nat → Rank} {out : List Nat} (hr : Renumbers σ h h')
  (hl : Linked h.size h.loadedParents h.loadedChildren)
  (hs : ∀ n, s'.next? (σ n) = (s.next? n).map σ)
  (hnode : ∀ n, (rank n).node = n) (hrank : ∀ n, rank' (σ n) = (rank n).renumber σ)
  (hnew : ∀ {a b}, a < h.size → b < h.size → (rank a).timestamp = (rank b).timestamp → a = b)
include hr hl hs hnode hrank hnew

/-- The merge lets the same nodes go out.  The first merge is known to be sound,
so its agenda holds nodes that are ranked without their numbers. -/
theorem run (hsound : Merge.Sound h rank m out) (hm : Merge.Renumbered σ m m') (rounds : Nat) :
    Merge.run h' s' rank' rounds m' = (Merge.run h s rank rounds m).map σ := by
  induction rounds generalizing m m' out with
  | zero => rfl
  | succ rounds ih =>
      rw [Merge.run, Merge.run, hm.pick? hs]
      cases hp : m.pick? s with
      | none => rfl
      | some picked =>
          obtain ⟨node, agenda⟩ := picked
          have hemit := hsound.emit hl hnode hp
          have hnext := hm.emit hr hrank (hemit.before_renumber hnew σ)
          simp only [Option.map_some, List.map_cons, ih hemit hnext]

omit hs in
theorem start : Merge.Renumbered σ (Merge.start h rank) (Merge.start h' rank') := by
  have hsound := Merge.Sound.start hl hnode
  have hwaiting : Moved σ (Merge.start h rank).waiting (Merge.start h' rank').waiting := by
    intro n
    by_cases hn : n < h.size
    · have hlength := hr.length_children n
      simp only [History.loadedChildren] at hlength
      simp [Merge.start, hn, hr.lt_size_iff.mpr hn, hlength]
    · have hn' : ¬ σ n < h'.size := mt hr.lt_size_iff.mp hn
      simp [Merge.start, hn, hn']
  refine ⟨hwaiting, hr.blank, ?_, rfl⟩
  have hready := (hr.perm_filter_range
    (p := fun n => decide ((Merge.start h rank).waiting.getD n 0 = 0))
    (q := fun n => decide ((Merge.start h' rank').waiting.getD n 0 = 0))
    fun n => by rw [hwaiting.getD]).map rank'
  simp only [List.map_map, Function.comp_def, hrank] at hready
  have hbefore := hsound.before_renumber hnew σ
  simp only [Merge.start, List.mem_mergeSort] at hbefore
  exact mergeSort_of_perm_map (Rank.linearOn_before _)
    (hready.trans (by rw [List.map_map]; rfl)) hbefore

end Renumbers

namespace Renumbers

variable {σ : Equiv.Perm Nat} {h h' : History} {l l' : Lanes}

/-- The rebase order of the one history shows the same nodes as that of the
other, if numbers agree within each lane and no two nodes are equally new. -/
theorem interleave (hr : Renumbers σ h h') (timestamp timestamp' : Nat → Int)
    (hl : Linked h.size h.loadedParents h.loadedChildren)
    (hlane : ∀ n, l'.lane (σ n) = l.lane n)
    (hsame : ∀ {a b}, a < h.size → b < h.size → l.lane a = l.lane b → (σ a ≤ σ b ↔ a ≤ b))
    (htime : ∀ n, timestamp' (σ n) = timestamp n)
    (hnew : ∀ {a b}, a < h.size → b < h.size → timestamp a = timestamp b → a = b) :
    h'.interleave l' (.ofHistory h' l') timestamp' =
      (h.interleave l (.ofHistory h l) timestamp).map σ := by
  have hrank : ∀ n, (⟨timestamp' (σ n), l'.lane (σ n), σ n⟩ : Rank) =
      Rank.renumber σ ⟨timestamp n, l.lane n, n⟩ := by
    intro n
    rw [htime, hlane]
    rfl
  have hnode : ∀ n, (⟨timestamp n, l.lane n, n⟩ : Rank).node = n := fun _ => rfl
  rw [History.interleave, hr.size_eq]
  exact hr.run hl (hr.next?_ofHistory hlane hsame) hnode hrank hnew (Merge.Sound.start hl hnode)
    (hr.start hl hnode hrank hnew) h.size

end Renumbers

end Lineage
