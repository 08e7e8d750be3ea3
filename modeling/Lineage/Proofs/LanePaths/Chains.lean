import Mathlib.Data.List.Chain
import Lineage.Proofs.LanePaths

/-!
# Lineage.Proofs.LanePaths.Chains

The nodes of a lane, one by one.  The walk goes from a node to the first of its
parents that has no lane, so the parents in front of that one have smaller
lanes; and where it turns back all parents have.  That they are not in the open
lane is because its nodes all reach the one where the walk is.

* `History.Leads`, `History.Ends` — the step from one node of a lane to the next,
  and its last node.
* `Painting.Chains.give`, `Painting.Chains.leave` — the two steps of the walk.
* `Lanes.exists_lanePaths` — every lane has its nodes in such an order.
-/

namespace Lineage

open Relation (ReflTransGen TransGen)

namespace History

variable {h : History} {lane lane' : Nat → Nat} {m n : Nat} {path : List Nat}

/-! ## ways down a lane -/

/-- The nodes of a list have lanes, all of them smaller than that of `m`. -/
def AllSmaller (lane : Nat → Nat) (m : Nat) (nodes : List Nat) : Prop :=
  ∀ n ∈ nodes, lane n ≠ 0 ∧ lane n < lane m

/-- The parent `n` is in the lane of `m`, and those in front of it are in
smaller ones. -/
def Leads (h : History) (lane : Nat → Nat) (m n : Nat) : Prop :=
  ∃ before after, h.loadedParents m = before ++ n :: after ∧ AllSmaller lane m before ∧
    lane n = lane m

/-- All parents are in smaller lanes. -/
def Ends (h : History) (lane : Nat → Nat) (m : Nat) : Prop :=
  AllSmaller lane m (h.loadedParents m)

/-- The nodes of a lane, each of which leads to the next. -/
structure LanePath (h : History) (lane : Nat → Nat) (l : Nat) (path : List Nat) : Prop where
  mem_iff : ∀ {n}, n ∈ path ↔ lane n = l
  chain : path.IsChain (h.Leads lane)

/-- The lanes from `1` to `count` hold the nodes of a history, and each is a way
down that ends where all parents are in smaller lanes. -/
structure LanePaths (h : History) (lane : Nat → Nat) (count : Nat) : Prop where
  pos_iff : ∀ {n}, 1 ≤ lane n ↔ n < h.size
  lane_le : ∀ n, lane n ≤ count
  exists_path : ∀ {l}, 1 ≤ l → l ≤ count →
    ∃ path, h.LanePath lane l path ∧ ∃ last ∈ path.getLast?, h.Ends lane last

theorem Leads.isParent (hlead : h.Leads lane m n) : h.IsParent m n := by
  obtain ⟨before, after, hparents, _⟩ := hlead
  simp [IsParent, hparents]

section Kept

variable (hkept : ∀ {n}, lane n ≠ 0 → lane' n = lane n)
include hkept

theorem AllSmaller.kept {nodes : List Nat} (hm : lane m ≠ 0) (hnodes : AllSmaller lane m nodes) :
    AllSmaller lane' m nodes := by
  intro n hn
  obtain ⟨hzero, hlt⟩ := hnodes n hn
  rw [hkept hzero, hkept hm]
  exact ⟨hzero, hlt⟩

theorem Leads.kept (hm : lane m ≠ 0) (hlead : h.Leads lane m n) : h.Leads lane' m n := by
  obtain ⟨before, after, hparents, hbefore, hn⟩ := hlead
  have hn' : lane n ≠ 0 := hn ▸ hm
  exact ⟨before, after, hparents, hbefore.kept hkept hm, by rw [hkept hn', hkept hm, hn]⟩

/-- The way down a lane stays the same while other nodes get lanes. -/
theorem LanePath.kept {l : Nat} (hl : l ≠ 0) (hpath : h.LanePath lane l path)
    (hnew : ∀ {n}, lane n = 0 → lane' n ≠ l) : h.LanePath lane' l path where
  mem_iff {n} := by
    rw [hpath.mem_iff]
    by_cases hn : lane n = 0
    · exact iff_of_false (hn ▸ hl.symm) (hnew hn)
    · rw [hkept hn]
  chain := hpath.chain.imp_of_mem_imp fun m n hm _ hlead =>
    hlead.kept hkept (hpath.mem_iff.mp hm ▸ hl)

end Kept

end History

namespace Painting

open History

variable {h : History} {p : Painting} {node : Nat} {heads stack : List Nat} {arrived : Bool}

/-! ## walks -/

/-- Every closed lane is a way down that has ended; the open one is a way down
to the top of the stack if the walk has just arrived there, and has no nodes
otherwise. -/
structure Chains (h : History) (p : Painting) (stack : List Nat) (arrived : Bool) : Prop where
  closed : ∀ {l}, 1 ≤ l → l ≤ p.closed → ∃ path, h.LanePath p.laneOf l path ∧
    ∃ last ∈ path.getLast?, h.Ends p.laneOf last
  opened : ∃ path, h.LanePath p.laneOf p.current path ∧
    path.getLast? = if arrived then stack.head? else none

namespace Chains

/-- The next node gets the open lane. -/
theorem give (hc : Chains h p stack arrived) (hfree : p.isFree node = true)
    (hleads : arrived = true → ∀ top ∈ stack.head?, h.Leads (p.give node).laneOf top node)
    (rest : List Nat) : Chains h (p.give node) (node :: rest) true where
  closed {l} hl hle := by
    obtain ⟨path, hpath, last, hlast, hends⟩ := hc.closed hl hle
    have hgrows : Grows (fun _ => True) p (p.give node) := .give hfree trivial
    have hpos : p.laneOf last ≠ 0 := by
      have := hpath.mem_iff.mp (List.mem_of_getLast? hlast)
      omega
    refine ⟨path, hpath.kept hgrows.kept (by omega) fun {n} hn => ?_, last, hlast,
      hends.kept hgrows.kept hpos⟩
    rw [laneOf_give hfree]
    simp only [closed_give] at hle
    split
    · simp only [current]
      omega
    · omega
  opened := by
    obtain ⟨path, hpath, hlast⟩ := hc.opened
    have hgrows : Grows (fun _ => True) p (p.give node) := .give hfree trivial
    have hzero := (isFree_iff.mp hfree).2
    refine ⟨path ++ [node], ⟨fun {n} => ?_, ?_⟩, by simp⟩
    · rw [List.mem_append, List.mem_singleton, hpath.mem_iff, laneOf_give hfree]
      split
      · next heq => simp [heq, current]
      · next hne => simp [hne, current]
    · have hchain : path.IsChain (h.Leads (p.give node).laneOf) :=
        hpath.chain.imp_of_mem_imp fun m n hm _ hlead => hlead.kept hgrows.kept (by
          rw [hpath.mem_iff.mp hm, current]
          omega)
      refine hchain.append (List.isChain_singleton node) fun top htop n hn => ?_
      obtain rfl : node = n := by simpa using hn
      rw [hlast] at htop
      cases arrived with
      | false => simp at htop
      | true => exact hleads rfl top (by simpa using htop)

/-- A node is left, which ends the lane if the walk has just arrived there. -/
theorem leave (hc : Chains h p (node :: stack) arrived)
    (hw : Walking h (p.leave arrived) stack false)
    (hends : arrived = true → h.Ends p.laneOf node) :
    Chains h (p.leave arrived) stack false where
  closed {l} hl hle := by
    have hsame : (p.leave arrived).laneOf = p.laneOf := funext fun n => laneOf_leave n
    rw [hsame]
    rcases Nat.lt_or_ge p.closed l with hlt | hle'
    · cases arrived with
      | false => simp at hle; omega
      | true =>
          obtain rfl : l = p.current := by
            simp at hle
            simp only [current]
            omega
          obtain ⟨path, hpath, hlast⟩ := hc.opened
          exact ⟨path, hpath, node, by simpa using hlast, hends rfl⟩
    · exact hc.closed hl hle'
  opened := ⟨[], ⟨fun {n} => iff_of_false List.not_mem_nil (Descends.not_open hw n),
    List.isChain_nil⟩, rfl⟩

/-- A parent of the node that the walk has just arrived at has a smaller lane,
if it has one: the nodes of the open lane reach that node. -/
theorem smaller_of_not_free (hl : Linked h.size h.loadedParents h.loadedChildren)
    (hacyclic : ∀ n, ¬ TransGen h.IsParent n n) (hw : Walking h p (node :: stack) true)
    (hd : Descends h p (node :: stack) true) {m : Nat} (hm : m ∈ h.loadedParents node)
    (hnot : ¬ p.isFree m = true) : p.laneOf m ≠ 0 ∧ p.laneOf m < p.current := by
  have hsize : m < p.lanes.size := by
    rw [hw.size_eq]
    exact hl.parent_lt hm
  have hopen : p.laneOf m ≠ p.current := fun heq =>
    hacyclic node (.head' hm (hd.top rfl node rfl heq))
  have hle := hw.lane_le m
  refine ⟨fun hzero => hnot (isFree_iff.mpr ⟨hsize, hzero⟩), ?_⟩
  simp only [current, Bool.toNat_true] at *
  omega

/-- The lane of the node that the walk has just arrived at. -/
theorem laneOf_top (hc : Chains h p (node :: stack) true) : p.laneOf node = p.current := by
  obtain ⟨path, hpath, hlast⟩ := hc.opened
  exact hpath.mem_iff.mp (List.mem_of_getLast? hlast)

theorem descend (hl : Linked h.size h.loadedParents h.loadedChildren)
    (hacyclic : ∀ n, ¬ TransGen h.IsParent n n) (hw : Walking h p stack arrived)
    (hd : Descends h p stack arrived) (hc : Chains h p stack arrived)
    (hstack : arrived = true → stack ≠ []) : Chains h (p.descend h stack arrived) [] false := by
  fun_induction Painting.descend h p stack arrived with
  | case1 p arrived =>
      obtain rfl : arrived = false := by simpa using hstack
      exact hc
  | case2 p arrived node rest parent hfound ih =>
      have hfree : p.isFree parent = true := List.find?_some hfound
      have hparent : h.IsParent node parent := List.mem_of_find?_eq_some hfound
      have hd' : Descends h (p.give parent) (parent :: node :: rest) true := by
        refine hd.give hfree (fun {n} hn => ?_) _
        cases arrived with
        | false => exact absurd hn (Descends.not_open hw n)
        | true => exact (hd.top rfl node rfl hn).tail hparent
      refine ih (hw.push hfree) hd' (hc.give hfree ?_ _) (by simp)
      rintro rfl top htop
      obtain rfl : node = top := by simpa using htop
      obtain ⟨before, after, hparents, hbefore⟩ := List.find?_eq_some_iff_append.mp hfound |>.2
      have hgrows : Grows (fun _ => True) p (p.give parent) := .give hfree trivial
      have htop := hc.laneOf_top
      have hnode : p.laneOf node ≠ 0 := by simp [htop, current]
      have hsmaller : AllSmaller p.laneOf node before := fun m hm => by
        rw [htop]
        exact smaller_of_not_free hl hacyclic hw hd (by simp [hparents, hm])
          (by simpa using hbefore m hm)
      refine ⟨before, after, hparents, hsmaller.kept hgrows.kept hnode, ?_⟩
      rw [laneOf_give hfree, if_pos rfl, hgrows.kept hnode, htop]
  | case3 p arrived node rest hnone ih =>
      have hdone : ∀ m ∈ h.loadedParents node, ¬ p.isFree m := by
        simpa using List.find?_eq_none.mp hnone
      have hw' := hw.pop hl hdone
      refine ih hw' (hd.leave rest) (hc.leave hw' ?_) (by simp)
      rintro rfl m hm
      rw [hc.laneOf_top]
      exact smaller_of_not_free hl hacyclic hw hd hm (hdone m hm)

/-- The walks from heads that are all free. -/
theorem paintAll (hl : Linked h.size h.loadedParents h.loadedChildren)
    (hacyclic : ∀ n, ¬ TransGen h.IsParent n n) (hw : Walking h p [] false)
    (hd : Descends h p [] false) (hc : Chains h p [] false) (hnodup : heads.Nodup)
    (hheads : ∀ head ∈ heads, h.IsHead head ∧ p.laneOf head = 0) :
    Chains h (p.paintAll h heads).1 [] false ∧ Walking h (p.paintAll h heads).1 [] false := by
  induction heads generalizing p with
  | nil => exact ⟨hc, hw⟩
  | cons head heads ih =>
      obtain ⟨hfree, hrest⟩ := hw.free_heads hl hnodup hheads
      have hgive := hd.give hfree (fun {n} hn => absurd hn (Descends.not_open hw n)) []
      have hchains := hc.give hfree (fun hfalse => by contradiction) []
      exact ih (hw.paint hl hfree).1 (hgive.descend hl (hw.push hfree))
        (hchains.descend hl hacyclic (hw.push hfree) hgive (by simp)) hnodup.of_cons hrest

end Chains

end Painting

namespace Lanes

open History

variable {h : History}

/-! ## the lanes of a history -/

/-- The lanes of a sound history are numbered without gaps, and each is a way
down. -/
theorem exists_lanePaths (hs : h.Sound) (compare : Nat → Nat → Ordering) :
    ∃ count, h.LanePaths (ofHistory h compare).lane count := by
  have hopen : Painting.Chains h (blank h) [] false :=
    { closed := fun hl hle => by
        have hle : _ ≤ 0 := hle
        omega
      opened := ⟨[], ⟨fun {n} => iff_of_false List.not_mem_nil
        (Painting.Descends.not_open (walking_blank h) n), List.isChain_nil⟩, rfl⟩ }
  obtain ⟨hchains, hw⟩ := hopen.paintAll hs.linked hs.acyclic (walking_blank h) (descends_blank h)
    (nodup_heads_ofHistory h compare) (free_heads_ofHistory h compare)
  have hpos : ∀ {n}, 1 ≤ (ofHistory h compare).lane n ↔ n < h.size := fun {n} => by
    constructor
    · intro hn
      rw [← hw.size_eq]
      exact lt_size_of_getD_ne (d := 0) (Nat.ne_of_gt hn)
    · exact fun hn => Nat.pos_of_ne_zero (lane_ne_zero hs compare hn)
  exact ⟨_, hpos, hw.lane_le, hchains.closed⟩

end Lanes

end Lineage
