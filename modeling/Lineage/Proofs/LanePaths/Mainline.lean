import Lineage.Proofs.LanePaths.Downward

/-!
# Lineage.Proofs.LanePaths.Mainline

The first lane of a head.  It holds the mainline of the head: the way down from
it that always takes the first parent no head in front of it reaches.  When the
walk from a head starts, those heads have painted all of their history and
nothing else, so a parent below the head is theirs exactly if its lane is
smaller than the first lane of the head.

* `History.GoesOn`, `History.Mainline` — the mainline, without lanes.
* `Lanes.lane_lt_start_iff` — whose history a node is in.
* `Lanes.lane_eq_start_iff` — the first lane of a head is its mainline.
-/

namespace Lineage

open Relation (ReflTransGen TransGen)

namespace History

variable {h : History} {heads : List Nat} {i m n n' : Nat}

/-! ## mainlines -/

/-- A head in front of place `i` reaches the node. -/
def Taken (h : History) (heads : List Nat) (i n : Nat) : Prop := ∃ j ∈ h.reaching heads n, j < i

/-- The first loaded parent of `m` that no head in front of place `i` reaches
is `n`. -/
def GoesOn (h : History) (heads : List Nat) (i m n : Nat) : Prop :=
  ∃ before after, h.loadedParents m = before ++ n :: after ∧
    (∀ k ∈ before, h.Taken heads i k) ∧ ¬ h.Taken heads i n

/-- The nodes from the head at place `i` on, each time to the first parent that
no head in front of it reaches, until there is none. -/
def Mainline (h : History) (heads : List Nat) (i n : Nat) : Prop :=
  ∃ head, heads[i]? = some head ∧ ReflTransGen (h.GoesOn heads i) head n

theorem GoesOn.isParent (hon : h.GoesOn heads i m n) : h.IsParent m n := by
  obtain ⟨before, after, hparents, _⟩ := hon
  simp [IsParent, hparents]

theorem GoesOn.unique (hn : h.GoesOn heads i m n) (hn' : h.GoesOn heads i m n') : n = n' := by
  classical
  have hfind : ∀ {k}, h.GoesOn heads i m k →
      (h.loadedParents m).find? (fun k => ¬ h.Taken heads i k) = some k := by
    rintro k ⟨before, after, hparents, hbefore, hk⟩
    exact List.find?_eq_some_iff_append.mpr
      ⟨by simpa using hk, before, after, hparents, by simpa using hbefore⟩
  exact Option.some.inj ((hfind hn).symm.trans (hfind hn'))

/-- A node that a head reaches stands in the history. -/
theorem Sound.lt_size_of_reaching (hs : h.Sound) (hheads : ∀ {m}, m ∈ heads → h.IsHead m)
    (hi : i ∈ h.reaching heads n) : n < h.size := by
  obtain ⟨head, hhead, hreach⟩ := hi
  rcases ReflTransGen.cases_tail hreach with rfl | ⟨m, _, hparent⟩
  · exact (hheads (List.mem_of_getElem? hhead)).1
  · exact hs.linked.parent_lt hparent

theorem reaching_of_parent (hm : i ∈ h.reaching heads m) (hparent : h.IsParent m n) :
    i ∈ h.reaching heads n := by
  obtain ⟨head, hhead, hreach⟩ := hm
  exact ⟨head, hhead, hreach.tail hparent⟩

section LanePath

variable {lane : Nat → Nat} {l : Nat} {path : List Nat}

/-- A node of a lane is its last one or leads to another one. -/
theorem LanePath.next (hpath : h.LanePath lane l path) (hn : n ∈ path) :
    path.getLast? = some n ∨ ∃ m ∈ path, h.Leads lane n m := by
  obtain ⟨before, after, rfl⟩ := List.append_of_mem hn
  cases after with
  | nil => exact Or.inl (by simp)
  | cons m after =>
      have hchain := (List.isChain_append.mp hpath.chain).2.1
      exact Or.inr ⟨m, by simp, (List.isChain_cons_cons.mp hchain).1⟩

/-- Nothing in the lane of a head is in front of it. -/
theorem LanePath.eq_cons (hl : Linked h.size h.loadedParents h.loadedChildren)
    (hpath : h.LanePath lane l path) (hhead : h.IsHead n) (hn : lane n = l) :
    ∃ rest, path = n :: rest := by
  cases path with
  | nil => exact absurd (hpath.mem_iff.mpr hn) List.not_mem_nil
  | cons first rest =>
      rcases List.mem_cons.mp (hpath.mem_iff.mpr hn) with rfl | hmem
      · exact ⟨rest, rfl⟩
      · have hbelow := List.rel_of_pairwise_cons hpath.pairwise hmem
        exact ⟨rest, by rw [hhead.eq_of_reach hl hbelow.to_reflTransGen]⟩

end LanePath

end History

namespace Lanes

open History

variable {h : History} {compare : Nat → Nat → Ordering} {i m n s : Nat}

/-! ## first lanes -/

/-- The first lane of a head bounds the lanes of what heads in front of it
reach. -/
theorem lane_lt_start_iff (hs : h.Sound) (hstart : (ofHistory h compare).starts[i]? = some s)
    (hreach : i ∈ h.reaching (ofHistory h compare).heads n) :
    (ofHistory h compare).lane n < s ↔ h.Taken (ofHistory h compare).heads i n := by
  have hfirst := isLeast_headPosition hs compare
    (hs.lt_size_of_reaching mem_heads_ofHistory.mp hreach)
  have hle := (regions_ofHistory hs.linked compare).start_le_iff (laneOf_blank h n) hfirst hstart
  have hlt : (ofHistory h compare).lane n < s ↔ (ofHistory h compare).headPosition n < i := by
    rw [← Nat.not_le, ← Nat.not_le]
    exact not_congr hle
  rw [hlt]
  constructor
  · exact fun hlt => ⟨_, hfirst.1, hlt⟩
  · rintro ⟨j, hj, hji⟩
    exact Nat.lt_of_le_of_lt (hfirst.2 hj) hji

/-- In the first lane of a head, a node leads to where the mainline goes on. -/
theorem goesOn_of_leads (hs : h.Sound) (hstart : (ofHistory h compare).starts[i]? = some s)
    (hreach : i ∈ h.reaching (ofHistory h compare).heads m)
    (hlane : (ofHistory h compare).lane m = s) (hlead : h.Leads (ofHistory h compare).lane m n) :
    h.GoesOn (ofHistory h compare).heads i m n := by
  have hbelow : ∀ {k}, h.IsParent m k →
      ((ofHistory h compare).lane k < s ↔ h.Taken (ofHistory h compare).heads i k) :=
    fun hk => lane_lt_start_iff hs hstart (reaching_of_parent hreach hk)
  obtain ⟨before, after, hparents, hbefore, hn⟩ := id hlead
  refine ⟨before, after, hparents, fun k hk => ?_, ?_⟩
  · have hparent : h.IsParent m k := by simp [IsParent, hparents, hk]
    rw [← hbelow hparent, ← hlane]
    exact (hbefore k hk).2
  · rw [← hbelow hlead.isParent, hn, hlane]
    exact Nat.lt_irrefl s

/-- The head at a place, and the nodes of its first lane. -/
theorem exists_firstLane (hs : h.Sound) (hstart : (ofHistory h compare).starts[i]? = some s) :
    ∃ head rest, (ofHistory h compare).heads[i]? = some head ∧
      h.LanePath (ofHistory h compare).lane s (head :: rest) ∧
      ∃ last ∈ (head :: rest).getLast?, h.Ends (ofHistory h compare).lane last := by
  obtain ⟨head, hhead, hlane⟩ : ∃ head, (ofHistory h compare).heads[i]? = some head ∧
      (ofHistory h compare).lane head = s := by
    rw [starts_ofHistory hs, List.getElem?_map] at hstart
    simpa using hstart
  have hishead : h.IsHead head := mem_heads_ofHistory.mp (List.mem_of_getElem? hhead)
  obtain ⟨count, hpaths⟩ := exists_lanePaths hs compare
  obtain ⟨path, hpath, hends⟩ :=
    hpaths.exists_path (hpaths.pos_iff.mpr hishead.1) (hpaths.lane_le head)
  obtain ⟨rest, rfl⟩ := hpath.eq_cons hs.linked hishead rfl
  exact ⟨head, rest, hhead, hlane ▸ hpath, hends⟩

theorem mainline_of_lane_eq (hs : h.Sound) (hstart : (ofHistory h compare).starts[i]? = some s)
    (hn : (ofHistory h compare).lane n = s) : h.Mainline (ofHistory h compare).heads i n := by
  obtain ⟨head, rest, hhead, hpath, _⟩ := exists_firstLane hs hstart
  have hreach : ∀ {m}, m ∈ head :: rest → i ∈ h.reaching (ofHistory h compare).heads m := by
    intro m hm
    rcases List.mem_cons.mp hm with rfl | hm
    · exact ⟨m, hhead, .refl⟩
    · exact ⟨head, hhead, (List.rel_of_pairwise_cons hpath.pairwise hm).to_reflTransGen⟩
  have hchain : (head :: rest).IsChain (TransGen (h.GoesOn (ofHistory h compare).heads i)) :=
    hpath.chain.imp_of_mem_imp fun m k hm _ hlead =>
      .single (goesOn_of_leads hs hstart (hreach hm) (hpath.mem_iff.mp hm) hlead)
  rcases List.mem_cons.mp (hpath.mem_iff.mpr hn) with rfl | hmem
  · exact ⟨n, hhead, .refl⟩
  · exact ⟨head, hhead, (List.rel_of_pairwise_cons hchain.pairwise hmem).to_reflTransGen⟩

/-- Where the mainline goes on, so does the lane. -/
theorem lane_of_goesOn (hs : h.Sound) (hstart : (ofHistory h compare).starts[i]? = some s)
    (hreach : i ∈ h.reaching (ofHistory h compare).heads m)
    (hlane : (ofHistory h compare).lane m = s)
    (hon : h.GoesOn (ofHistory h compare).heads i m n) : (ofHistory h compare).lane n = s := by
  obtain ⟨head, rest, _, hpath, last, hlast, hends⟩ := exists_firstLane hs hstart
  rcases hpath.next (hpath.mem_iff.mpr hlane) with hend | ⟨k, hk, hlead⟩
  · -- all parents of the last node are taken
    obtain rfl : last = m := Option.some.inj (hlast.symm.trans hend)
    have hlt := (hends n hon.isParent).2
    rw [hlane, lane_lt_start_iff hs hstart (reaching_of_parent hreach hon.isParent)] at hlt
    obtain ⟨_, _, _, _, hfree⟩ := hon
    contradiction
  · rw [hon.unique (goesOn_of_leads hs hstart hreach hlane hlead)]
    exact hpath.mem_iff.mp hk

/-- The first lane of a head holds its mainline and nothing else. -/
theorem lane_eq_start_iff (hs : h.Sound) (hstart : (ofHistory h compare).starts[i]? = some s) :
    (ofHistory h compare).lane n = s ↔ h.Mainline (ofHistory h compare).heads i n := by
  refine ⟨mainline_of_lane_eq hs hstart, ?_⟩
  rintro ⟨head, hhead, honward⟩
  have hboth : (ofHistory h compare).lane n = s ∧
      i ∈ h.reaching (ofHistory h compare).heads n := by
    induction honward with
    | refl =>
        obtain ⟨first, _, hfirst, hpath, _⟩ := exists_firstLane hs hstart
        obtain rfl : first = head := Option.some.inj (hfirst.symm.trans hhead)
        exact ⟨hpath.mem_iff.mp List.mem_cons_self, first, hhead, .refl⟩
    | tail _ hon ih =>
        obtain ⟨hlane, hreach⟩ := ih
        exact ⟨lane_of_goesOn hs hstart hreach hlane hon, reaching_of_parent hreach hon.isParent⟩
  exact hboth.1

end Lanes

end Lineage
