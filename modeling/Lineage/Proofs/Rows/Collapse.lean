import Lineage.Proofs.Rows.Projection
import Lineage.Rows.Collapse

/-!
# Lineage.Proofs.Rows.Collapse

Runs of plain rows.  A plain row has one row below it, so a path down from a
row of a run has to follow the run and leaves it at the row below; that row
is not plain and therefore visible.

* `Rows.run_of_runFrom` — a run that ends is one.
* `Rows.bridges_collapsed` — the row below a long run is the bridge of its
  rows.
-/

namespace Lineage

namespace Rows

variable {t : Rows} {plain : Nat → Bool} {run : List Nat} {below : Nat}

/-! ## plain rows -/

/-- A row is plain when it has one edge up and one edge down, both usual, and
is no branch head. -/
theorem isPlain_iff {isBranch : NodeId → Bool} {r : Nat} : t.isPlain isBranch r = true ↔
    (∃ u, t.upOf r = [⟨u, .usual⟩]) ∧ (∃ d, t.downOf r = [.row d .usual]) ∧
      t.keeps isBranch r = false := by
  rw [isPlain]
  constructor
  · intro h
    split at h
    · next u d hup hdown => exact ⟨⟨u, hup⟩, ⟨d, hdown⟩, by simpa using h⟩
    · contradiction
  · rintro ⟨⟨u, hup⟩, ⟨d, hdown⟩, hkeep⟩
    rw [hup, hdown]
    simp [hkeep]

/-! ## runs -/

/-- Plain rows, each the only one below the one before, down to a row that is
not plain. -/
inductive Run (t : Rows) (plain : Nat → Bool) : List Nat → Nat → Prop where
  | last {r below : Nat} : plain r = true → t.downRows r = [below] → plain below = false →
      Run t plain [r] below
  | cons {r d below : Nat} {run : List Nat} : plain r = true → t.downRows r = [d] →
      run.head? = some d → Run t plain run below → Run t plain (r :: run) below

theorem head?_runFrom (t : Rows) (plain : Nat → Bool) (r : Nat) :
    (t.runFrom plain r).1.head? = some r := by
  rw [runFrom]
  split
  · rfl
  · split
    · split
      · rfl
      · rfl
    · rfl

/-- The search down from a plain row finds a run, if it ends at a row. -/
theorem run_of_runFrom (hdown : ∀ {r}, plain r = true → ∃ d, t.downRows r = [d]) {r : Nat}
    (hr : plain r = true) (hrun : t.runFrom plain r = (run, some below)) :
    Run t plain run below := by
  fun_induction runFrom t plain r generalizing run with
  | case1 r hnil => simp at hrun
  | case2 r d ds hdowns hd hlt run' last hrest ih =>
      obtain ⟨rfl, rfl⟩ := Prod.mk.inj hrun
      obtain ⟨k, hk⟩ := hdown hr
      obtain ⟨rfl, -⟩ : d = k ∧ ds = [] := by simpa [hdowns] using hk
      have hhead := head?_runFrom t plain d
      rw [hrest] at hhead
      exact .cons hr hk hhead (ih hd hrest)
  | case3 r d ds hdowns hd hlt => simp at hrun
  | case4 r d ds hdowns hd =>
      obtain ⟨k, hk⟩ := hdown hr
      obtain ⟨rfl, -⟩ : d = k ∧ ds = [] := by simpa [hdowns] using hk
      obtain ⟨rfl, hlast⟩ := Prod.mk.inj hrun
      obtain rfl := Option.some.inj hlast
      exact .last hr hk (Bool.eq_false_iff.mpr hd)

namespace Run

theorem plain_of_mem (h : Run t plain run below) {x : Nat} (hx : x ∈ run) : plain x = true := by
  induction h with
  | last hr _ _ => exact List.mem_singleton.mp hx ▸ hr
  | cons hr _ _ _ ih =>
      rcases List.mem_cons.mp hx with rfl | hx
      · exact hr
      · exact ih hx

theorem below_not_plain (h : Run t plain run below) : plain below = false := by
  induction h with
  | last _ _ hb => exact hb
  | cons _ _ _ _ ih => exact ih

/-- The only row below a row of a run is in the run, or ends it. -/
theorem exists_downRows (h : Run t plain run below) {x : Nat} (hx : x ∈ run) :
    ∃ d, t.downRows x = [d] ∧ (d ∈ run ∨ d = below) := by
  induction h with
  | @last r below _ hdown _ => exact ⟨below, List.mem_singleton.mp hx ▸ hdown, Or.inr rfl⟩
  | @cons r d below run _ hdown hhead _ ih =>
      rcases List.mem_cons.mp hx with rfl | hx
      · exact ⟨d, hdown, Or.inl (List.mem_cons_of_mem _ (List.mem_of_head? hhead))⟩
      · obtain ⟨k, hk, hmem⟩ := ih hx
        exact ⟨k, hk, hmem.imp_left (List.mem_cons_of_mem _)⟩

/-- The run leads from each of its rows down to the row that ends it. -/
theorem via (h : Run t plain run below) {x : Nat} (hx : x ∈ run) :
    Via t.Below (· ∈ run) x below := by
  induction h generalizing x with
  | @last r below _ hdown _ =>
      obtain rfl := List.mem_singleton.mp hx
      exact .single (mem_downRows.mp (by simp [hdown]))
  | @cons r d below run _ hdown hhead _ ih =>
      rcases List.mem_cons.mp hx with rfl | hx
      · have hd := List.mem_of_head? hhead
        have hvia := (ih hd).mono id fun hy => List.mem_cons_of_mem x hy
        exact .cons (mem_downRows.mp (by simp [hdown])) (List.mem_cons_of_mem x hd) hvia
      · exact (ih hx).mono id fun hy => List.mem_cons_of_mem r hy

/-- A path from a row of a run that is hidden leaves it at the row that ends
it. -/
theorem eq_below_of_via (h : Run t plain run below) {hidden : Nat → Prop}
    (hhidden : ∀ x ∈ run, hidden x) (hbelow : ¬ hidden below) {x y : Nat} (hx : x ∈ run)
    (hy : ¬ hidden y) (hvia : Via t.Below hidden x y) : y = below := by
  induction hvia with
  | @single x y hxy =>
      obtain ⟨d, hd, hmem⟩ := h.exists_downRows hx
      obtain rfl : y = d := by simpa [hd] using mem_downRows.mpr hxy
      exact hmem.resolve_left fun hrun => hy (hhidden y hrun)
  | @cons x m y hxm hm _ ih =>
      obtain ⟨d, hd, hmem⟩ := h.exists_downRows hx
      obtain rfl : m = d := by simpa [hd] using mem_downRows.mpr hxm
      exact ih (hmem.resolve_right fun heq => hbelow (heq ▸ hm)) hy

end Run

/-! ## long runs as bridges -/

/-- Every long run is a run. -/
theorem run_of_mem_longRuns (hdown : ∀ {r}, plain r = true → ∃ d, t.downRows r = [d])
    {least : Nat} (hrun : (run, below) ∈ t.longRuns plain least) : Run t plain run below := by
  obtain ⟨start, hstart, hsome⟩ := List.mem_filterMap.mp hrun
  obtain ⟨_, hbegins⟩ := List.mem_filter.mp hstart
  have hplain : plain start = true := by
    simp only [beginsRun, Bool.and_eq_true] at hbegins
    exact hbegins.1
  split at hsome
  · next run' below' hfrom =>
      split at hsome
      · obtain ⟨rfl, rfl⟩ := Prod.mk.inj (Option.some.inj hsome)
        exact run_of_runFrom hdown hplain hfrom
      · contradiction
  · contradiction

/-- The row below each run, for all rows of runs. -/
def runBridges (t : Rows) (runs : List (List Nat × Nat)) : Array (List Nat) :=
  gather t.size <| runs.flatMap fun (run, below) => run.map (·, below)

theorem mem_runBridges {runs : List (List Nat × Nat)} {d x : Nat} :
    x ∈ (t.runBridges runs).getD d [] ↔ d < t.size ∧ ∃ run, (run, x) ∈ runs ∧ d ∈ run := by
  rw [runBridges, mem_gather_getD, List.mem_flatMap]
  refine and_congr_right fun _ => ?_
  constructor
  · rintro ⟨⟨run, below⟩, hrun, hmem⟩
    obtain ⟨y, hy, heq⟩ := List.mem_map.mp hmem
    obtain ⟨rfl, rfl⟩ := Prod.mk.inj heq
    exact ⟨run, hrun, hy⟩
  · rintro ⟨run, hrun, hd⟩
    exact ⟨(run, x), hrun, List.mem_map_of_mem hd⟩

section Bridges

variable {runs : List (List Nat × Nat)} (hruns : ∀ p ∈ runs, Run t plain p.1 p.2)
  (hplain : ∀ {r}, plain r = true → r < t.size)
include hruns hplain

/-- A row has a bridge when it is in one of the runs. -/
theorem isEmpty_runBridges {r : Nat} :
    ((t.runBridges runs).getD r []).isEmpty = false ↔ ∃ p ∈ runs, r ∈ p.1 := by
  rw [List.isEmpty_eq_false_iff_exists_mem]
  simp only [mem_runBridges]
  constructor
  · rintro ⟨y, _, run, hrun, hr⟩
    exact ⟨(run, y), hrun, hr⟩
  · rintro ⟨⟨run, y⟩, hrun, hr⟩
    exact ⟨y, hplain ((hruns _ hrun).plain_of_mem hr), run, hrun, hr⟩

/-- When the rows of some runs are hidden, the row below a run is the bridge
of its rows. -/
theorem bridges_runBridges : t.Bridges (fun r => ((t.runBridges runs).getD r []).isEmpty)
    fun r => (t.runBridges runs).getD r [] where
  mem_iff {d x} hd hhidden := by
    have hof : ∀ {r}, ((t.runBridges runs).getD r []).isEmpty = false ↔ ∃ p ∈ runs, r ∈ p.1 :=
      isEmpty_runBridges hruns hplain
    have hbelow : ∀ p ∈ runs, ¬ ((t.runBridges runs).getD p.2 []).isEmpty = false := by
      intro p hp hhidden
      obtain ⟨q, hq, hmem⟩ := hof.mp hhidden
      have hnot := (hruns p hp).below_not_plain
      rw [(hruns q hq).plain_of_mem hmem] at hnot
      contradiction
    constructor
    · intro hx
      obtain ⟨_, run, hrun, hdrun⟩ := mem_runBridges.mp hx
      refine ⟨by simpa using hbelow _ hrun, ?_⟩
      exact ((hruns _ hrun).via hdrun).mono id fun hy => hof.mpr ⟨_, hrun, hy⟩
    · rintro ⟨hxv, hvia⟩
      obtain ⟨⟨run, below⟩, hrun, hdrun⟩ := hof.mp hhidden
      have hxb : x = below := (hruns _ hrun).eq_below_of_via (fun y hy => hof.mpr ⟨_, hrun, hy⟩)
        (hbelow _ hrun) hdrun (by simpa only [Bool.not_eq_false] using hxv) hvia
      exact mem_runBridges.mpr ⟨hd, run, hxb ▸ hrun, hdrun⟩

end Bridges

/-- The rows hidden by folding. -/
def foldedRuns (t : Rows) (isBranch : NodeId → Bool) (least : Nat) : List (List Nat × Nat) :=
  let flags := ((List.range t.size).map (t.isPlain isBranch)).toArray
  t.longRuns (fun row => flags.getD row false) (max least 1)

theorem collapsed_eq_projected (t : Rows) (isBranch : NodeId → Bool) (least : Nat) :
    t.collapsed isBranch least =
      t.projected (fun row => ((t.runBridges (t.foldedRuns isBranch least)).getD row []).isEmpty)
        fun row => (t.runBridges (t.foldedRuns isBranch least)).getD row [] := rfl

/-- A plain row has one row below it. -/
theorem exists_downRows_of_flag {isBranch : NodeId → Bool} {r : Nat}
    (hr : ((List.range t.size).map (t.isPlain isBranch)).toArray.getD r false = true) :
    ∃ d, t.downRows r = [d] := by
  obtain ⟨_, ⟨d, hd⟩, _⟩ := isPlain_iff.mp ((getD_flags t.size (t.isPlain isBranch) r).mp hr).2
  exact ⟨d, by simp [downRows, hd, Down.row?]⟩

/-- The runs that are folded are runs of plain rows. -/
theorem run_of_mem_foldedRuns {isBranch : NodeId → Bool} {least : Nat}
    (hrun : (run, below) ∈ t.foldedRuns isBranch least) :
    Run t (fun row => ((List.range t.size).map (t.isPlain isBranch)).toArray.getD row false)
      run below :=
  run_of_mem_longRuns exists_downRows_of_flag hrun

/-- The bridges of folded rows are right. -/
theorem bridges_collapsed (t : Rows) (isBranch : NodeId → Bool) (least : Nat) :
    t.Bridges (fun row => ((t.runBridges (t.foldedRuns isBranch least)).getD row []).isEmpty)
      fun row => (t.runBridges (t.foldedRuns isBranch least)).getD row [] :=
  bridges_runBridges (fun _ hrun => run_of_mem_foldedRuns hrun) fun {r} hr =>
    ((getD_flags t.size (t.isPlain isBranch) r).mp hr).1

theorem consistent_collapsed (ht : t.Consistent) (isBranch : NodeId → Bool) (least : Nat) :
    (t.collapsed isBranch least).Consistent := by
  rw [collapsed_eq_projected]
  exact consistent_projected ht fun hd hhidden hx =>
    (bridges_collapsed t isBranch least).lt ht hd hhidden hx

end Rows

end Lineage
