import Mathlib.Data.List.Chain
import Lineage.Proofs.Rows.Condensed
import Lineage.Proofs.Rows.Runs

/-!
# Lineage.Proofs.Rows.LongestRuns

What folding hides, without the search that finds it.  A plain row has one row
above it and one below, so a run of plain rows can only be made longer at its
two ends, and of the runs that hold a plain row one is longest.

* `Rows.Plain`, `Rows.PlainRun`, `Rows.LongestRun` — the rows and runs in
  question, by the edges of the layer.
* `Rows.mem_longRuns_iff` — the longest runs are those that the search finds.
* `Rows.existsUnique_longestRun` — they part the plain rows.
* `Rows.via_hidden_iff` — a hidden run is one edge.
* `Rows.folds_collapsed` — folding hides the longest runs that are long enough.
-/

namespace Lineage

/-- An entry of a chain begins it, or follows another entry. -/
theorem head?_or_exists_rel {β : Type} {R : β → β → Prop} {xs : List β} (hxs : xs.IsChain R)
    {x : β} (hx : x ∈ xs) : xs.head? = some x ∨ ∃ y ∈ xs, R y x := by
  induction xs with
  | nil => contradiction
  | cons y ys ih =>
      rcases List.mem_cons.mp hx with rfl | hys
      · exact Or.inl rfl
      · obtain ⟨hyz, hchain⟩ := List.isChain_cons.mp hxs
        rcases ih hchain hys with hhead | ⟨z, hz, hzx⟩
        · exact Or.inr ⟨y, List.mem_cons_self, hyz x hhead⟩
        · exact Or.inr ⟨z, List.mem_cons_of_mem y hz, hzx⟩

namespace Rows

variable {t : Rows} {isBranch : NodeId → Bool} {run run' : List Nat} {r u x below least : Nat}

/-! ## plain rows and their runs -/

/-- A row with one edge toward children and one toward parents, both usual,
whose node is no branch head. -/
structure Plain (t : Rows) (isBranch : NodeId → Bool) (r : Nat) : Prop where
  up : ∃ u, t.edges r .up = [⟨u, .row r .usual⟩]
  down : ∃ d, t.edges r .down = [⟨r, .row d .usual⟩]
  node : ∀ n, t.node? r = some n → isBranch (.loaded n) = false

/-- Plain rows, each directly below the one before. -/
structure PlainRun (t : Rows) (isBranch : NodeId → Bool) (run : List Nat) : Prop where
  ne_nil : run ≠ []
  plain : ∀ {r}, r ∈ run → t.Plain isBranch r
  chain : run.IsChain t.Below

/-- A run that is no part of another one. -/
structure LongestRun (t : Rows) (isBranch : NodeId → Bool) (run : List Nat) : Prop
    extends t.PlainRun isBranch run where
  longest : ∀ {run'}, t.PlainRun isBranch run' → run <:+: run' → run' = run

/-- A longest run of as many rows as are asked for, and of one at least. -/
def HiddenRun (t : Rows) (isBranch : NodeId → Bool) (least : Nat) (run : List Nat) : Prop :=
  t.LongestRun isBranch run ∧ max least 1 ≤ run.length

/-- A row of such a run. -/
def HiddenRow (t : Rows) (isBranch : NodeId → Bool) (least : Nat) (r : Nat) : Prop :=
  ∃ run, t.HiddenRun isBranch least run ∧ r ∈ run

/-- The first row of a run is directly below `upper`, and `lower` directly
below its last one. -/
def Spans (t : Rows) (run : List Nat) (upper lower : Nat) : Prop :=
  ∃ first ∈ run.head?, ∃ last ∈ run.getLast?, t.Below upper first ∧ t.Below last lower

theorem isPlain_iff_plain : t.isPlain isBranch r = true ↔ t.Plain isBranch r := by
  have hup : ∀ u, t.edges r .up = [⟨u, .row r .usual⟩] ↔ t.upOf r = [⟨u, .usual⟩] := by
    intro u
    simp only [edges, List.map_eq_singleton_iff, Edge.mk.injEq, Down.row.injEq, true_and]
    constructor
    · rintro ⟨⟨v, s⟩, hv, rfl, rfl⟩
      exact hv
    · exact fun h => ⟨_, h, rfl, rfl⟩
  have hdown : ∀ d, t.edges r .down = [⟨r, .row d .usual⟩] ↔ t.downOf r = [.row d .usual] := by
    simp [edges, List.map_eq_singleton_iff]
  have hnode : t.keeps isBranch r = false ↔
      ∀ n, t.node? r = some n → isBranch (.loaded n) = false := by
    simp [keeps, Option.any_eq_false]
  rw [isPlain_iff, hnode]
  simp only [← hup, ← hdown]
  constructor
  · intro h
    exact { up := h.1, down := h.2.1, node := h.2.2 }
  · intro h
    exact ⟨h.up, h.down, h.node⟩

/-- The flags that folding reads. -/
def flagged (t : Rows) (isBranch : NodeId → Bool) (r : Nat) : Bool :=
  ((List.range t.size).map (t.isPlain isBranch)).toArray.getD r false

theorem oneBelow_flagged (t : Rows) (isBranch : NodeId → Bool) : t.OneBelow (t.flagged isBranch) :=
  exists_downRows_of_flag

theorem Plain.exists_downRows (hr : t.Plain isBranch r) : ∃ d, t.downRows r = [d] := by
  obtain ⟨_, ⟨d, hd⟩, _⟩ := isPlain_iff.mp (isPlain_iff_plain.mpr hr)
  exact ⟨d, by simp [downRows, hd, Down.row?]⟩

section Consistent

variable (ht : t.Consistent)
include ht

/-- One row is above a plain row. -/
theorem Plain.exists_above (hr : t.Plain isBranch r) : ∃ u, ∀ v, t.Below v r ↔ v = u := by
  obtain ⟨⟨u, hu⟩, _⟩ := isPlain_iff.mp (isPlain_iff_plain.mpr hr)
  exact ⟨u, fun v => by rw [← ht.mem_upRows, upRows, hu, List.map_singleton, List.mem_singleton]⟩

theorem Plain.eq_of_below (hr : t.Plain isBranch r) (hu : t.Below u r) (hx : t.Below x r) :
    u = x := by
  obtain ⟨v, hv⟩ := hr.exists_above ht
  rw [(hv u).mp hu, (hv x).mp hx]

theorem flagged_iff : t.flagged isBranch r = true ↔ t.Plain isBranch r := by
  rw [flagged, getD_flags, isPlain_iff_plain]
  refine and_iff_right_of_imp fun hr => ?_
  obtain ⟨d, hd⟩ := hr.exists_downRows
  obtain ⟨hlt, hsize⟩ := ht.below_lt (mem_downRows.mp (hd ▸ List.mem_singleton_self d))
  exact hlt.trans hsize

theorem flagged_eq_false_iff : t.flagged isBranch r = false ↔ ¬ t.Plain isBranch r := by
  rw [← flagged_iff ht, Bool.not_eq_true]

/-! ## runs and the search for them -/

omit ht in
theorem Run.isChain {plain : Nat → Bool} (h : Run t plain run below) : run.IsChain t.Below := by
  induction h with
  | last _ _ _ => exact List.isChain_singleton _
  | cons _ hdown hhead _ ih =>
      refine ih.cons fun y hy => ?_
      obtain rfl := Option.some.inj (hhead.symm.trans hy)
      exact mem_downRows.mp (by simp [hdown])

omit ht in
/-- The row that ends a run is the only one below its last row. -/
theorem Run.exists_last {plain : Nat → Bool} (h : Run t plain run below) :
    ∃ last, run.getLast? = some last ∧ ∀ x, t.Below last x ↔ x = below := by
  induction h with
  | @last r below _ hdown _ =>
      exact ⟨r, rfl, fun x => by rw [← mem_downRows, hdown, List.mem_singleton]⟩
  | cons _ _ _ _ ih =>
      obtain ⟨last, hlast, hbelow⟩ := ih
      exact ⟨last, by simp [List.getLast?_cons, hlast], hbelow⟩

theorem plainRun_of_run (h : Run t (t.flagged isBranch) run below) : t.PlainRun isBranch run where
  ne_nil := by cases h <;> simp
  plain hr := (flagged_iff ht).mp (h.plain_of_mem hr)
  chain := h.isChain

/-- A run of plain rows goes on down to a row that is not plain. -/
theorem PlainRun.exists_run (h : t.PlainRun isBranch run) :
    ∃ rest below, Run t (t.flagged isBranch) (run ++ rest) below := by
  induction run with
  | nil => exact absurd rfl h.ne_nil
  | cons r run ih =>
      have hr := (flagged_iff ht).mpr (h.plain List.mem_cons_self)
      cases run with
      | nil =>
          obtain ⟨run', below, hrun, hhead⟩ := Rows.exists_run ht (oneBelow_flagged t isBranch) hr
          obtain ⟨rest, rfl⟩ := List.head?_eq_some_iff.mp hhead
          exact ⟨rest, below, hrun⟩
      | cons d run =>
          obtain ⟨hrd, hchain⟩ := List.isChain_cons.mp h.chain
          obtain ⟨rest, below, hrun⟩ := ih
            { ne_nil := List.cons_ne_nil d run
              plain := fun hx => h.plain (List.mem_cons_of_mem r hx)
              chain := hchain }
          obtain ⟨k, hk⟩ := (h.plain List.mem_cons_self).exists_downRows
          obtain rfl : d = k := by simpa [hk] using mem_downRows.mpr (hrd d rfl)
          exact ⟨rest, below, .cons hr hk rfl hrun⟩

/-- A longest run has no plain row above its first one, and goes down to a row
that is not plain. -/
theorem LongestRun.exists_run (h : t.LongestRun isBranch run) :
    ∃ r below, Run t (t.flagged isBranch) run below ∧ run.head? = some r ∧
      ∀ u, t.Below u r → t.flagged isBranch u = false := by
  obtain ⟨rest, below, hrun⟩ := h.toPlainRun.exists_run ht
  have hrest := h.longest (plainRun_of_run ht hrun) (List.prefix_append run rest).isInfix
  rw [hrest] at hrun
  obtain ⟨r, hhead⟩ := Option.ne_none_iff_exists'.mp (mt List.head?_eq_none_iff.mp h.ne_nil)
  refine ⟨r, below, hrun, hhead, fun u hu => (flagged_eq_false_iff ht).mpr fun hplain => ?_⟩
  -- a plain row above would make the run longer
  have hlonger : t.PlainRun isBranch (u :: run) :=
    { ne_nil := List.cons_ne_nil u run
      plain := fun hx => (List.mem_cons.mp hx).elim (fun heq => heq ▸ hplain) fun hx => h.plain hx
      chain := h.chain.cons fun y hy => Option.some.inj (hhead.symm.trans hy) ▸ hu }
  simpa using congrArg List.length (h.longest hlonger (List.suffix_cons u run).isInfix)

theorem longestRun_of_run (hrun : Run t (t.flagged isBranch) run below) (hhead : run.head? = some r)
    (habove : ∀ u, t.Below u r → t.flagged isBranch u = false) : t.LongestRun isBranch run := by
  refine { plainRun_of_run ht hrun with longest := ?_ }
  rintro run' h ⟨before, after, rfl⟩
  have hafter : after = [] := by
    cases after with
    | nil => rfl
    | cons x after =>
        obtain ⟨last, hlast, hbelow⟩ := hrun.exists_last
        have hx := (List.isChain_append.mp h.chain).2.2 last
          (by simp [List.getLast?_append, hlast]) x rfl
        have hplain := (flagged_iff ht).mpr (h.plain (r := x) (by simp))
        rw [(hbelow x).mp hx, hrun.below_not_plain] at hplain
        contradiction
  have hbefore : before = [] := by
    rcases List.eq_nil_or_concat before with rfl | ⟨before, u, rfl⟩
    · rfl
    · rw [List.append_assoc] at h
      have hu := (List.isChain_append.mp h.chain).2.2 u (by simp) r (by simp [hhead])
      have hplain := (flagged_iff ht).mpr (h.plain (r := u) (by simp))
      rw [habove u hu] at hplain
      contradiction
  simp [hbefore, hafter]

/-- The search finds the longest runs. -/
theorem mem_longRuns_iff : (∃ below, (run, below) ∈ t.longRuns (t.flagged isBranch) least) ↔
    t.LongestRun isBranch run ∧ least ≤ run.length := by
  simp only [mem_longRuns ht (oneBelow_flagged t isBranch)]
  constructor
  · rintro ⟨below, r, hrun, hhead, hle, habove⟩
    exact ⟨longestRun_of_run ht hrun hhead habove, hle⟩
  · rintro ⟨hlongest, hle⟩
    obtain ⟨r, below, hrun, hhead, habove⟩ := hlongest.exists_run ht
    exact ⟨below, r, hrun, hhead, hle, habove⟩

/-! ## one longest run for each plain row -/

/-- Longest runs that share a row begin at the same one: the row above it is
in both of them or in none. -/
theorem LongestRun.head?_eq (h : t.LongestRun isBranch run) (h' : t.LongestRun isBranch run')
    (hr : r ∈ run) (hr' : r ∈ run') : run.head? = run'.head? := by
  obtain ⟨first, _, _, hfirst, habove⟩ := h.exists_run ht
  obtain ⟨first', _, _, hfirst', habove'⟩ := h'.exists_run ht
  induction r using Nat.strongRecOn with
  | _ r ih =>
      rcases head?_or_exists_rel h.chain hr with hhead | ⟨u, hu, hur⟩ <;>
        rcases head?_or_exists_rel h'.chain hr' with hhead' | ⟨v, hv, hvr⟩
      · rw [hhead, hhead']
      · obtain rfl := Option.some.inj (hfirst.symm.trans hhead)
        exact absurd (h'.plain hv) ((flagged_eq_false_iff ht).mp (habove v hvr))
      · obtain rfl := Option.some.inj (hfirst'.symm.trans hhead')
        exact absurd (h.plain hu) ((flagged_eq_false_iff ht).mp (habove' u hur))
      · obtain rfl := (h.plain hr).eq_of_below ht hur hvr
        exact ih u (ht.below_lt hur).1 hu hv

theorem LongestRun.eq_of_mem (h : t.LongestRun isBranch run) (h' : t.LongestRun isBranch run')
    (hr : r ∈ run) (hr' : r ∈ run') : run = run' := by
  have hheads := h.head?_eq ht h' hr hr'
  obtain ⟨first, below, hrun, hfirst, _⟩ := h.exists_run ht
  obtain ⟨first', below', hrun', hfirst', _⟩ := h'.exists_run ht
  have hfrom := runFrom_of_run ht hrun hfirst
  rw [runFrom_of_run ht hrun' (hheads ▸ hfirst)] at hfrom
  exact (Prod.mk.inj hfrom).1.symm

/-- Every plain row is in exactly one longest run. -/
theorem existsUnique_longestRun (hr : t.Plain isBranch r) :
    ∃! run, t.LongestRun isBranch run ∧ r ∈ run := by
  obtain ⟨run, below, hrun, hhead⟩ := Rows.exists_run ht (oneBelow_flagged t isBranch) ((flagged_iff ht).mpr hr)
  obtain ⟨⟨long, below'⟩, hlong, hsub⟩ :=
    exists_longRun_of_run ht (oneBelow_flagged t isBranch) hrun hhead (Nat.zero_le _)
  have hlongest := ((mem_longRuns_iff ht).mp ⟨below', hlong⟩).1
  have hmem : r ∈ long := hsub (List.mem_of_head? hhead)
  exact ⟨long, ⟨hlongest, hmem⟩, fun run' ⟨h', hr'⟩ => h'.eq_of_mem ht hlongest hr' hmem⟩

/-! ## hidden runs -/

omit ht in
theorem HiddenRow.plain (h : t.HiddenRow isBranch least r) : t.Plain isBranch r := by
  obtain ⟨run, hrun, hr⟩ := h
  exact hrun.1.plain hr

/-- Folding leaves out the rows of hidden runs. -/
theorem hiddenRow_iff : ((t.runBridges (t.foldedRuns isBranch least)).getD r []).isEmpty = false ↔
    t.HiddenRow isBranch least r := by
  have hlt : ∀ {r}, t.flagged isBranch r = true → r < t.size := fun hr =>
    ((getD_flags _ _ _).mp hr).1
  rw [isEmpty_runBridges (fun _ hrun => run_of_mem_foldedRuns hrun) hlt]
  constructor
  · rintro ⟨⟨run, below⟩, hrun, hr⟩
    exact ⟨run, (mem_longRuns_iff ht).mp ⟨below, hrun⟩, hr⟩
  · rintro ⟨run, hrun, hr⟩
    obtain ⟨below, hmem⟩ := (mem_longRuns_iff ht).mpr hrun
    exact ⟨(run, below), hmem, hr⟩

/-- A hidden run has one row above it and one below it, and both are shown. -/
theorem HiddenRun.exists_spans (h : t.HiddenRun isBranch least run) :
    ∃ upper lower, ¬ t.HiddenRow isBranch least upper ∧ ¬ t.HiddenRow isBranch least lower ∧
      ∀ {u x}, t.Spans run u x ↔ u = upper ∧ x = lower := by
  obtain ⟨first, lower, hrun, hfirst, habove⟩ := h.1.exists_run ht
  obtain ⟨last, hlast, hlower⟩ := hrun.exists_last
  obtain ⟨upper, hupper⟩ := (h.1.plain (List.mem_of_head? hfirst)).exists_above ht
  refine ⟨upper, lower, fun hhidden => ?_, fun hhidden => ?_, fun {u x} => ?_⟩
  · exact (flagged_eq_false_iff ht).mp (habove upper ((hupper upper).mpr rfl)) hhidden.plain
  · exact (flagged_eq_false_iff ht).mp hrun.below_not_plain hhidden.plain
  · simp [Spans, hfirst, hlast, hupper, hlower]

/-- A path through hidden rows follows one hidden run, which it enters at the
first row and leaves at the last. -/
theorem via_hidden_iff (hr : ¬ t.HiddenRow isBranch least r) (hx : ¬ t.HiddenRow isBranch least x) :
    Via t.Below (t.HiddenRow isBranch least) r x ↔
      t.Below r x ∨ ∃ run, t.HiddenRun isBranch least run ∧ t.Spans run r x := by
  constructor
  · intro hvia
    cases hvia with
    | single hrx => exact Or.inl hrx
    | @cons _ d _ hrd hd hvia =>
        obtain ⟨run, hhidden, hmem⟩ := hd
        obtain ⟨_, lower, hrun, _, _⟩ := hhidden.1.exists_run ht
        obtain ⟨last, hlast, hlower⟩ := hrun.exists_last
        have hfirst : run.head? = some d := by
          rcases head?_or_exists_rel hhidden.1.chain hmem with hhead | ⟨u, hu, hud⟩
          · exact hhead
          · obtain rfl := (hhidden.1.plain hmem).eq_of_below ht hrd hud
            exact absurd ⟨run, hhidden, hu⟩ hr
        have hxlower : x = lower :=
          hrun.eq_below_of_via (fun y hy => ⟨run, hhidden, hy⟩)
            (fun h => (flagged_eq_false_iff ht).mp hrun.below_not_plain h.plain) hmem hx hvia
        exact Or.inr ⟨run, hhidden, d, hfirst, last, hlast, hrd, (hlower x).mpr hxlower⟩
  · rintro (hrx | ⟨run, hhidden, first, hfirst, last, hlast, hrf, hlx⟩)
    · exact .single hrx
    · obtain ⟨_, lower, hrun, _, _⟩ := hhidden.1.exists_run ht
      obtain ⟨last', hlast', hlower⟩ := hrun.exists_last
      obtain rfl := Option.some.inj (hlast'.symm.trans hlast)
      have hmem := List.mem_of_head? hfirst
      have hvia := (hrun.via hmem).mono id fun hy => (⟨run, hhidden, hy⟩ : HiddenRow _ _ _ _)
      rw [← (hlower x).mp hlx] at hvia
      exact .cons hrf ⟨run, hhidden, hmem⟩ hvia

end Consistent

/-! ## folding -/

/-- The layer `t'` is `t` with its longest runs of `least` rows or more hidden.
Every plain row is in one longest run.  Each hidden run is between two rows that
are shown, and is drawn as an edge between them; all edges from one row to
another are one. -/
structure Folds (t' t : Rows) (isBranch : NodeId → Bool) (least : Nat) : Prop where
  longest : ∀ {r}, t.Plain isBranch r → ∃! run, t.LongestRun isBranch run ∧ r ∈ run
  spans : ∀ {run}, t.HiddenRun isBranch least run →
    ∃ upper lower, ¬ t.HiddenRow isBranch least upper ∧ ¬ t.HiddenRow isBranch least lower ∧
      ∀ {u x}, t.Spans run u x ↔ u = upper ∧ x = lower
  condenses : ∃ shown, t'.Condenses t (t.HiddenRow isBranch least)
    (fun r x => t.Below r x ∨ ∃ run, t.HiddenRun isBranch least run ∧ t.Spans run r x) shown

theorem folds_collapsed (ht : t.Consistent) (isBranch : NodeId → Bool) (least : Nat) :
    (t.collapsed isBranch least).Folds t isBranch least where
  longest hr := existsUnique_longestRun ht hr
  spans h := h.exists_spans ht
  condenses := by
    have hcondenses := condenses_projected ht (bridges_collapsed t isBranch least)
    rw [← collapsed_eq_projected] at hcondenses
    simp only [hiddenRow_iff ht] at hcondenses
    exact ⟨_, hcondenses.congr (fun _ => Iff.rfl) fun _ hr hx => via_hidden_iff ht hr hx⟩

end Rows

end Lineage
