import Lineage.Proofs.Rows.Redrawn

/-!
# Lineage.Proofs.Rows.Runs

Long runs of plain rows.  A row of a run is hidden with all of its run, so a
run is found again where fewer rows are plain, as long as the rows that are
hidden stay plain.

* `Rows.exists_longRun_of_run` — every run of plain rows that is long enough is
  inside a long run.
* `Rows.Loosens.longRuns_eq` — long runs of two layers.
* `Rows.collapsed_redrawn` — folding a layer and folding its copy.
-/

namespace Lineage

namespace Rows

variable {t t' : Rows} {plain plain' : Nat → Bool} {run : List Nat} {r below least : Nat}

/-! ## runs from their first row -/

/-- The search down from the first row of a run finds it. -/
theorem runFrom_of_run (ht : t.Consistent) (hrun : Run t plain run below)
    (hhead : run.head? = some r) : t.runFrom plain r = (run, some below) := by
  induction hrun generalizing r with
  | last hr hdown hbelow =>
      obtain rfl := Option.some.inj hhead
      rw [runFrom, hdown]
      simp [hbelow]
  | cons hr hdown hnext hrun ih =>
      obtain rfl := Option.some.inj hhead
      have hplain := hrun.plain_of_mem (List.mem_of_head? hnext)
      have hlt := ht.below_lt (mem_downRows.mp (hdown ▸ List.mem_singleton_self _))
      rw [runFrom, hdown]
      simp [hplain, hlt, ih hnext]

/-- The run that begins at a row, if it is long enough. -/
def longRunAt? (t : Rows) (plain : Nat → Bool) (least start : Nat) : Option (List Nat × Nat) :=
  if t.beginsRun plain start then
    match t.runFrom plain start with
    | (run, some below) => if least ≤ run.length then some (run, below) else none
    | (_, none) => none
  else none

theorem longRuns_eq_filterMap (t : Rows) (plain : Nat → Bool) (least : Nat) :
    t.longRuns plain least = (List.range t.size).filterMap (t.longRunAt? plain least) := by
  rw [longRuns, List.filterMap_filter]
  rfl

/-- Rows of a layer that have one row below them. -/
def OneBelow (t : Rows) (plain : Nat → Bool) : Prop :=
  ∀ {r}, plain r = true → ∃ d, t.downRows r = [d]

theorem Consistent.mem_upRows (ht : t.Consistent) {u : Nat} : u ∈ t.upRows r ↔ t.Below u r := by
  rw [upRows, List.mem_map]
  constructor
  · rintro ⟨⟨u, s⟩, he, rfl⟩
    exact ⟨s, ht.mem_upOf.mp he⟩
  · rintro ⟨s, hs⟩
    exact ⟨⟨u, s⟩, ht.mem_upOf.mpr hs, rfl⟩

theorem beginsRun_iff (ht : t.Consistent) : t.beginsRun plain r = true ↔
    plain r = true ∧ ∀ u, t.Below u r → plain u = false := by
  simp [beginsRun, ht.mem_upRows]

/-- A long run is a run of plain rows with no plain row above it. -/
theorem longRunAt?_eq_some_iff (ht : t.Consistent) (hone : t.OneBelow plain) :
    t.longRunAt? plain least r = some (run, below) ↔
      Run t plain run below ∧ run.head? = some r ∧ least ≤ run.length ∧
        ∀ u, t.Below u r → plain u = false := by
  rw [longRunAt?]
  constructor
  · intro h
    split at h
    · next hbegins =>
        obtain ⟨hr, habove⟩ := (beginsRun_iff ht).mp hbegins
        split at h
        · next run' below' hfrom =>
            split at h
            · next hle =>
                obtain ⟨rfl, rfl⟩ := Prod.mk.inj (Option.some.inj h)
                have hhead := head?_runFrom t plain r
                rw [hfrom] at hhead
                exact ⟨run_of_runFrom hone hr hfrom, hhead, hle, habove⟩
            · contradiction
        · contradiction
    · contradiction
  · rintro ⟨hrun, hhead, hle, habove⟩
    have hbegins := (beginsRun_iff ht).mpr ⟨hrun.plain_of_mem (List.mem_of_head? hhead), habove⟩
    rw [if_pos hbegins, runFrom_of_run ht hrun hhead]
    exact if_pos hle

theorem mem_longRuns (ht : t.Consistent) (hone : t.OneBelow plain) :
    (run, below) ∈ t.longRuns plain least ↔
      ∃ r, Run t plain run below ∧ run.head? = some r ∧ least ≤ run.length ∧
        ∀ u, t.Below u r → plain u = false := by
  rw [longRuns_eq_filterMap, List.mem_filterMap]
  simp only [longRunAt?_eq_some_iff ht hone, List.mem_range]
  refine exists_congr fun r => and_iff_right_of_imp fun ⟨hrun, hhead, _⟩ => ?_
  obtain ⟨d, hd, _⟩ := hrun.exists_downRows (List.mem_of_head? hhead)
  exact ht.lt_size_of_mem_downOf (mem_downRows.mp (hd ▸ List.mem_singleton_self d)).choose_spec

/-- The rows of every run of plain rows that is long enough are in a long
run. -/
theorem exists_longRun_of_run (ht : t.Consistent) (hone : t.OneBelow plain)
    (hrun : Run t plain run below) (hhead : run.head? = some r) (hle : least ≤ run.length) :
    ∃ p ∈ t.longRuns plain least, run ⊆ p.1 := by
  induction r using Nat.strongRecOn generalizing run with
  | _ r ih =>
      by_cases habove : ∃ u, t.Below u r ∧ plain u = true
      · -- the row above begins a longer run
        obtain ⟨u, hu, hplain⟩ := habove
        obtain ⟨d, hd⟩ := hone hplain
        obtain rfl : r = d := by simpa [hd] using mem_downRows.mpr hu
        obtain ⟨p, hp, hsub⟩ := ih u (ht.below_lt hu).1 (.cons hplain hd hhead hrun) rfl
          (by rw [List.length_cons]; omega)
        exact ⟨p, hp, fun x hx => hsub (List.mem_cons_of_mem u hx)⟩
      · push Not at habove
        have habove' : ∀ u, t.Below u r → plain u = false := fun u hu =>
          Bool.eq_false_iff.mpr (habove u hu)
        exact ⟨(run, below), (mem_longRuns ht hone).mpr ⟨r, hrun, hhead, hle, habove'⟩,
          List.Subset.refl run⟩

/-- Every plain row begins a run, if not a longest one. -/
theorem exists_run (ht : t.Consistent) (hone : t.OneBelow plain) {r : Nat} (hr : plain r = true) :
    ∃ run below, Run t plain run below ∧ run.head? = some r := by
  obtain ⟨d, hd⟩ := hone hr
  have hlt := ht.below_lt (mem_downRows.mp (hd ▸ List.mem_singleton_self d))
  by_cases hplain : plain d = true
  · obtain ⟨run, below, hrun, hhead⟩ := exists_run ht hone hplain
    exact ⟨r :: run, below, .cons hr hd hhead hrun, rfl⟩
  · exact ⟨[r], d, .last hr hd (Bool.eq_false_iff.mpr hplain), rfl⟩
termination_by t.size - r

/-! ## the same runs in two layers -/

/-- Two layers with the same rows below each other, the second of which has
plain rows where the first one has, and maybe more. -/
structure Loosens (t t' : Rows) (plain plain' : Nat → Bool) : Prop where
  consistent : t.Consistent
  consistent' : t'.Consistent
  size_eq : t'.size = t.size
  below_eq : t'.Below = t.Below
  plain_of : ∀ {r}, plain r = true → plain' r = true
  oneBelow : t.OneBelow plain
  oneBelow' : t'.OneBelow plain'

namespace Loosens

variable (hl : Loosens t t' plain plain')

include hl

theorem downRows_eq (hr : plain r = true) {d : Nat} :
    t'.downRows r = [d] ↔ t.downRows r = [d] := by
  obtain ⟨k, hk⟩ := hl.oneBelow hr
  obtain ⟨k', hk'⟩ := hl.oneBelow' (hl.plain_of hr)
  have hmem : k ∈ t'.downRows r := by
    rw [mem_downRows, hl.below_eq, ← mem_downRows, hk]
    exact List.mem_singleton_self k
  rw [hk', List.mem_singleton] at hmem
  rw [hk, hk', hmem]

/-- A run whose rows stay plain is a run. -/
theorem run_of_run (hrun : Run t' plain' run below) (hplain : ∀ x ∈ run, plain x = true) :
    Run t plain run below := by
  have hbelow : plain below = false := by
    have hnot := hrun.below_not_plain
    exact Bool.eq_false_iff.mpr fun h => by simp [hl.plain_of h] at hnot
  induction hrun with
  | last _ hdown _ =>
      have hr := hplain _ (List.mem_singleton_self _)
      exact .last hr ((hl.downRows_eq hr).mp hdown) hbelow
  | cons _ hdown hhead _ ih =>
      obtain ⟨hr, hrest⟩ := List.forall_mem_cons.mp hplain
      exact .cons hr ((hl.downRows_eq hr).mp hdown) hhead (ih hrest hbelow)

/-- A run goes on where the row below it is plain as well. -/
theorem exists_run_of_run (hrun : Run t plain run below) (hhead : run.head? = some r) :
    ∃ run' below', Run t' plain' run' below' ∧ run'.head? = some r ∧ run.length ≤ run'.length ∧
      (plain' below = true → below ∈ run') ∧ (plain' below = false → run' = run ∧ below' = below) := by
  induction hrun generalizing r with
  | @last x below hx hdown _ =>
      obtain rfl := Option.some.inj hhead
      have hdown' := (hl.downRows_eq hx).mpr hdown
      by_cases hbelow : plain' below = true
      · obtain ⟨run', below', hrun', hhead'⟩ := exists_run hl.consistent' hl.oneBelow' hbelow
        exact ⟨x :: run', below', .cons (hl.plain_of hx) hdown' hhead' hrun', rfl, by simp,
          fun _ => List.mem_cons_of_mem x (List.mem_of_head? hhead'), fun h => by simp_all⟩
      · exact ⟨[x], below, .last (hl.plain_of hx) hdown' (Bool.eq_false_iff.mpr hbelow), rfl,
          Nat.le_refl _, fun h => absurd h hbelow, fun _ => ⟨rfl, rfl⟩⟩
  | @cons x d below run hx hdown hnext _ ih =>
      obtain rfl := Option.some.inj hhead
      obtain ⟨run', below', hrun', hhead', hle, hmem, heq⟩ := ih hnext
      refine ⟨x :: run', below', .cons (hl.plain_of hx) ((hl.downRows_eq hx).mpr hdown) hhead' hrun',
        rfl, by simpa using hle, fun h => List.mem_cons_of_mem x (hmem h), fun h => ?_⟩
      obtain ⟨rfl, rfl⟩ := heq h
      exact ⟨rfl, rfl⟩

/-- Long runs are the same if their rows are plain in both layers. -/
theorem longRuns_eq (hhidden : ∀ p ∈ t'.longRuns plain' least, ∀ x ∈ p.1, plain x = true) :
    t'.longRuns plain' least = t.longRuns plain least := by
  have hlong : ∀ {run below r}, Run t' plain' run below → run.head? = some r →
      least ≤ run.length → ∀ x ∈ run, plain x = true := by
    intro run below r hrun hhead hle x hx
    obtain ⟨p, hp, hsub⟩ := exists_longRun_of_run hl.consistent' hl.oneBelow' hrun hhead hle
    exact hhidden p hp x (hsub hx)
  rw [longRuns_eq_filterMap, longRuns_eq_filterMap, hl.size_eq]
  refine List.filterMap_congr fun r _ => ?_
  ext ⟨run, below⟩
  rw [longRunAt?_eq_some_iff hl.consistent' hl.oneBelow',
    longRunAt?_eq_some_iff hl.consistent hl.oneBelow, hl.below_eq]
  constructor
  · rintro ⟨hrun, hhead, hle, habove⟩
    refine ⟨hl.run_of_run hrun (hlong hrun hhead hle), hhead, hle, fun u hu => ?_⟩
    have hnot := habove u hu
    exact Bool.eq_false_iff.mpr fun h => by simp [hl.plain_of h] at hnot
  · rintro ⟨hrun, hhead, hle, habove⟩
    obtain ⟨run', below', hrun', hhead', hle', hmem, heq⟩ := hl.exists_run_of_run hrun hhead
    have hbelow : plain' below = false := by
      by_contra hplain
      rw [Bool.not_eq_false] at hplain
      have hx := hlong hrun' hhead' (Nat.le_trans hle hle') below (hmem hplain)
      rw [hrun.below_not_plain] at hx
      contradiction
    obtain ⟨rfl, rfl⟩ := heq hbelow
    refine ⟨hrun', hhead, hle, fun u hu => ?_⟩
    by_contra hplain
    rw [Bool.not_eq_false] at hplain
    -- the row above would be hidden with the run, and so it is plain
    obtain ⟨d, hd⟩ := hl.oneBelow' hplain
    obtain rfl : r = d := by
      have hr : r ∈ t'.downRows u := mem_downRows.mpr (hl.below_eq ▸ hu)
      simpa [hd] using hr
    have hx := hlong (.cons hplain hd hhead hrun') rfl (by rw [List.length_cons]; omega) u
      List.mem_cons_self
    rw [habove u hu] at hx
    contradiction

end Loosens

/-! ## folding a layer and its copy -/

section Folding

variable {isBranch : NodeId → Bool}

theorem nodup_upOf_redrawn (ht : t.Consistent) (r : Nat) : (t.redrawn.upOf r).Nodup := by
  rw [List.nodup_iff_count_le_one]
  rintro ⟨u, s⟩
  rw [(consistent_redrawn ht).mirror, downOf_redrawn ht]
  exact List.nodup_iff_count_le_one.mp ((nodup_ending_mergeTargets _).of_map _) _

/-- A plain row stays plain in a copy. -/
theorem isPlain_redrawn (ht : t.Consistent) (hr : t.isPlain isBranch r = true) :
    t.redrawn.isPlain isBranch r = true := by
  obtain ⟨⟨u, hup⟩, ⟨d, hdown⟩, hkeep⟩ := isPlain_iff.mp hr
  have habove : ∀ {v s}, .row r s ∈ t.downOf v ↔ v = u ∧ s = .usual := by
    intro v s
    rw [← ht.mem_upOf, hup, List.mem_singleton, Up.mk.injEq]
  refine isPlain_iff.mpr ⟨⟨u, ?_⟩, ⟨d, ?_⟩, ?_⟩
  · rw [← List.perm_singleton, List.perm_ext_iff_of_nodup (nodup_upOf_redrawn ht r) (by simp)]
    rintro ⟨v, s⟩
    rw [mem_upOf_redrawn ht, mem_row_mergeTargets, List.mem_singleton, Up.mk.injEq]
    simp only [habove, and_true]
    constructor
    · rintro ⟨⟨_, rfl, _⟩, hs⟩
      exact ⟨rfl, hs.mpr rfl⟩
    · rintro ⟨rfl, rfl⟩
      exact ⟨⟨.usual, rfl, rfl⟩, by simp⟩
  · rw [downOf_redrawn ht, hdown]
    rfl
  · rwa [keeps, node?_redrawn, ← keeps]

/-- A row that is plain in a copy is plain where no two of its edges lead to
one row. -/
theorem isPlain_iff_of_redrawn (ht : t.Consistent)
    (husual : ∀ {r d s}, .row d s ∈ t.downOf r → s = .usual)
    (hr : t.redrawn.isPlain isBranch r = true) :
    t.isPlain isBranch r = true ↔ (t.upOf r).Nodup ∧ (t.downOf r).Nodup := by
  constructor
  · intro hplain
    obtain ⟨⟨u, hup⟩, ⟨d, hdown⟩, _⟩ := isPlain_iff.mp hplain
    simp [hup, hdown]
  · rintro ⟨hnodupUp, hnodupDown⟩
    obtain ⟨⟨u, hup⟩, ⟨d, hdown⟩, hkeep⟩ := isPlain_iff.mp hr
    refine isPlain_iff.mpr ⟨⟨u, ?_⟩, ⟨d, ?_⟩, ?_⟩
    · rw [← List.perm_singleton, List.perm_ext_iff_of_nodup hnodupUp (by simp), ← hup]
      rintro ⟨v, s⟩
      rw [mem_upOf_redrawn ht, mem_row_mergeTargets, ht.mem_upOf]
      constructor
      · intro hmem
        obtain rfl := husual hmem
        exact ⟨⟨_, hmem⟩, by simp [hmem]⟩
      · rintro ⟨⟨s', hmem⟩, hs⟩
        obtain rfl := husual hmem
        rwa [hs.mpr hmem]
    · rw [← List.perm_singleton, List.perm_ext_iff_of_nodup hnodupDown (by simp), ← hdown,
        downOf_redrawn ht]
      intro e
      cases e with
      | missing m => exact mem_missing_mergeTargets.symm
      | row x s =>
          rw [mem_row_mergeTargets]
          constructor
          · intro hmem
            obtain rfl := husual hmem
            exact ⟨⟨_, hmem⟩, by simp [hmem]⟩
          · rintro ⟨⟨s', hmem⟩, hs⟩
            obtain rfl := husual hmem
            rwa [hs.mpr hmem]
    · rwa [keeps, node?_redrawn, ← keeps] at hkeep

theorem loosens_redrawn (ht : t.Consistent) (isBranch : NodeId → Bool) :
    Loosens t t.redrawn
      (fun row => ((List.range t.size).map (t.isPlain isBranch)).toArray.getD row false)
      (fun row => ((List.range t.redrawn.size).map
        (t.redrawn.isPlain isBranch)).toArray.getD row false) where
  consistent := ht
  consistent' := consistent_redrawn ht
  size_eq := size_redrawn t
  below_eq := below_redrawn ht
  plain_of {r} hr := by
    obtain ⟨hlt, hplain⟩ := (getD_flags _ _ _).mp hr
    exact (getD_flags _ _ _).mpr ⟨by rwa [size_redrawn], isPlain_redrawn ht hplain⟩
  oneBelow hr := exists_downRows_of_flag hr
  oneBelow' hr := exists_downRows_of_flag hr

/-- A row of a folded run is hidden. -/
theorem hidden_of_mem_foldedRuns (ht : t.Consistent) (hrun : (run, below) ∈ t.foldedRuns isBranch least)
    (hr : r ∈ run) {n : Nat} (hn : t.node? r = some n) :
    ¬ (t.collapsed isBranch least).Shows n := by
  rw [collapsed_eq_projected, shows_projected]
  rintro ⟨r', hr', hempty⟩
  rw [ht.node?_inj hr' hn, List.isEmpty_iff] at hempty
  have hmem : below ∈ (t.runBridges (t.foldedRuns isBranch least)).getD r [] :=
    mem_runBridges.mpr ⟨lt_size_of_node? hn, run, hrun, hr⟩
  rw [hempty] at hmem
  contradiction

/-- Folding a layer and folding its copy come to the same if the rows hidden
in the copy are plain in the layer. -/
theorem collapsed_redrawn (ht : t.Consistent)
    (hplain : ∀ {r n}, t.node? r = some n → ¬ (t.redrawn.collapsed isBranch least).Shows n →
      t.isPlain isBranch r = true) :
    t.redrawn.collapsed isBranch least = t.collapsed isBranch least := by
  have hruns : t.redrawn.foldedRuns isBranch least = t.foldedRuns isBranch least := by
    refine (loosens_redrawn ht isBranch).longRuns_eq fun p hp x hx => ?_
    obtain ⟨hlt, _⟩ := (getD_flags _ _ _).mp ((run_of_mem_foldedRuns hp).plain_of_mem hx)
    obtain ⟨n, hn⟩ := exists_node? hlt
    have hhidden := hidden_of_mem_foldedRuns (consistent_redrawn ht) hp hx hn
    rw [node?_redrawn] at hn
    exact (getD_flags _ _ _).mpr ⟨lt_size_of_node? hn, hplain hn hhidden⟩
  have hbridges : ∀ runs, t.redrawn.runBridges runs = t.runBridges runs := fun runs => by
    rw [runBridges, runBridges, size_redrawn]
  rw [collapsed_eq_projected, collapsed_eq_projected, hruns, hbridges, projected_redrawn ht]

end Folding

end Rows

end Lineage
