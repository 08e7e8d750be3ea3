import Lineage.Proofs.Loops
import Lineage.Proofs.Rows.Search
import Lineage.Proofs.Stack.Hiding

/-!
# Lineage.Proofs.Descents

The searches for runs and bubbles as loops that follow edges down, with nothing
else to stop them: a side of a bubble may have any number of rows.  The rows of a
consistent layer stop them, since every turn starts further down, and they come to
what the searches answer.

* `Rows.runTurn`, `Rows.chainTurn`, `Rows.pathTurn`, `Rows.markTurn` — the turns
  of the loops.
* `Rows.Consistent.exists_endsWithin` — a loop that goes down ends.
* `Rows.SearchesEnd`, `Stack.searchesEnd_rows` — the searches in any stack.
-/

namespace Lineage

namespace Rows

variable {t : Rows}

/-- A loop ends if every turn leads to a row directly below, with as many turns as
there are rows at most. -/
theorem Consistent.exists_endsWithin (ht : t.Consistent) {σ ρ : Type} {turn : σ → Turn σ ρ}
    (row : σ → Nat) (inv : σ → Prop)
    (hagain : ∀ {a b}, inv a → turn a = .again b → inv b ∧ t.Below (row a) (row b)) {a : σ}
    (ha : inv a) (hrow : row a < t.size) :
    ∃ states r, EndsWithin turn row t.size a states r ∧ ∀ b ∈ states, inv b := by
  have hstep : ∀ {a b}, inv a ∧ row a < t.size → turn a = .again b →
      (inv b ∧ row b < t.size) ∧ row a < row b := by
    intro a b ⟨ha, _⟩ hturn
    obtain ⟨hb, hbelow⟩ := hagain ha hturn
    exact ⟨⟨hb, (ht.below_lt hbelow).2⟩, (ht.below_lt hbelow).1⟩
  obtain ⟨states, r, hends, hall⟩ := Lineage.exists_endsWithin And.right hstep ⟨ha, hrow⟩
  exact ⟨states, r, hends, fun b hb => (hall b hb).1⟩

/-! ## runs -/

/-- At a row of a run: on to the row below it while that is plain.  The loop ends
with the first row that is not, or with none if there is no row below. -/
def runTurn (t : Rows) (plain : Nat → Bool) (row : Nat) : Turn Nat (Option Nat) :=
  match t.downRows row with
  | [] => .finished none
  | below :: _ => if plain below then .again below else .finished (some below)

theorem runTurn_eq_again {plain : Nat → Bool} {r x : Nat} (h : t.runTurn plain r = .again x) :
    (∃ rest, t.downRows r = x :: rest) ∧ plain x = true := by
  rw [runTurn] at h
  split at h
  · contradiction
  · next below rest hdown =>
      split at h
      · next hplain => cases h; exact ⟨⟨rest, hdown⟩, hplain⟩
      · contradiction

theorem below_of_downRows {r x : Nat} {rest : List Nat} (h : t.downRows r = x :: rest) :
    t.Below r x :=
  mem_downRows.mp (h ▸ List.mem_cons_self)

/-- The rows that the loop passes are the run that the search answers. -/
theorem runFrom_of_runsTo (ht : t.Consistent) {plain : Nat → Bool} {r : Nat} {rows : List Nat}
    {last : Option Nat} (h : RunsTo (t.runTurn plain) r rows last) :
    t.runFrom plain r = (rows, last) := by
  induction h with
  | @finished r last hfinished =>
      rw [runTurn] at hfinished
      split at hfinished
      · next hdown => cases hfinished; rw [runFrom, hdown]
      · next below rest hdown =>
          split at hfinished
          · contradiction
          · next hplain => cases hfinished; rw [runFrom, hdown]; simp only [if_neg hplain]
  | @again r x rows last hagain _ ih =>
      obtain ⟨⟨rest, hdown⟩, hplain⟩ := runTurn_eq_again hagain
      have hlt := ht.below_lt (below_of_downRows hdown)
      rw [runFrom]
      simp only [hdown, hplain, if_true, if_pos hlt, ih]

/-- From a plain row the loop comes to a row that is not. -/
theorem Plain.exists_of_finished (ht : t.Consistent) {isBranch : NodeId → Bool} {r : Nat}
    {last : Option Nat} (hr : t.Plain isBranch r)
    (hfinished : t.runTurn (t.flagged isBranch) r = .finished last) :
    ∃ below, last = some below ∧ t.Below r below ∧ ¬ t.Plain isBranch below := by
  obtain ⟨d, hd⟩ := hr.exists_downRows
  rw [runTurn, hd] at hfinished
  dsimp only at hfinished
  split at hfinished
  · contradiction
  · next hplain =>
      cases hfinished
      exact ⟨d, rfl, below_of_downRows hd, mt (flagged_iff ht).mpr hplain⟩

/-! ## sides of bubbles -/

/-- At a row of a chain, with the rows of the chain that are above it: on to its
only parent until that has several edges up. -/
def chainTurn (t : Rows) (used : Marks) (most : Nat) :
    Nat × List Nat → Turn (Nat × List Nat) (Option (List Nat × Nat))
  | (row, chain) =>
    if t.isInner used row && chain.length < most then
      match t.onlyParent? row with
      | none => .finished none
      | some below =>
        if 2 ≤ (t.upOf below).length then .finished (some (chain ++ [row], below))
        else .again (below, chain ++ [row])
    else .finished none

/-- At a row of a path, with the rows of the path that are above it: on to its only
parent until that is the base. -/
def pathTurn (t : Rows) (used : Marks) (base most : Nat) :
    Nat × List Nat → Turn (Nat × List Nat) (Option (List Nat))
  | (row, path) =>
    if row = base then .finished (some path)
    else if t.isInner used row && path.length < most then
      match t.onlyParent? row with
      | none => .finished none
      | some below => .again (below, path ++ [row])
    else .finished none

/-- At a row of the path of a bubble that has been found: marked, and on to its only
parent until that is the base.  The loop ends with the marks, and with whether it
reached the base. -/
def markTurn (t : Rows) (base : Nat) : Nat × Marks → Turn (Nat × Marks) (Bool × Marks)
  | (row, used) =>
    if row = base then .finished (true, used)
    else
      match t.onlyParent? row with
      | none => .finished (false, used.mark row)
      | some below => .again (below, used.mark row)

section Turns

variable {used : Marks} {base most : Nat}

theorem chainTurn_eq_again {a b : Nat × List Nat} (h : t.chainTurn used most a = .again b) :
    t.isInner used a.1 = true ∧ a.2.length < most ∧ t.onlyParent? a.1 = some b.1 ∧
      (t.upOf b.1).length < 2 ∧ b.2 = a.2 ++ [a.1] := by
  obtain ⟨row, chain⟩ := a
  rw [chainTurn] at h
  split at h
  · next hinner =>
      simp only [Bool.and_eq_true, decide_eq_true_eq] at hinner
      split at h
      · contradiction
      · next below hbelow =>
          split at h
          · contradiction
          · next hup => cases h; exact ⟨hinner.1, hinner.2, hbelow, Nat.not_le.mp hup, rfl⟩
  · contradiction

theorem pathTurn_eq_again {a b : Nat × List Nat} (h : t.pathTurn used base most a = .again b) :
    a.1 ≠ base ∧ t.isInner used a.1 = true ∧ a.2.length < most ∧ t.onlyParent? a.1 = some b.1 ∧
      b.2 = a.2 ++ [a.1] := by
  obtain ⟨row, path⟩ := a
  rw [pathTurn] at h
  split at h
  · contradiction
  · next hne =>
      split at h
      · next hinner =>
          simp only [Bool.and_eq_true, decide_eq_true_eq] at hinner
          split at h
          · contradiction
          · next below hbelow => cases h; exact ⟨hne, hinner.1, hinner.2, hbelow, rfl⟩
      · contradiction

theorem markTurn_eq_again {a b : Nat × Marks} (h : t.markTurn base a = .again b) :
    a.1 ≠ base ∧ t.onlyParent? a.1 = some b.1 ∧ b.2 = a.2.mark a.1 := by
  obtain ⟨row, used⟩ := a
  rw [markTurn] at h
  split at h
  · contradiction
  · next hne =>
      split at h
      · contradiction
      · next below hbelow => cases h; exact ⟨hne, hbelow, rfl⟩

theorem sub_length_concat (most : Nat) (rows : List Nat) (row : Nat) :
    most - (rows ++ [row]).length = most - rows.length - 1 := by
  rw [List.length_append, List.length_singleton, Nat.sub_add_eq]

/-- The loop comes to what the search answers: as much of the chain as it has, and
the search for the rest of it. -/
theorem chainFrom?_of_runsTo (ht : t.Consistent) {a : Nat × List Nat}
    {states : List (Nat × List Nat)} {r : Option (List Nat × Nat)}
    (h : RunsTo (t.chainTurn used most) a states r) :
    r = (t.chainFrom? used (most - a.2.length) a.1).map fun p => (a.2 ++ p.1, p.2) := by
  induction h with
  | @finished a r hfinished =>
      obtain ⟨row, chain⟩ := a
      rw [chainTurn] at hfinished
      split at hfinished
      · next hinner =>
          split at hfinished
          · next hnone =>
              cases hfinished
              rw [chainFrom?]
              simp only [Nat.sub_pos_iff_lt, if_pos hinner, hnone, Option.map_none]
          · next below hbelow =>
              split at hfinished
              · next hup =>
                  cases hfinished
                  rw [chainFrom?]
                  simp only [Nat.sub_pos_iff_lt, if_pos hinner, hbelow, if_pos hup, Option.map_some]
              · contradiction
      · next hinner =>
          cases hfinished
          rw [chainFrom?]
          simp only [Nat.sub_pos_iff_lt, if_neg hinner, Option.map_none]
  | @again a b states r hagain _ ih =>
      obtain ⟨hinner, hlen, hbelow, hup, hchain⟩ := chainTurn_eq_again hagain
      rw [ih, hchain, sub_length_concat,
        chainFrom?_of_inner ht hinner (Nat.sub_pos_of_lt hlen) hbelow hup, Option.map_map]
      simp only [Function.comp_def, List.append_assoc, List.singleton_append]

/-- The loop comes to what the search answers. -/
theorem pathTo?_of_runsTo (ht : t.Consistent) {a : Nat × List Nat}
    {states : List (Nat × List Nat)} {r : Option (List Nat)}
    (h : RunsTo (t.pathTurn used base most) a states r) :
    r = (t.pathTo? used base (most - a.2.length) a.1).map (a.2 ++ ·) := by
  induction h with
  | @finished a r hfinished =>
      obtain ⟨row, path⟩ := a
      rw [pathTurn] at hfinished
      split at hfinished
      · next hbase => cases hfinished; rw [pathTo?, if_pos hbase, Option.map_some, List.append_nil]
      · next hne =>
          split at hfinished
          · next hinner =>
              split at hfinished
              · next hnone =>
                  cases hfinished
                  rw [pathTo?, if_neg hne]
                  simp only [Nat.sub_pos_iff_lt, if_pos hinner, hnone, Option.map_none]
              · contradiction
          · next hinner =>
              cases hfinished
              rw [pathTo?, if_neg hne]
              simp only [Nat.sub_pos_iff_lt, if_neg hinner, Option.map_none]
  | @again a b states r hagain _ ih =>
      obtain ⟨hne, hinner, hlen, hbelow, hpath⟩ := pathTurn_eq_again hagain
      rw [ih, hpath, sub_length_concat,
        pathTo?_of_inner ht hne hinner (Nat.sub_pos_of_lt hlen) hbelow, Option.map_map]
      simp only [Function.comp_def, List.append_assoc, List.singleton_append]

/-- Along the path of a bubble the loop reaches the base, and marks the path. -/
theorem markAll_of_runsTo {a : Nat × Marks} {states : List (Nat × Marks)} {r : Bool × Marks}
    (h : RunsTo (t.markTurn base) a states r) {path : List Nat} (hl : t.Line a.1 path base)
    (hbase : base ∉ path) : r = (true, a.2.markAll path) := by
  induction h generalizing path with
  | @finished a r hfinished =>
      obtain ⟨row, used⟩ := a
      rw [markTurn] at hfinished
      cases hl with
      | nil => rw [if_pos rfl] at hfinished; cases hfinished; rfl
      | cons _ hdown _ =>
          have hne : row ≠ base := fun heq => hbase (heq ▸ List.mem_cons_self)
          rw [if_neg hne, hdown] at hfinished
          contradiction
  | @again a b states r hagain _ ih =>
      obtain ⟨row, used⟩ := a
      obtain ⟨below, used'⟩ := b
      obtain ⟨hne, hbelow, rfl⟩ := markTurn_eq_again hagain
      cases hl with
      | nil => contradiction
      | cons _ hdown hl =>
          obtain rfl := Option.some.inj (hbelow.symm.trans hdown)
          exact ih hl fun hmem => hbase (List.mem_cons_of_mem row hmem)

/-! ## their ends -/

/-- A loop whose turns lead from a row to its only parent ends. -/
theorem Consistent.exists_endsWithin_onlyParent? (ht : t.Consistent) {σ ρ : Type}
    {turn : Nat × σ → Turn (Nat × σ) ρ}
    (hagain : ∀ {a b}, turn a = .again b → t.onlyParent? a.1 = some b.1) {row : Nat}
    (hrow : row < t.size) (state : σ) :
    ∃ states r, EndsWithin turn Prod.fst t.size (row, state) states r := by
  obtain ⟨states, r, hends, _⟩ := ht.exists_endsWithin (a := (row, state)) Prod.fst (fun _ => True)
    (fun _ h => ⟨trivial, below_of_onlyParent? (hagain h)⟩) trivial hrow
  exact ⟨states, r, hends⟩

theorem Consistent.exists_chain (ht : t.Consistent) (used : Marks) (most : Nat) {row : Nat}
    (hrow : row < t.size) : ∃ states, EndsWithin (t.chainTurn used most) Prod.fst t.size (row, [])
      states (t.chainFrom? used most row) := by
  obtain ⟨states, r, hends⟩ :=
    ht.exists_endsWithin_onlyParent? (fun h => (chainTurn_eq_again h).2.2.1) hrow []
  obtain rfl := chainFrom?_of_runsTo ht hends.runsTo
  exact ⟨states, by simpa using hends⟩

theorem Consistent.exists_path (ht : t.Consistent) (used : Marks) (base most : Nat) {row : Nat}
    (hrow : row < t.size) : ∃ states, EndsWithin (t.pathTurn used base most) Prod.fst t.size
      (row, []) states (t.pathTo? used base most row) := by
  obtain ⟨states, r, hends⟩ :=
    ht.exists_endsWithin_onlyParent? (fun h => (pathTurn_eq_again h).2.2.2.1) hrow []
  obtain rfl := pathTo?_of_runsTo ht hends.runsTo
  exact ⟨states, by simpa using hends⟩

theorem Consistent.exists_mark (ht : t.Consistent) (used : Marks) {row : Nat} {path : List Nat}
    (hl : t.Line row path base) (hbase : base ∉ path) (hrow : row < t.size) :
    ∃ states, EndsWithin (t.markTurn base) Prod.fst t.size (row, used) states
      (true, used.markAll path) := by
  obtain ⟨states, r, hends⟩ :=
    ht.exists_endsWithin_onlyParent? (fun h => (markTurn_eq_again h).2.1) hrow used
  obtain rfl := markAll_of_runsTo hends.runsTo hl hbase
  exact ⟨states, hends⟩

end Turns

/-! ## all searches -/

/-- The searches of a layer as loops.  The rows at which their turns start ascend,
so there are no more turns than rows. -/
structure SearchesEnd (t : Rows) : Prop where
  /-- From any row, the loop along a run comes to the run that folding reads; from a
  plain row, it comes to a row below that is not plain. -/
  run : ∀ isBranch start, start < t.size → ∃ rows last,
    EndsWithin (t.runTurn (t.flagged isBranch)) id t.size start rows last ∧
      t.runFrom (t.flagged isBranch) start = (rows, last) ∧
        (t.Plain isBranch start →
          ∃ below, last = some below ∧ below < t.size ∧ ¬ t.Plain isBranch below)
  /-- From the second parent of a merge, the loop along the chain comes to what the
  search for it answers. -/
  chain : ∀ used most merge first second, t.downOf merge = [.row first .usual, .row second .usual] →
    ∃ states, EndsWithin (t.chainTurn used most) Prod.fst t.size (second, []) states
      (t.chainFrom? used most second)
  /-- So does from its first parent the loop along the path, toward any base. -/
  path : ∀ used most merge first second base,
    t.downOf merge = [.row first .usual, .row second .usual] →
      ∃ states, EndsWithin (t.pathTurn used base most) Prod.fst t.size (first, []) states
        (t.pathTo? used base most first)
  /-- Where a bubble is found, the loop that marks its path reaches the base, and then
  all its rows are marked. -/
  mark : ∀ used most merge b, t.bubbleAt? used most merge = some b →
    ∃ states, EndsWithin (t.markTurn b.base) Prod.fst t.size
      (b.firstParent, used.markAll (b.merge :: b.chain)) states (true, used.markAll b.rows)

theorem Consistent.searchesEnd (ht : t.Consistent) : t.SearchesEnd where
  run isBranch start hstart := by
    have hagain : ∀ {r x}, (t.Plain isBranch start → t.Plain isBranch r) →
        t.runTurn (t.flagged isBranch) r = .again x →
          (t.Plain isBranch start → t.Plain isBranch x) ∧ t.Below r x := by
      intro r x _ hturn
      obtain ⟨⟨_, hdown⟩, hplain⟩ := runTurn_eq_again hturn
      exact ⟨fun _ => (flagged_iff ht).mp hplain, below_of_downRows hdown⟩
    obtain ⟨rows, last, hends, hall⟩ := ht.exists_endsWithin id _ hagain id hstart
    refine ⟨rows, last, hends, runFrom_of_runsTo ht hends.runsTo, fun hplain => ?_⟩
    obtain ⟨r, hr, hfinished⟩ := hends.runsTo.exists_finished
    obtain ⟨below, hlast, hbelow, hnot⟩ := (hall r hr hplain).exists_of_finished ht hfinished
    exact ⟨below, hlast, (ht.below_lt hbelow).2, hnot⟩
  chain used most merge first second hdown := by
    have hsecond : .row second .usual ∈ t.downOf merge := by simp [hdown]
    exact ht.exists_chain used most (ht.below hsecond).2
  path used most merge first second base hdown := by
    have hfirst : .row first .usual ∈ t.downOf merge := by simp [hdown]
    exact ht.exists_path used base most (ht.below hfirst).2
  mark used most merge b hfound := by
    obtain ⟨_, ⟨second, hb⟩, _⟩ := isBubble_of_bubbleAt? hfound
    have hrows : (used.markAll (b.merge :: b.chain)).markAll b.path = used.markAll b.rows := by
      rw [Bubble.rows, ← List.cons_append, Marks.markAll, Marks.markAll, Marks.markAll,
        List.foldl_append]
    obtain ⟨states, hends⟩ := ht.exists_mark (used.markAll (b.merge :: b.chain)) hb.path_line
      (hb.base_not_mem hb.path_line) (ht.below_lt hb.below_first).2
    exact ⟨states, hrows ▸ hends⟩

end Rows

namespace Stack

variable {α : Type} [BEq α] [Hashable α] [EquivBEq α] [LawfulHashable α]
  {commits : List (Commit α)} {slots slots' : Placeholders α} {h : History}

/-- The searches for runs and bubbles end in every stack of layers over a history
that loads, whatever the branch heads, the rows that are marked and the rows that a
side may have. -/
theorem searchesEnd_rows (hload : History.load commits slots = .ok (h, slots')) (s : Stack)
    (hbase : s.baseOrder = h.order ∨ ∃ compare timestamp,
      s.baseOrder = h.rebaseOrder (Lanes.ofHistory h compare) timestamp) :
    (s.rows h).SearchesEnd :=
  (consistent_of_load hload s hbase).searchesEnd

/-- A merge with a side of one row and a path of one row, which are found. -/
theorem searchesEnd_rows_fork :
    History.load Graph.forkCommits .empty = .ok (Graph.fork.history, .empty) ∧
    ((Stack.base Graph.fork.history.order).rows Graph.fork.history).bubbleAt? (.blank 4) 1 0 =
      some ⟨0, 1, [2], [1], 3⟩ ∧
    ((Stack.base Graph.fork.history.order).rows Graph.fork.history).SearchesEnd :=
  ⟨Graph.load_history_fork, by cbv,
    searchesEnd_rows Graph.load_history_fork (.base Graph.fork.history.order) (Or.inl rfl)⟩

end Stack

end Lineage
