import Lineage.Proofs.Interleave.Greedy
import Lineage.Proofs.Loops
import Lineage.Proofs.WellFormed

/-!
# Lineage.Proofs.Countdown

The counts of an emission, turn by turn.  `settle` passes over a count that is
zero already; an emission that stops there instead lets out the same nodes, for
at the start of every turn a node counts exactly the mentions by nodes that are
still to come.  Nothing is asked of the history but that its lists mirror each
other, so a list with a cycle is covered as well: its emission runs out of nodes
that are ready, and its counts are right until then.

* `settle?` — settling with a fault at zero; `settle?_eq_some`.
* `Emitter`, `Emitter.turn` — what the two emissions have in common, as a loop.
* `Emitter.KeepsCount` — what is said of the turns; `Emitter.Careful.keepsCount`
  shows it for any emitter that lets out ready nodes only.
* `History.keepsCount_emissions` — it holds of both emissions.
-/

namespace Lineage

/-! ## settling with a fault -/

/-- Settles one mention of each node of a list, unless it comes to a count that
is zero, or to a node without a count. -/
def settle? (waiting : Array Nat) : List Nat → Option (Array Nat × List Nat)
  | [] => some (waiting, [])
  | p :: ps =>
    match waiting[p]? with
    | some (left + 1) =>
      (settle? (waiting.setIfInBounds p left) ps).map fun (remaining, freed) =>
        (remaining, if left = 0 then p :: freed else freed)
    | _ => none

/-- There is no fault where no node is mentioned more often than it counts. -/
theorem settle?_eq_some {waiting : Array Nat} {ps : List Nat}
    (hcount : ∀ p ∈ ps, ps.count p ≤ waiting.getD p 0) :
    settle? waiting ps = some (settle waiting ps) := by
  induction ps generalizing waiting with
  | nil => rfl
  | cons p ps ih =>
      have hp := hcount p List.mem_cons_self
      rw [List.count_cons_self] at hp
      have hlt : p < waiting.size := lt_size_of_getD_ne (d := 0) (by omega)
      obtain ⟨left, hleft⟩ : ∃ left, waiting.getD p 0 = left + 1 :=
        Nat.exists_eq_add_one.mpr (by omega)
      have hget : waiting[p]? = some (left + 1) := by
        rw [Array.getD_eq_getD_getElem?, Array.getElem?_eq_getElem hlt, Option.getD_some] at hleft
        rw [Array.getElem?_eq_getElem hlt, hleft]
      have hrest : ∀ q ∈ ps, ps.count q ≤ (waiting.setIfInBounds p left).getD q 0 := by
        intro q hq
        have hcount := hcount q (List.mem_cons_of_mem p hq)
        rw [getD_setIfInBounds]
        by_cases hpq : p = q
        · subst hpq
          rw [if_pos ⟨rfl, hlt⟩]
          omega
        · rwa [if_neg fun h => hpq h.1, ← List.count_cons_of_ne hpq]
      rw [settle?, hget, settle, hleft]
      simp only [ih hrest, Option.map_some]

/-! ## mentions that are left -/

/-- The mentions of a node as a parent by nodes that are not out. -/
def History.mentionsLeft (h : History) (out : List Nat) (p : Nat) : Nat :=
  (((List.range h.size).filter fun c => decide (c ∉ out)).flatMap h.loadedParents).count p

section Linked

variable {size : Nat} {parents children : Nat → List Nat}

/-- The mentions by some nodes, seen from the parent. -/
theorem Linked.count_flatMap (hl : Linked size parents children) {nodes : List Nat}
    (hnodes : nodes.Nodup) (p : Nat) :
    (nodes.flatMap parents).count p = (children p).countP fun c => decide (c ∈ nodes) := by
  induction nodes with
  | nil => simp
  | cons n nodes ih =>
      obtain ⟨hn, hnodes⟩ := List.nodup_cons.mp hnodes
      have hsplit : ∀ cs : List Nat, cs.count n + cs.countP (fun c => decide (c ∈ nodes)) =
          cs.countP fun c => decide (c ∈ n :: nodes) := by
        intro cs
        induction cs with
        | nil => rfl
        | cons c cs ih =>
            by_cases hc : c = n
            · subst hc
              simp_all
              omega
            · simp_all [List.countP_cons]
              omega
      rw [List.flatMap_cons, List.count_append, ih hnodes, ← hl.count_children, hsplit]

end Linked

/-- What a node counts between two turns. -/
theorem Awaits.getElem?_eq {h : History} (hl : Linked h.size h.loadedParents h.loadedChildren)
    {waiting : Array Nat} {out : List Nat} (hw : Awaits h.loadedChildren waiting out)
    (hsize : waiting.size = h.size) {p : Nat} (hp : p < h.size) :
    waiting[p]? = some (h.mentionsLeft out p) := by
  have hcount : h.mentionsLeft out p = waiting.getD p 0 := by
    rw [hw.count_eq, History.mentionsLeft, hl.count_flatMap (List.nodup_range.filter _)]
    refine List.countP_congr fun c hc => ?_
    have hlt := hl.child_lt (hl.mem_children.mp hc)
    simp [hlt]
  rw [hcount, Array.getD_eq_getD_getElem?, Array.getElem?_eq_getElem (hsize ▸ hp), Option.getD_some]

/-- No more nodes than there are can be out, each once. -/
theorem length_le_of_nodup {size : Nat} {out : List Nat} (hout : out.Nodup)
    (hlt : ∀ n ∈ out, n < size) : out.length ≤ size := by
  have hsub : out.Subperm (List.range size) :=
    List.subperm_of_subset hout fun n hn => List.mem_range.mpr (hlt n hn)
  simpa using hsub.length_le

/-! ## emissions as loops -/

variable {σ : Type}

/-- A way to let the nodes of a history out, one after the other. -/
structure Emitter (σ : Type) where
  /-- For each node, the mentions by children that are still to come. -/
  waiting : σ → Array Nat
  /-- The node that goes out next, if there is one, and what that leads to. -/
  next? : σ → Option (Nat × σ)

/-- Where an emission stands. -/
structure Emission (σ : Type) where
  /-- The nodes that are out, the first one in front. -/
  out : List Nat
  /-- The nodes that have become ready, each as often as it has. -/
  readied : List Nat
  state : σ

namespace Emitter

/-- At most `rounds` nodes, in the order in which they go out. -/
def run (e : Emitter σ) : (rounds : Nat) → σ → List Nat
  | 0, _ => []
  | rounds + 1, a =>
    match e.next? a with
    | none => []
    | some (node, b) => node :: e.run rounds b

/-- A turn of an emission: the next node goes out, which settles its mentions of
parents and makes some of them ready.  The loop is over when no node is next, and
gives those that are out; it gives none at a count that is zero already. -/
def turn (e : Emitter σ) (parents : Nat → List Nat) (m : Emission σ) :
    Turn (Emission σ) (Option (List Nat)) :=
  match e.next? m.state with
  | none => .finished (some m.out)
  | some (node, state) =>
    match settle? (e.waiting m.state) (parents node) with
    | none => .finished none
    | some (_, freed) => .again ⟨m.out ++ [node], m.readied ++ freed, state⟩

/-- An emission that ends without a fault and lets out `nodes`.  At the start of
every turn each node counts the mentions by nodes that are not out, no node has
become ready twice, and none has gone out twice. -/
structure KeepsCount (e : Emitter σ) (h : History) (start : Emission σ) (nodes : List Nat)
    (states : List (Emission σ)) : Prop where
  runsTo : RunsTo (e.turn h.loadedParents) start states (some nodes)
  count_eq : ∀ m ∈ states, ∀ p < h.size, (e.waiting m.state)[p]? = some (h.mentionsLeft m.out p)
  nodup_readied : ∀ m ∈ states, m.readied.Nodup
  nodup_out : ∀ m ∈ states, m.out.Nodup

/-- An emitter that keeps its counts and lets out nodes that are ready only, as
long as an invariant holds of its state and of the nodes that are out, the last
one in front. -/
structure Careful (e : Emitter σ) (h : History) (inv : σ → List Nat → Prop) : Prop where
  size_eq : ∀ {a out}, inv a out → (e.waiting a).size = h.size
  awaits : ∀ {a out}, inv a out → Awaits h.loadedChildren (e.waiting a) out
  isReady : ∀ {a out node b}, inv a out → e.next? a = some (node, b) →
    IsReady h.size h.loadedChildren out node
  step : ∀ {a out node b}, inv a out → e.next? a = some (node, b) → inv b (node :: out)

/-- What holds at the start of every turn. -/
structure Stands (e : Emitter σ) (h : History) (inv : σ → List Nat → Prop) (nodes : List Nat)
    (m : Emission σ) : Prop where
  inv : inv m.state m.out.reverse
  nodup_out : m.out.Nodup
  out_lt : ∀ n ∈ m.out, n < h.size
  nodup_readied : m.readied.Nodup
  /-- The children of a node that has become ready are out. -/
  children_out : ∀ p ∈ m.readied, ∀ c ∈ h.loadedChildren p, c ∈ m.out
  /-- The nodes that are still to come go out in as many rounds as are left. -/
  rest : m.out ++ e.run (h.size - m.out.length) m.state = nodes

variable {e : Emitter σ} {h : History} {inv : σ → List Nat → Prop} {nodes : List Nat}
  {m : Emission σ}

namespace Careful

variable (hl : Linked h.size h.loadedParents h.loadedChildren) (hc : e.Careful h inv)
include hl hc

/-- A node that goes out finds its parents counted. -/
theorem settle?_eq (hs : e.Stands h inv nodes m) {node : Nat} {b : σ}
    (hnext : e.next? m.state = some (node, b)) :
    settle? (e.waiting m.state) (h.loadedParents node) =
      some (settle (e.waiting m.state) (h.loadedParents node)) := by
  have hready := hc.isReady hs.inv hnext
  refine settle?_eq_some fun p hp => ?_
  rw [(hc.awaits hs.inv).count_eq, ← hl.count_children, List.count]
  refine List.countP_mono_left fun c hc hnode => ?_
  rw [beq_iff_eq.mp hnode]
  exact decide_eq_true hready.notMem_out

/-- One turn: the node that goes out was ready, and those that it frees were
not. -/
theorem stands_again (hs : e.Stands h inv nodes m) {node : Nat} {b : σ}
    (hnext : e.next? m.state = some (node, b)) :
    e.Stands h inv nodes ⟨m.out ++ [node],
      m.readied ++ (settle (e.waiting m.state) (h.loadedParents node)).2, b⟩ := by
  have hready := hc.isReady hs.inv hnext
  have hnode : node ∉ m.out := by simpa using hready.notMem_out
  have hfreed := fun p => (hc.awaits hs.inv).mem_freed hl hready (p := p)
  have hout : (m.out ++ [node]).Nodup :=
    (List.perm_append_singleton node m.out).nodup_iff.mpr
      (List.nodup_cons.mpr ⟨hnode, hs.nodup_out⟩)
  have hlt : ∀ n ∈ m.out ++ [node], n < h.size := by
    intro n hn
    rcases List.mem_append.mp hn with hn | hn
    · exact hs.out_lt n hn
    · exact List.mem_singleton.mp hn ▸ hready.lt_size
  refine ⟨by simpa using hc.step hs.inv hnext, hout, hlt, ?_, fun p hp c hchild => ?_, ?_⟩
  · refine List.nodup_append.mpr ⟨hs.nodup_readied, nodup_settle_freed _ _, fun p hp q hq => ?_⟩
    rintro rfl
    exact hnode (hs.children_out p hp node ((hfreed p).mp hq).1)
  · rcases List.mem_append.mp hp with hp | hp
    · exact List.mem_append_left _ (hs.children_out p hp c hchild)
    · have := ((hfreed p).mp hp).2.children_out c hchild
      simpa [or_comm] using this
  · have hrounds : ∃ rounds, h.size - m.out.length = rounds + 1 := by
      have hle := length_le_of_nodup hout hlt
      rw [List.length_append, List.length_singleton] at hle
      exact Nat.exists_eq_add_one.mpr (by omega)
    obtain ⟨rounds, hrounds⟩ := hrounds
    have hrest := hs.rest
    rw [hrounds, run, hnext] at hrest
    have hleft : h.size - (m.out ++ [node]).length = rounds := by
      rw [List.length_append, List.length_singleton]
      omega
    rw [hleft, ← hrest, List.append_assoc, List.singleton_append]

/-- What the turns of an emission come to. -/
theorem turn_eq (hs : e.Stands h inv nodes m) :
    e.turn h.loadedParents m = .finished (some nodes) ∨
      ∃ m', e.turn h.loadedParents m = .again m' ∧ e.Stands h inv nodes m' ∧
        m.out.length < m'.out.length := by
  cases hnext : e.next? m.state with
  | none =>
      have hnil : ∀ rounds, e.run rounds m.state = [] := by
        intro rounds
        cases rounds with
        | zero => rfl
        | succ rounds => rw [run, hnext]
      have hrest := hs.rest
      rw [hnil, List.append_nil] at hrest
      rw [turn, hnext, hrest]
      exact Or.inl rfl
  | some next =>
      obtain ⟨node, b⟩ := next
      refine Or.inr ⟨_, ?_, hc.stands_again hl hs hnext, by simp⟩
      simp only [turn, hnext, hc.settle?_eq hl hs hnext]

/-- An emitter that is careful from its start on keeps count. -/
theorem keepsCount {a : σ} (ha : inv a []) {ready : List Nat} (hready : ready.Nodup)
    (hchildless : ∀ p ∈ ready, h.loadedChildren p = []) :
    ∃ states, e.KeepsCount h ⟨[], ready, a⟩ (e.run h.size a) states := by
  have hstart : e.Stands h inv (e.run h.size a) ⟨[], ready, a⟩ :=
    ⟨by simpa using ha, .nil, by simp, hready, fun p hp c hc => by simp [hchildless p hp] at hc,
      by simp⟩
  have hlt : ∀ {m : Emission σ}, e.Stands h inv (e.run h.size a) m → m.out.length < h.size + 1 :=
    fun hs => Nat.lt_succ_of_le (length_le_of_nodup hs.nodup_out hs.out_lt)
  have hagain : ∀ {m m' : Emission σ}, e.Stands h inv (e.run h.size a) m →
      e.turn h.loadedParents m = .again m' →
        e.Stands h inv (e.run h.size a) m' ∧ m.out.length < m'.out.length := by
    intro m m' hs hturn
    rcases hc.turn_eq hl hs with hfinished | ⟨m'', hagain, hs', hlength⟩
    · rw [hfinished] at hturn
      contradiction
    · rw [hagain] at hturn
      obtain rfl := Turn.again.inj hturn
      exact ⟨hs', hlength⟩
  obtain ⟨states, r, hends, hall⟩ := exists_endsWithin hlt hagain hstart
  obtain ⟨m, hm, hfinished⟩ := hends.runsTo.exists_finished
  have hr : r = some (e.run h.size a) := by
    rcases hc.turn_eq hl (hall m hm) with hfinished' | ⟨_, hagain', _⟩
    · exact Turn.finished.inj (hfinished.symm.trans hfinished')
    · rw [hfinished] at hagain'
      contradiction
  refine ⟨states, hr ▸ hends.runsTo, fun m hm p hp => ?_, fun m hm => (hall m hm).nodup_readied,
    fun m hm => (hall m hm).nodup_out⟩
  have hcount := (hc.awaits (hall m hm).inv).getElem?_eq hl (hc.size_eq (hall m hm).inv) hp
  simpa [History.mentionsLeft] using hcount

end Careful

end Emitter

/-! ## the two emissions -/

/-- A node all of whose children are out at the start has none. -/
theorem eq_nil_of_children_out {cs : List Nat} (hcs : ∀ c ∈ cs, c ∈ ([] : List Nat)) : cs = [] :=
  List.eq_nil_iff_forall_not_mem.mpr fun c hc => List.not_mem_nil (hcs c hc)

namespace History

/-- The emission of the least node that is ready: its agenda, and its counts. -/
def leastEmitter (parents : Nat → List Nat) : Emitter (List Nat × Array Nat) where
  waiting := Prod.snd
  next?
    | ([], _) => none
    | (node :: agenda, waiting) =>
      let (waiting, freed) := settle waiting (parents node)
      some (node, insertAllSorted (· ≤ ·) freed agenda, waiting)

theorem emitLeast_eq_run (parents : Nat → List Nat) (rounds : Nat) (agenda : List Nat)
    (waiting : Array Nat) : emitLeast parents rounds agenda waiting =
      (leastEmitter parents).run rounds (agenda, waiting) := by
  induction rounds generalizing agenda waiting with
  | zero => rfl
  | succ rounds ih =>
      cases agenda with
      | nil => rfl
      | cons node agenda => exact congrArg (node :: ·) (ih _ _)

/-- It starts with the nodes that have no children. -/
def leastStart (h : History) : Emission (List Nat × Array Nat) :=
  let waiting := h.children.map List.length
  let ready := (List.range h.size).filter fun n => waiting.getD n 0 = 0
  ⟨[], ready, ready, waiting⟩

variable {h : History}

theorem careful_leastEmitter (hl : Linked h.size h.loadedParents h.loadedChildren) :
    (leastEmitter h.loadedParents).Careful h fun a out =>
      a.2.size = h.size ∧ Emitting h.size h.loadedChildren out a.1 a.2 where
  size_eq := And.left
  awaits hinv := hinv.2.awaits
  isReady {a out node b} hinv hnext := by
    obtain ⟨_ | ⟨first, agenda⟩, waiting⟩ := a
    · contradiction
    · obtain ⟨rfl, _⟩ := Prod.mk.inj (Option.some.inj hnext)
      exact hinv.2.mem_iff.mp List.mem_cons_self
  step {a out node b} hinv hnext := by
    obtain ⟨_ | ⟨first, agenda⟩, waiting⟩ := a
    · contradiction
    · obtain ⟨rfl, rfl⟩ := Prod.mk.inj (Option.some.inj hnext)
      exact ⟨by simpa using hinv.1, hinv.2.step hl⟩

/-- The emission of the least ready node keeps count, with or without a cycle. -/
theorem keepsCount_least (hl : Linked h.size h.loadedParents h.loadedChildren)
    (hsize : h.children.size = h.size) : ∃ states, (leastEmitter h.loadedParents).KeepsCount h
      h.leastStart (childrenFirst h.parents h.children) states := by
  have hstart : Emitting h.size h.loadedChildren [] h.leastStart.state.1 h.leastStart.state.2 :=
    Emitting.start (getD_map_length_children h)
  have hrun : childrenFirst h.parents h.children =
      (leastEmitter h.loadedParents).run h.size h.leastStart.state := emitLeast_eq_run _ _ _ _
  rw [hrun]
  refine (careful_leastEmitter hl).keepsCount hl ⟨by simpa [leastStart] using hsize, hstart⟩
    hstart.nodup fun p hp => ?_
  exact eq_nil_of_children_out (hstart.mem_iff.mp hp).children_out

end History

namespace Merge

variable {h : History} {s : Strands} {rank : Nat → Rank}

/-- The merge of strands. -/
def emitter (h : History) (s : Strands) (rank : Nat → Rank) : Emitter Merge where
  waiting := Merge.waiting
  next? m := (m.pick? s).map fun (node, agenda) => (node, m.emit h rank node agenda)

theorem run_eq_run (rounds : Nat) (m : Merge) :
    run h s rank rounds m = (emitter h s rank).run rounds m := by
  induction rounds generalizing m with
  | zero => rfl
  | succ rounds ih =>
      simp only [run, Emitter.run, emitter]
      cases m.pick? s with
      | none => rfl
      | some next => exact congrArg (next.1 :: ·) (ih _)

/-- It starts with the nodes that have no children. -/
def emission (h : History) (rank : Nat → Rank) : Emission Merge :=
  ⟨[], (start h rank).agenda.map (·.node), start h rank⟩

theorem careful_emitter (hl : Linked h.size h.loadedParents h.loadedChildren)
    (hrank : ∀ n, (rank n).node = n) : (emitter h s rank).Careful h fun m out =>
      m.waiting.size = h.size ∧ Sound h rank m out where
  size_eq := And.left
  awaits hinv := hinv.2.awaits
  isReady {m out node b} hinv hnext := by
    obtain ⟨⟨picked, agenda⟩, hp, heq⟩ := Option.map_eq_some_iff.mp hnext
    obtain ⟨rfl, _⟩ := Prod.mk.inj heq
    exact (pick?_spec hinv.2 hp).1
  step {m out node b} hinv hnext := by
    obtain ⟨⟨picked, agenda⟩, hp, heq⟩ := Option.map_eq_some_iff.mp hnext
    obtain ⟨rfl, rfl⟩ := Prod.mk.inj heq
    exact ⟨by simpa [emit] using hinv.1, hinv.2.emit hl hrank hp⟩

/-- The merge keeps count, whatever the strands and the ranks. -/
theorem keepsCount (hl : Linked h.size h.loadedParents h.loadedChildren)
    (hrank : ∀ n, (rank n).node = n) : ∃ states, (emitter h s rank).KeepsCount h
      (emission h rank) (run h s rank h.size (start h rank)) states := by
  have hstart := Sound.start hl hrank
  have hready : ((start h rank).agenda.map (·.node)).Nodup := by
    have hperm := (List.mergeSort_perm (((List.range h.size).filter fun n =>
      (start h rank).waiting.getD n 0 = 0).map rank) Rank.before).map (·.node)
    rw [List.map_map] at hperm
    refine hperm.nodup_iff.mpr ?_
    simpa [Function.comp_def, hrank] using List.nodup_range.filter _
  rw [run_eq_run]
  refine (careful_emitter hl hrank).keepsCount hl ⟨by simp [start], hstart⟩ hready fun p hp => ?_
  obtain ⟨r, hr, rfl⟩ := List.mem_map.mp hp
  exact eq_nil_of_children_out (hstart.listed r hr).2

end Merge

namespace History

variable {α : Type} [BEq α] [Hashable α] [EquivBEq α] [LawfulHashable α]

/-- No emission ever takes a mention off a count that is zero.  That of the least
ready node does not on the lists of any commits, be there a cycle or not, and the
merge of strands does not on a history that loads, whatever the lanes, the strands
and the timestamps. -/
theorem keepsCount_emissions (commits : List (Commit α)) (slots : Placeholders α) :
    (∃ states, (leastEmitter (draft commits slots).loadedParents).KeepsCount (draft commits slots)
        (draft commits slots).leastStart
        (childrenFirst (draft commits slots).parents (draft commits slots).children) states) ∧
      ∀ h slots', load commits slots = .ok (h, slots') →
        ∀ (lanes : Lanes) (strands : Strands) (timestamp : Nat → Int), ∃ states,
          (Merge.emitter h strands (Merge.rankOf lanes timestamp)).KeepsCount h
            (Merge.emission h (Merge.rankOf lanes timestamp))
            (h.interleave lanes strands timestamp) states := by
  have ht := tabulates_draft commits slots
  refine ⟨keepsCount_least ht.linked ?_, fun h slots' hload lanes strands timestamp => ?_⟩
  · rw [ht.children_eq, size_gather, ht.size_eq]
  · exact Merge.keepsCount (linked_of_load hload) fun _ => rfl

/-- The commit above a cycle goes out alone; of a merge, the node listed second
goes out first. -/
theorem keepsCount_emissions_cycle :
    (∃ states, (leastEmitter (draft cycleCommits .empty).loadedParents).KeepsCount
        (draft cycleCommits .empty) (draft cycleCommits .empty).leastStart [0] states) ∧
      ∃ slots, load mergeCommits .empty = .ok (mergeHistory, slots) ∧ ∃ states,
        (Merge.emitter mergeHistory ⟨#[#[1, 2, 0]], #[0, 0, 0], #[2, 0, 1]⟩
          (Merge.rankOf ⟨#[1, 1, 1], [1], [1]⟩ fun _ => 0)).KeepsCount mergeHistory
            (Merge.emission mergeHistory (Merge.rankOf ⟨#[1, 1, 1], [1], [1]⟩ fun _ => 0))
            [1, 2, 0] states := by
  obtain ⟨slots, hload⟩ := load_mergeHistory
  have hleast : childrenFirst (draft cycleCommits .empty).parents
      (draft cycleCommits .empty).children = [0] := by
    cbv
  have hmerge : mergeHistory.interleave ⟨#[1, 1, 1], [1], [1]⟩
      ⟨#[#[1, 2, 0]], #[0, 0, 0], #[2, 0, 1]⟩ (fun _ => 0) = [1, 2, 0] := by
    cbv
  obtain ⟨hcycle, _⟩ := keepsCount_emissions cycleCommits .empty
  obtain ⟨_, hkeeps⟩ := keepsCount_emissions mergeCommits .empty
  have hkept := hkeeps mergeHistory slots hload ⟨#[1, 1, 1], [1], [1]⟩
    ⟨#[#[1, 2, 0]], #[0, 0, 0], #[2, 0, 1]⟩ fun _ => 0
  rw [hleast] at hcycle
  rw [hmerge] at hkept
  exact ⟨hcycle, slots, hload, hkept⟩

end History

end Lineage
