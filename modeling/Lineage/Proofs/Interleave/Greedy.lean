import Lineage.Proofs.Interleave
import Lineage.Proofs.LinearView
import Lineage.Proofs.Strands

/-!
# Lineage.Proofs.Interleave.Greedy

What the rebase order is, without the agenda that it is found with: after each
node the next one on its strand goes out, if it is ready, and otherwise the
first in rank of all nodes that are ready.  The agenda keeps entries of nodes
that are out and never looks for a maximum; but it is sorted, and it has an
entry for every node that is ready (`Merge.Sound`), so the first of its entries
that is still to go out is the one the rule asks for.

* `GoesNext`, `GoesNext.unique` — the rule, and that it leaves no choice.
* `Merge.Greedy.goesNext`, `Merge.Greedy.emit` — a round of the merge.
* `History.interleave_eq_iff` — the rebase order is the one order of all nodes
  that follows the rule.
-/

namespace Lineage

/-! ## the rule -/

/-- Of two nodes, the one that goes out first if both are ready: the newer one,
of equally new ones that in the smaller lane, and then the one with the smaller
number. -/
def Outranks (lanes : Lanes) (timestamp : Nat → Int) (n m : Nat) : Prop :=
  timestamp m < timestamp n ∨ timestamp m = timestamp n ∧
    (lanes.lane n < lanes.lane m ∨ lanes.lane n = lanes.lane m ∧ n < m)

/-- The node `n` goes out after the nodes of `out`, the last of which went out
last. -/
inductive GoesNext (h : History) (lanes : Lanes) (timestamp : Nat → Int) (out : List Nat) (n : Nat) :
    Prop where
  /-- It comes after the last one on its strand. -/
  | strand {last : Nat} : last ∈ out.getLast? → (Strands.ofHistory h lanes).Follows last n →
      IsReady h.size h.loadedChildren out n → GoesNext h lanes timestamp out n
  /-- No node that is ready does, and it is ahead of all others that are. -/
  | rank : (∀ last ∈ out.getLast?, ∀ m, (Strands.ofHistory h lanes).Follows last m →
        ¬ IsReady h.size h.loadedChildren out m) →
      IsReady h.size h.loadedChildren out n →
      (∀ m, IsReady h.size h.loadedChildren out m → m ≠ n → Outranks lanes timestamp n m) →
      GoesNext h lanes timestamp out n

variable {h : History} {lanes : Lanes} {timestamp : Nat → Int} {out nodes other : List Nat}
  {n m k : Nat}

theorem Outranks.asymm (hnm : Outranks lanes timestamp n m) : ¬ Outranks lanes timestamp m n := by
  unfold Outranks at *
  omega

/-- The rule leaves no choice. -/
theorem GoesNext.unique (hn : GoesNext h lanes timestamp out n)
    (hm : GoesNext h lanes timestamp out m) : n = m := by
  cases hn with
  | strand hlast hfollows hready =>
      cases hm with
      | strand hlast' hfollows' _ =>
          obtain rfl := Option.some.inj (hlast.symm.trans hlast')
          exact hfollows.unique hfollows'
      | rank hnone _ _ => exact absurd hready (hnone _ hlast _ hfollows)
  | rank hnone hready hfirst =>
      cases hm with
      | strand hlast' hfollows' hready' => exact absurd hready' (hnone _ hlast' _ hfollows')
      | rank _ hready' hfirst' =>
          by_contra hne
          exact (hfirst m hready' (Ne.symm hne)).asymm (hfirst' n hready hne)

/-- So two lists of one length that follow it are the same. -/
theorem eq_of_goesNext (hlen : nodes.length = other.length)
    (hnodes : ∀ k n, nodes[k]? = some n → GoesNext h lanes timestamp (nodes.take k) n)
    (hother : ∀ k n, other[k]? = some n → GoesNext h lanes timestamp (other.take k) n) :
    nodes = other := by
  have htake : ∀ k, nodes.take k = other.take k := by
    intro k
    induction k with
    | zero => simp
    | succ k ih =>
        rw [List.take_add_one, List.take_add_one, ih]
        by_cases hk : k < nodes.length
        · have hn := List.getElem?_eq_getElem hk
          have hm := List.getElem?_eq_getElem (hlen ▸ hk)
          have hgoes := hnodes k _ hn
          rw [ih] at hgoes
          rw [hn, hm, hgoes.unique (hother k _ hm)]
        · simp [List.getElem?_eq_none (Nat.le_of_not_lt hk),
            List.getElem?_eq_none (hlen ▸ Nat.le_of_not_lt hk)]
  have hall := htake nodes.length
  rwa [List.take_length, hlen, List.take_length] at hall

theorem isReady_reverse {size : Nat} {children : Nat → List Nat} :
    IsReady size children out.reverse n ↔ IsReady size children out n := by
  constructor
  · exact fun hn => ⟨hn.lt_size, by simpa using hn.notMem_out, by simpa using hn.children_out⟩
  · exact fun hn => ⟨hn.lt_size, by simpa using hn.notMem_out, by simpa using hn.children_out⟩

namespace Merge

/-! ## one round -/

/-- What the nodes of a history are ranked by. -/
def rankOf (lanes : Lanes) (timestamp : Nat → Int) (node : Nat) : Rank :=
  ⟨timestamp node, lanes.lane node, node⟩

theorem outranks_of_before (hne : m ≠ n)
    (hbefore : (rankOf lanes timestamp n).before (rankOf lanes timestamp m) = true) :
    Outranks lanes timestamp n m := by
  rw [Rank.before_iff] at hbefore
  unfold Outranks
  simp only [rankOf] at hbefore
  omega

/-- What holds between two rounds on top of `Merge.Sound`: the agenda is sorted,
and the node that went out last is known. -/
structure Greedy (h : History) (lanes : Lanes) (timestamp : Nat → Int) (m : Merge)
    (out : List Nat) : Prop extends Sound h (rankOf lanes timestamp) m out where
  sorted : m.agenda.Pairwise (Rank.before · ·)
  last_eq : m.last = out.head?

variable {s : Strands} {m : Merge} {node : Nat} {agenda : List Rank}

theorem pick?_sublist (hp : m.pick? s = some (node, agenda)) : agenda.Sublist m.agenda := by
  simp only [pick?] at hp
  split at hp
  · obtain ⟨rfl, rfl⟩ := Prod.mk.inj (Option.some.inj hp)
    exact List.Sublist.refl _
  · split at hp
    · contradiction
    · next r rest hpending =>
        obtain ⟨rfl, rfl⟩ := Prod.mk.inj (Option.some.inj hp)
        have hsub : m.pending.Sublist m.agenda := List.dropWhile_sublist _
        rw [hpending] at hsub
        exact (List.sublist_cons_self r rest).trans hsub

namespace Greedy

/-- A node that comes next on a strand and is ready is picked. -/
theorem continuation?_eq_some (hm : Greedy h lanes timestamp m out) {last : Nat}
    (hlast : out.head? = some last) (hfollows : (Strands.ofHistory h lanes).Follows last n)
    (hn : IsReady h.size h.loadedChildren out n) :
    m.continuation? (Strands.ofHistory h lanes) = some n := by
  have hfree := (has_out_eq_false_iff hm.toSound n).mpr ⟨hn.lt_size, hn.notMem_out⟩
  have hzero := (hm.awaits.getD_eq_zero_iff n).mpr hn.children_out
  rw [continuation?, hm.last_eq, hlast, Option.bind_some, Strands.next?_eq_some_iff.mpr hfollows,
    Option.filter_some, hfree, hzero]
  rfl

/-- The first entry that is still to go out is ahead of all nodes that are
ready. -/
theorem outranks_of_pending (hm : Greedy h lanes timestamp m out) {r : Rank} {rest : List Rank}
    (hpending : m.pending = r :: rest) (hn : IsReady h.size h.loadedChildren out n)
    (hne : n ≠ r.node) : Outranks lanes timestamp r.node n := by
  obtain ⟨q, hq, rfl⟩ := hm.complete hn
  have hfree := (has_out_eq_false_iff hm.toSound q.node).mpr ⟨hn.lt_size, hn.notMem_out⟩
  have hmem : q ∈ m.pending := (mem_pending_or m hq).resolve_right (by simp [hfree])
  have hsub : m.pending.Sublist m.agenda := List.dropWhile_sublist _
  have hsorted := hm.sorted.sublist hsub
  rw [hpending] at hmem hsub hsorted
  have hrest : q ∈ rest := (List.mem_cons.mp hmem).resolve_left fun heq => hne (heq ▸ rfl)
  have hbefore := List.rel_of_pairwise_cons hsorted hrest
  rw [hm.ranked q hq, hm.ranked r (hsub.subset List.mem_cons_self)] at hbefore
  exact outranks_of_before hne hbefore

/-- The node that is picked is the one the rule asks for. -/
theorem goesNext (hm : Greedy h lanes timestamp m out)
    (hp : m.pick? (Strands.ofHistory h lanes) = some (node, agenda)) :
    GoesNext h lanes timestamp out.reverse node := by
  have hready : IsReady h.size h.loadedChildren out.reverse node :=
    isReady_reverse.mpr (pick?_spec hm.toSound hp).1
  simp only [pick?] at hp
  split at hp
  · next next hnext =>
      obtain ⟨rfl, rfl⟩ := Prod.mk.inj (Option.some.inj hp)
      obtain ⟨hfollows, _⟩ := Option.filter_eq_some_iff.mp hnext
      obtain ⟨last, hlast, hfollows⟩ := Option.bind_eq_some_iff.mp hfollows
      rw [hm.last_eq, ← List.getLast?_reverse] at hlast
      exact .strand hlast (Strands.next?_eq_some_iff.mp hfollows) hready
  · next hnone =>
      split at hp
      · contradiction
      · next r rest hpending =>
          obtain ⟨rfl, rfl⟩ := Prod.mk.inj (Option.some.inj hp)
          refine .rank (fun last hlast next hfollows hnext => ?_) hready fun n hn hne => ?_
          · rw [List.getLast?_reverse] at hlast
            have hsome := hm.continuation?_eq_some hlast hfollows (isReady_reverse.mp hnext)
            simp [hsome] at hnone
          · exact hm.outranks_of_pending hpending (isReady_reverse.mp hn) hne

/-- What one node going out keeps. -/
theorem emit (hl : Linked h.size h.loadedParents h.loadedChildren)
    (hm : Greedy h lanes timestamp m out) (hp : m.pick? s = some (node, agenda)) :
    Greedy h lanes timestamp (m.emit h (rankOf lanes timestamp) node agenda) (node :: out) where
  toSound := hm.toSound.emit hl (fun _ => rfl) hp
  sorted := sorted_insertAllSorted Rank.before_trans Rank.before_total _
    (hm.sorted.sublist (pick?_sublist hp))
  last_eq := rfl

theorem start (hl : Linked h.size h.loadedParents h.loadedChildren) :
    Greedy h lanes timestamp (Merge.start h (rankOf lanes timestamp)) [] where
  toSound := Sound.start hl fun _ => rfl
  sorted := List.pairwise_mergeSort Rank.before_trans
    (fun a b => by simpa using Rank.before_total a b) _
  last_eq := rfl

/-! ## all rounds -/

/-- Every node goes out by the rule. -/
theorem goesNext_run (hl : Linked h.size h.loadedParents h.loadedChildren)
    (hm : Greedy h lanes timestamp m out) {rounds : Nat}
    (hn : (run h (Strands.ofHistory h lanes) (rankOf lanes timestamp) rounds m)[k]? = some n) :
    GoesNext h lanes timestamp (out.reverse ++
      (run h (Strands.ofHistory h lanes) (rankOf lanes timestamp) rounds m).take k) n := by
  induction rounds generalizing m out k with
  | zero => simp [run] at hn
  | succ rounds ih =>
      rw [run] at hn ⊢
      cases hp : m.pick? (Strands.ofHistory h lanes) with
      | none => simp [hp] at hn
      | some p =>
          obtain ⟨node, agenda⟩ := p
          simp only [hp] at hn ⊢
          cases k with
          | zero =>
              obtain rfl : node = n := by simpa using hn
              simpa using hm.goesNext hp
          | succ k =>
              have hrest := ih (hm.emit hl hp) (by simpa using hn)
              simpa using hrest

end Greedy

end Merge

namespace History

/-! ## the rebase order -/

variable {α : Type} [BEq α] [Hashable α] [EquivBEq α] [LawfulHashable α]
  {commits : List (Commit α)} {slots slots' : Placeholders α}

/-- The rebase order of every history that loads is the one order of all its
nodes in which every node goes out by the rule, whatever the lanes and the
timestamps. -/
theorem interleave_eq_iff (hload : load commits slots = .ok (h, slots')) (lanes : Lanes)
    (timestamp : Nat → Int) (nodes : List Nat) :
    h.interleave lanes (Strands.ofHistory h lanes) timestamp = nodes ↔
      nodes.length = h.size ∧
        ∀ k n, nodes[k]? = some n → GoesNext h lanes timestamp (nodes.take k) n := by
  have hs := sound_of_load hload
  have hstart : Merge.Greedy h lanes timestamp _ [] := .start hs.linked
  have hlen : (h.interleave lanes (Strands.ofHistory h lanes) timestamp).length = h.size :=
    hstart.toSound.length_run hs.linked hs.wellFounded (fun _ => rfl) (by simp)
  have hnext : ∀ k n, (h.interleave lanes (Strands.ofHistory h lanes) timestamp)[k]? = some n →
      GoesNext h lanes timestamp
        ((h.interleave lanes (Strands.ofHistory h lanes) timestamp).take k) n := fun _ _ hn =>
    hstart.goesNext_run hs.linked hn
  constructor
  · rintro rfl
    exact ⟨hlen, hnext⟩
  · rintro ⟨hlen', hnext'⟩
    exact eq_of_goesNext (hlen.trans hlen'.symm) hnext hnext'

/-- A merge, the first parent of which goes out by its strand, though the other
one is newer. -/
theorem interleave_eq_iff_fork :
    load Graph.forkCommits .empty = .ok (Graph.fork.history, .empty) ∧
      ∀ k n, [0, 1, 2, 3][k]? = some n →
        GoesNext Graph.fork.history ⟨#[1, 1, 2, 1], [0], [1]⟩ (fun n => n) ([0, 1, 2, 3].take k) n := by
  refine ⟨Graph.load_history_fork, ?_⟩
  have hstrands : Strands.ofHistory Graph.fork.history ⟨#[1, 1, 2, 1], [0], [1]⟩ =
      ⟨#[#[0, 1, 3], #[2]], #[0, 0, 1, 0], #[0, 1, 0, 2]⟩ := by
    cbv
  have hstart : ∀ rank, Merge.start Graph.fork.history rank =
      ⟨#[0, 1, 1, 2], .blank 4, [rank 0], none⟩ := fun rank => by
    simp [Merge.start, Graph.fork, size, childrenOf, List.range, List.range.loop]
  have horder : Graph.fork.history.interleave ⟨#[1, 1, 2, 1], [0], [1]⟩
      (Strands.ofHistory Graph.fork.history ⟨#[1, 1, 2, 1], [0], [1]⟩) (fun n => n) =
        [0, 1, 2, 3] := by
    rw [hstrands, interleave, hstart]
    decide
  obtain ⟨_, hnext⟩ := (interleave_eq_iff Graph.load_history_fork _ _ _).mp horder
  exact hnext

end History

end Lineage
