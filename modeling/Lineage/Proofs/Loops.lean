/-!
# Lineage.Proofs.Loops

Loops as the turns they take, without anything that says how many there are.
The searches and emissions of the library count rounds or compare rows, so that
it is plain that they end; that the bare loop ends as well, and where it stands
in between, is said here of its turns.

* `Turn`, `RunsTo` — one turn, and a loop from its first turn to its last.
* `exists_endsWithin` — a loop ends if a number below a bound grows with every
  turn.
-/

namespace Lineage

/-- What a turn of a loop comes to. -/
inductive Turn (σ ρ : Type) where
  /-- There is another turn, which starts here. -/
  | again (state : σ)
  /-- The loop is finished. -/
  | finished (result : ρ)

variable {σ ρ : Type} {turn : σ → Turn σ ρ} {a : σ} {states : List σ} {r : ρ}

/-- A loop that ends with a result.  The states are those in which its turns
start, the last one included. -/
inductive RunsTo (turn : σ → Turn σ ρ) : σ → List σ → ρ → Prop where
  | finished {a : σ} {r : ρ} : turn a = .finished r → RunsTo turn a [a] r
  | again {a b : σ} {states : List σ} {r : ρ} : turn a = .again b → RunsTo turn b states r →
      RunsTo turn a (a :: states) r

/-- The last turn gives the result. -/
theorem RunsTo.exists_finished (h : RunsTo turn a states r) :
    ∃ b ∈ states, turn b = .finished r := by
  induction h with
  | finished hfinished => exact ⟨_, List.mem_singleton_self _, hfinished⟩
  | again _ _ ih =>
      obtain ⟨b, hb, hfinished⟩ := ih
      exact ⟨b, List.mem_cons_of_mem _ hb, hfinished⟩

/-- A loop that ends while a number grows with every turn and stays below
`size`: it takes no more turns than that. -/
structure EndsWithin (turn : σ → Turn σ ρ) (number : σ → Nat) (size : Nat) (a : σ)
    (states : List σ) (r : ρ) : Prop where
  runsTo : RunsTo turn a states r
  ascending : (states.map number).Pairwise (· < ·)
  lt_size : ∀ b ∈ states, number b < size
  length_le : states.length ≤ size

section Invariant

variable {inv : σ → Prop} {number : σ → Nat} {size : Nat} (hlt : ∀ {a}, inv a → number a < size)
  (hagain : ∀ {a b}, inv a → turn a = .again b → inv b ∧ number a < number b)
include hlt hagain

/-- The turns that are left fit between the number and its bound. -/
theorem exists_runsTo {a : σ} (ha : inv a) : ∃ states r, RunsTo turn a states r ∧
    (states.map number).Pairwise (· < ·) ∧ states.length + number a ≤ size ∧
      ∀ b ∈ states, inv b ∧ number a ≤ number b := by
  have hsize := hlt ha
  cases hturn : turn a with
  | finished r => exact ⟨[a], r, .finished hturn, by simp, by simp; omega, by simpa using ha⟩
  | again b =>
      obtain ⟨hb, hab⟩ := hagain ha hturn
      obtain ⟨states, r, hruns, hascending, hlength, hall⟩ := exists_runsTo hb
      have habove : ∀ n ∈ states.map number, number a < n := by
        intro n hn
        obtain ⟨c, hc, rfl⟩ := List.mem_map.mp hn
        exact Nat.lt_of_lt_of_le hab (hall c hc).2
      refine ⟨a :: states, r, .again hturn hruns, List.pairwise_cons.mpr ⟨habove, hascending⟩,
        by rw [List.length_cons]; omega,
        List.forall_mem_cons.mpr ⟨⟨ha, Nat.le_refl _⟩, fun c hc => ?_⟩⟩
      exact ⟨(hall c hc).1, Nat.le_of_lt (habove _ (List.mem_map_of_mem hc))⟩
termination_by size - number a

/-- A loop ends if its turns keep an invariant under which a number stays below a
bound, and raise this number. -/
theorem exists_endsWithin {a : σ} (ha : inv a) :
    ∃ states r, EndsWithin turn number size a states r ∧ ∀ b ∈ states, inv b := by
  obtain ⟨states, r, hruns, hascending, hlength, hall⟩ := exists_runsTo hlt hagain ha
  exact ⟨states, r, ⟨hruns, hascending, fun b hb => hlt (hall b hb).1, by omega⟩,
    fun b hb => (hall b hb).1⟩

end Invariant

end Lineage
