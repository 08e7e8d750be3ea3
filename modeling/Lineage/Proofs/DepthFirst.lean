import Lineage.Proofs.Renumbering

/-!
# Lineage.Proofs.DepthFirst

A walk over a stack is a recursive visit.  When the walk comes back to a node it
looks at all parents again, from the first one on; but those that it has looked
at before are painted and stay so, which is why it goes on where it was.

* `Painting.visit`, `Painting.visitEach` — the recursion.
* `Painting.round`, `Painting.Rounds` — the walk as a loop that keeps nothing but
  its stack and tells from the lanes alone where it arrives for the first time.
* `Painting.descend_visit` — from where a visit starts to where it is over.
* `Painting.paint_eq_visit` — the walk, the loop and the recursion are one.
-/

namespace Lineage

namespace Painting

/-! ## visits -/

mutual

/-- Gives the open lane to a free node.  If that leaves it no free parent, the
lane is closed; otherwise its parents are visited.  A visit paints at least the
node, which ends the recursion. -/
def visit (h : History) (p : Painting) (node : Nat) (hfree : p.isFree node = true) :
    {q : Painting // q.free < p.free} :=
  if (h.loadedParents node).any (p.give node).isFree then
    let q := visitEach h (p.give node) (h.loadedParents node)
    ⟨q.1, by have := free_give hfree; have := q.2; omega⟩
  else
    ⟨(p.give node).close, by have := free_give hfree; show (p.give node).free < p.free; omega⟩
termination_by (p.free, 0)
decreasing_by
  have := free_give hfree
  exact Prod.Lex.left _ _ (by omega)

/-- Visits the nodes of a list one after the other, each one that is free when
its turn comes. -/
def visitEach (h : History) (p : Painting) (nodes : List Nat) :
    {q : Painting // q.free ≤ p.free} :=
  match nodes with
  | [] => ⟨p, Nat.le_refl _⟩
  | node :: nodes =>
    if hfree : p.isFree node = true then
      let q := visit h p node hfree
      let r := visitEach h q.1 nodes
      ⟨r.1, Nat.le_trans r.2 (Nat.le_of_lt q.2)⟩
    else visitEach h p nodes
termination_by (p.free, nodes.length + 1)
decreasing_by
  · exact Prod.Lex.right _ (Nat.succ_pos _)
  · exact Prod.Lex.left _ _ q.2
  · exact Prod.Lex.right _ (Nat.lt_succ_self _)

end

variable {h : History} {p q q' : Painting} {node n : Nat} {nodes rest stack : List Nat}

theorem visit_inner (hfree : p.isFree node = true)
    (hany : (h.loadedParents node).any (p.give node).isFree = true) :
    (visit h p node hfree).1 = (visitEach h (p.give node) (h.loadedParents node)).1 := by
  rw [visit, if_pos hany]

theorem visit_leaf (hfree : p.isFree node = true)
    (hnone : ¬ (h.loadedParents node).any (p.give node).isFree = true) :
    (visit h p node hfree).1 = (p.give node).close := by
  rw [visit, if_neg hnone]

theorem visitEach_cons_of_free (hfree : p.isFree node = true) :
    (visitEach h p (node :: nodes)).1 = (visitEach h (visit h p node hfree).1 nodes).1 := by
  rw [visitEach, dif_pos hfree]

theorem visitEach_cons_of_not_free (hnot : ¬ p.isFree node = true) :
    (visitEach h p (node :: nodes)).1 = (visitEach h p nodes).1 := by
  rw [visitEach, dif_neg hnot]

theorem isFree_give (hfree : p.isFree node = true) :
    (p.give node).isFree n = true ↔ n ≠ node ∧ p.isFree n = true := by
  rw [isFree_iff, isFree_iff, size_give, laneOf_give hfree]
  by_cases heq : n = node
  · simp [heq, current]
  · simp [heq]

/-- A visit leaves no node free that it finds painted, nor its own. -/
theorem isFree_visit_visitEach :
    (∀ (h : History) (p : Painting) (node : Nat) (hfree : p.isFree node = true) (n : Nat),
      (visit h p node hfree).1.isFree n = true → n ≠ node ∧ p.isFree n = true) ∧
    ∀ (h : History) (p : Painting) (nodes : List Nat) (n : Nat),
      (visitEach h p nodes).1.isFree n = true → p.isFree n = true := by
  refine visit.mutual_induct
    (fun h p node hfree => ∀ n, (visit h p node hfree).1.isFree n = true →
      n ≠ node ∧ p.isFree n = true)
    (fun h p nodes => ∀ n, (visitEach h p nodes).1.isFree n = true → p.isFree n = true)
    ?inner ?leaf ?nil ?free ?painted
  case inner =>
    intro h p node hfree hany ih n hn
    rw [visit_inner hfree hany] at hn
    exact (isFree_give hfree).mp (ih n hn)
  case leaf =>
    intro h p node hfree hnone n hn
    rw [visit_leaf hfree hnone] at hn
    exact (isFree_give hfree).mp hn
  case nil =>
    intro h p n hn
    rwa [visitEach] at hn
  case free =>
    intro h p node nodes hfree q ihvisit iheach _ n hn
    rw [visitEach_cons_of_free hfree] at hn
    exact (ihvisit n (iheach n hn)).2
  case painted =>
    intro h p node nodes hnot ih n hn
    rw [visitEach_cons_of_not_free hnot] at hn
    exact ih n hn

/-! ## a walk and its visits -/

/-- Where a walk arrives at a node it visits it and goes on with what lies below
on the stack; where it comes back to a node it visits those parents that are
still free. -/
theorem descend_visit :
    (∀ (h : History) (p : Painting) (node : Nat) (hfree : p.isFree node = true) (rest : List Nat),
      (p.give node).descend h (node :: rest) true =
        (visit h p node hfree).1.descend h rest false) ∧
    ∀ (h : History) (p : Painting) (nodes : List Nat) (child : Nat) (before rest : List Nat)
      (arrived : Bool), h.loadedParents child = before ++ nodes →
      (∀ m ∈ before, ¬ p.isFree m = true) → (arrived = true → ∃ m ∈ nodes, p.isFree m = true) →
      p.descend h (child :: rest) arrived = (visitEach h p nodes).1.descend h rest false := by
  refine visit.mutual_induct
    (fun h p node hfree => ∀ rest, (p.give node).descend h (node :: rest) true =
      (visit h p node hfree).1.descend h rest false)
    (fun h p nodes => ∀ child before rest arrived, h.loadedParents child = before ++ nodes →
      (∀ m ∈ before, ¬ p.isFree m = true) → (arrived = true → ∃ m ∈ nodes, p.isFree m = true) →
      p.descend h (child :: rest) arrived = (visitEach h p nodes).1.descend h rest false)
    ?inner ?leaf ?nil ?free ?painted
  case inner =>
    intro h p node hfree hany ih rest
    rw [visit_inner hfree hany]
    exact ih node [] rest true rfl (by simp) fun _ => by simpa using hany
  case leaf =>
    intro h p node hfree hnone rest
    rw [visit_leaf hfree hnone, descend_pop (by simpa using hnone)]
    rfl
  case nil =>
    intro h p child before rest arrived hparents hpainted harrived
    have hnot : arrived = false := by simpa using harrived
    rw [List.append_nil] at hparents
    rw [hnot, visitEach, descend_pop (by simpa [hparents] using hpainted)]
    rfl
  case free =>
    intro h p node nodes hfree q ihvisit iheach _ child before rest arrived hparents hpainted _
    -- the parents in front are painted, so this one is found
    have hfound : (h.loadedParents child).find? p.isFree = some node := by
      rw [hparents, List.find?_append, List.find?_eq_none.mpr hpainted]
      simp [hfree]
    rw [descend_push hfound, ihvisit, visitEach_cons_of_free hfree]
    refine iheach child (before ++ [node]) rest false (by simp [hparents]) ?_ (by simp)
    intro m hm hmfree
    obtain ⟨hne, hmfree⟩ := isFree_visit_visitEach.1 h p node hfree m hmfree
    rw [List.mem_append, List.mem_singleton] at hm
    cases hm with
    | inl hm => exact hpainted m hm hmfree
    | inr hm => exact hne hm
  case painted =>
    intro h p node nodes hnot ih child before rest arrived hparents hpainted harrived
    rw [visitEach_cons_of_not_free hnot]
    refine ih child (before ++ [node]) rest arrived (by simp [hparents]) ?_ ?_
    · intro m hm
      rw [List.mem_append, List.mem_singleton] at hm
      cases hm with
      | inl hm => exact hpainted m hm
      | inr hm => rwa [hm]
    · intro htrue
      obtain ⟨m, hm, hmfree⟩ := harrived htrue
      have hne : m ≠ node := by
        intro heq
        exact hnot (heq ▸ hmfree)
      exact ⟨m, List.mem_of_ne_of_mem hne hm, hmfree⟩

/-! ## a walk as a loop -/

/-- One round of a walk.  The node on top of the stack gets the open lane if it
has none.  Then its first free parent is put on the stack; where there is none
the node is taken off, and the lane is closed if the node has just got it. -/
def round (h : History) (p : Painting) (node : Nat) (rest : List Nat) : Painting × List Nat :=
  let arrived := p.isFree node
  let q := if arrived then p.give node else p
  match (h.loadedParents node).find? q.isFree with
  | some parent => (q, parent :: node :: rest)
  | none => (q.leave arrived, rest)

/-- The rounds from a stack on until it is empty. -/
inductive Rounds (h : History) : Painting → List Nat → Painting → Prop where
  | done {p : Painting} : Rounds h p [] p
  | next {p q : Painting} {node : Nat} {rest : List Nat} :
      Rounds h (round h p node rest).1 (round h p node rest).2 q → Rounds h p (node :: rest) q

/-- The rounds from a stack on come to one end. -/
theorem Rounds.unique (hq : Rounds h p stack q) (hq' : Rounds h p stack q') : q = q' := by
  induction hq with
  | done => cases hq'; rfl
  | next _ ih =>
      cases hq' with
      | next hq' => exact ih hq'

/-- What a round that starts with the lanes `r` makes of them before it looks at
the parents of the node on top: every node on the stack is painted by then. -/
inductive Entered (r : Painting) : Painting → List Nat → Bool → Prop where
  | back {stack : List Nat} : (∀ s ∈ stack, ¬ r.isFree s = true) → Entered r r stack false
  | arrived {node : Nat} {rest : List Nat} : r.isFree node = true →
      (∀ s ∈ rest, ¬ r.isFree s = true) → Entered r (r.give node) (node :: rest) true

theorem isFree_leave {arrived : Bool} : (p.leave arrived).isFree n = p.isFree n := by
  cases arrived <;> rfl

variable {r : Painting} {arrived : Bool}

theorem Entered.painted (hp : Entered r p stack arrived) : ∀ s ∈ stack, ¬ p.isFree s = true := by
  cases hp with
  | back hpainted => exact hpainted
  | arrived hfree hpainted =>
      intro s hs hsfree
      obtain ⟨hne, hsfree⟩ := (isFree_give hfree).mp hsfree
      exact hpainted s (List.mem_of_ne_of_mem hne hs) hsfree

theorem Entered.round_eq (hp : Entered r p (node :: rest) arrived) :
    round h r node rest =
      match (h.loadedParents node).find? p.isFree with
      | some parent => (p, parent :: node :: rest)
      | none => (p.leave arrived, rest) := by
  cases hp with
  | back hpainted =>
      have hnode : p.isFree node = false := by simpa using hpainted node (List.mem_cons_self ..)
      simp [round, hnode]
  | arrived hfree _ => simp [round, hfree]

/-- The loop ends where the walk does. -/
theorem rounds_descend (h : History) (p : Painting) (stack : List Nat) (arrived : Bool) :
    ∀ {r}, Entered r p stack arrived → Rounds h r stack (p.descend h stack arrived) := by
  induction p, stack, arrived using descend.induct h with
  | case1 p arrived =>
      intro r hp
      rw [descend]
      cases hp
      exact .done
  | case2 p arrived node rest parent hfound ih =>
      intro r hp
      rw [descend_push hfound]
      refine .next ?_
      rw [hp.round_eq, hfound]
      exact ih (.arrived (List.find?_some hfound) hp.painted)
  | case3 p arrived node rest hnone ih =>
      intro r hp
      rw [descend_pop hnone]
      refine .next ?_
      rw [hp.round_eq, hnone]
      refine ih (.back fun s hs => ?_)
      rw [isFree_leave]
      exact hp.painted s (List.mem_cons_of_mem _ hs)

/-- A walk from a free node, the loop from it and a visit of it are one.  The lane
that they give is `p.closed + 1`: a counter of lanes is at least `1` in every
painting, so no node that has its lane is taken for a free one. -/
theorem paint_eq_visit (h : History) {p : Painting} {start : Nat} (hfree : p.isFree start = true) :
    p.paint h start = (visit h p start hfree).1 ∧
      ∀ q, Rounds h p [start] q ↔ q = (visit h p start hfree).1 := by
  have hpaint : p.paint h start = (visit h p start hfree).1 := by
    rw [paint, descend_visit.1 h p start hfree [], descend]
  have hrounds : Rounds h p [start] (p.paint h start) :=
    rounds_descend h _ _ _ (.arrived hfree (by simp))
  refine ⟨hpaint, fun q => ?_⟩
  rw [← hpaint]
  constructor
  · intro hq
    exact hq.unique hrounds
  · intro heq
    rwa [heq]

/-- A merge whose side is free, its base painted before. -/
theorem paint_eq_visit_merge : ∃ hfree : (⟨#[3, 0, 0], 3⟩ : Painting).isFree 1 = true,
    (⟨#[3, 0, 0], 3⟩ : Painting).paint History.mergeHistory 1 =
      (visit History.mergeHistory ⟨#[3, 0, 0], 3⟩ 1 hfree).1 ∧
    ∀ q, Rounds History.mergeHistory ⟨#[3, 0, 0], 3⟩ [1] q ↔
      q = (visit History.mergeHistory ⟨#[3, 0, 0], 3⟩ 1 hfree).1 := by
  have hfree : (⟨#[3, 0, 0], 3⟩ : Painting).isFree 1 = true := by decide
  exact ⟨hfree, paint_eq_visit History.mergeHistory hfree⟩

/-- The side has no free parent, so the lane of the merge is closed there. -/
example : ((⟨#[3, 0, 0], 3⟩ : Painting).paint History.mergeHistory 1).lanes = #[3, 4, 4] ∧
    ((⟨#[3, 0, 0], 3⟩ : Painting).paint History.mergeHistory 1).closed = 4 := by
  constructor
  · cbv
  · cbv

end Painting

end Lineage
