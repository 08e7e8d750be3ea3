import Mathlib.Logic.Relation

/-!
# Lineage.Proofs.Via

Paths whose inner points are hidden, which is what an edge of a view stands
for.

* `Via.flatten`, `Via.group` — hiding points in two stages comes to the same
  as hiding them at once.
* `Mirrors` — one relation on points of two kinds, with the same paths.
-/

namespace Lineage

variable {β : Type} {link link' : β → β → Prop} {hidden hidden' : β → Prop} {a b m : β}

/-- A path of one or more links whose inner points are all hidden. -/
inductive Via (link : β → β → Prop) (hidden : β → Prop) : β → β → Prop where
  | single {a b : β} : link a b → Via link hidden a b
  | cons {a m b : β} : link a m → hidden m → Via link hidden m b → Via link hidden a b

namespace Via

theorem mono (hlink : ∀ {x y}, link x y → link' x y) (hhide : ∀ {x}, hidden x → hidden' x)
    (h : Via link hidden a b) : Via link' hidden' a b := by
  induction h with
  | single hab => exact .single (hlink hab)
  | cons ham hm _ ih => exact .cons (hlink ham) (hhide hm) ih

theorem trans (h : Via link hidden a m) (hm : hidden m) (h' : Via link hidden m b) :
    Via link hidden a b := by
  induction h with
  | single ham => exact .cons ham hm h'
  | cons hax hx _ ih => exact .cons hax hx (ih hm h')

theorem transGen (h : Via link hidden a b) : Relation.TransGen link a b := by
  induction h with
  | single hab => exact .single hab
  | cons ham _ _ ih => exact .head ham ih

/-- A path starts and ends with a link. -/
theorem ends (h : Via link hidden a b) : (∃ m, link a m) ∧ ∃ m, link m b := by
  obtain ⟨m, hm, _⟩ := Relation.TransGen.head'_iff.mp h.transGen
  obtain ⟨n, _, hn⟩ := Relation.TransGen.tail'_iff.mp h.transGen
  exact ⟨⟨m, hm⟩, n, hn⟩

/-- A path in a relation that follows another one step by step. -/
theorem simulate {γ : Type} {link' : γ → γ → Prop} {hidden' : γ → Prop} (R : β → γ → Prop)
    (hlink : ∀ {x y x'}, link x y → R x x' → ∃ y', R y y' ∧ link' x' y')
    (hhide : ∀ {x x'}, hidden x → R x x' → hidden' x') (h : Via link hidden a b) {a' : γ}
    (ha : R a a') : ∃ b', R b b' ∧ Via link' hidden' a' b' := by
  induction h generalizing a' with
  | single hab =>
      obtain ⟨b', hb, hlink⟩ := hlink hab ha
      exact ⟨b', hb, .single hlink⟩
  | cons ham hm _ ih =>
      obtain ⟨m', hm', hlink⟩ := hlink ham ha
      obtain ⟨b', hb, hvia⟩ := ih hm'
      exact ⟨b', hb, .cons hlink (hhide hm hm') hvia⟩

/-- A set that is closed under links holds the end of a path, and its inner
points, if it holds the start. -/
theorem restrict {P : β → Prop} (hclosed : ∀ {x y}, P x → link x y → P y) (ha : P a)
    (h : Via link hidden a b) : Via link (fun x => hidden x ∧ P x) a b := by
  induction h with
  | single hab => exact .single hab
  | cons ham hm _ ih => exact .cons ham ⟨hm, hclosed ha ham⟩ (ih (hclosed ha ham))

/-- Paths of paths are paths. -/
theorem flatten {stage : β → Prop} (hstage : ∀ {x}, stage x → hidden x)
    (hhide : ∀ {x}, hidden' x → hidden x) (h : Via (Via link stage) hidden' a b) :
    Via link hidden a b := by
  induction h with
  | single hab => exact hab.mono id hstage
  | cons ham hm _ ih => exact (ham.mono id hstage).trans (hhide hm) ih

/-- A path between points of `S` is one of paths between points of `S` that
pass through no other. -/
theorem group {S H : β → Prop} (hS : ∀ {x}, hidden x → S x → H x) (ha : S a) (hb : S b)
    (h : Via link hidden a b) :
    Via (fun u v => S u ∧ S v ∧ Via link (fun x => ¬ S x) u v) H a b := by
  have hfirst : ∀ {a b}, Via link hidden a b → S b → Via link (fun x => ¬ S x) a b ∨
      ∃ m, S m ∧ hidden m ∧ Via link (fun x => ¬ S x) a m ∧
        Via (fun u v => S u ∧ S v ∧ Via link (fun x => ¬ S x) u v) H m b := by
    intro a b h hb
    induction h with
    | single hab => exact Or.inl (.single hab)
    | @cons a m b ham hm _ ih =>
        by_cases hmS : S m
        · refine Or.inr ⟨m, hmS, hm, .single ham, ?_⟩
          rcases ih hb with hmb | ⟨k, hk, hkh, hmk, hkb⟩
          · exact .single ⟨hmS, hb, hmb⟩
          · exact .cons ⟨hmS, hk, hmk⟩ (hS hkh hk) hkb
        · rcases ih hb with hmb | ⟨k, hk, hkh, hmk, hkb⟩
          · exact Or.inl (.cons ham hmS hmb)
          · exact Or.inr ⟨k, hk, hkh, .cons ham hmS hmk, hkb⟩
  rcases hfirst h hb with hab | ⟨m, hm, hmh, ham, hmb⟩
  · exact .single ⟨ha, hb, hab⟩
  · exact .cons ⟨ha, hm, ham⟩ (hS hmh hm) hmb

end Via

/-- Where no point is hidden, paths are links. -/
theorem via_iff_of_not_hidden (h : ∀ x, ¬ hidden x) : Via link hidden a b ↔ link a b := by
  constructor
  · intro hvia
    cases hvia with
    | single hab => exact hab
    | cons _ hm _ => exact absurd hm (h _)
  · exact .single

/-- Where every point may be hidden, paths are the transitive closure. -/
theorem via_true_iff : Via link (fun _ => True) a b ↔ Relation.TransGen link a b := by
  refine ⟨Via.transGen, fun h => ?_⟩
  induction h using Relation.TransGen.head_induction_on with
  | single hab => exact .single hab
  | head ham _ ih => exact .cons ham trivial ih

/-! ## points that stand for one another -/

variable {γ : Type} {R : β → γ → Prop} {linkOn : γ → γ → Prop} {hiddenOn : γ → Prop} {a' b' : γ}

/-- One relation on points of two kinds, which stand for one another: they are
linked in the same way, and a link leads to a point that has one to stand for
it. -/
structure Mirrors (R : β → γ → Prop) (link : β → β → Prop) (linkOn : γ → γ → Prop) : Prop where
  unique : ∀ {x y y'}, R x y → R x y' → y = y'
  inj : ∀ {x x' y}, R x y → R x' y → x = x'
  link_iff : ∀ {x x' y y'}, R x y → R x' y' → (link x x' ↔ linkOn y y')
  target : ∀ {x x'}, link x x' → ∃ y, R x' y
  target_on : ∀ {y y'}, linkOn y y' → ∃ x, R x y'

namespace Mirrors

theorem via_iff (hm : Mirrors R link linkOn)
    (hhide : ∀ {x y}, R x y → (hidden x ↔ hiddenOn y)) (ha : R a a') (hb : R b b') :
    Via link hidden a b ↔ Via linkOn hiddenOn a' b' := by
  constructor
  · intro hvia
    obtain ⟨c, hc, hvia⟩ := hvia.simulate R (fun hxy hx => by
      obtain ⟨y', hy⟩ := hm.target hxy
      exact ⟨y', hy, (hm.link_iff hx hy).mp hxy⟩) (fun hx h => (hhide h).mp hx) ha
    rwa [hm.unique hb hc]
  · intro hvia
    obtain ⟨c, hc, hvia⟩ := hvia.simulate (fun y x => R x y) (fun hxy hx => by
      obtain ⟨y', hy⟩ := hm.target_on hxy
      exact ⟨y', hy, (hm.link_iff hx hy).mpr hxy⟩) (fun hx h => (hhide h).mpr hx) ha
    rwa [hm.inj hb hc]

theorem transGen_iff (hm : Mirrors R link linkOn) (ha : R a a') (hb : R b b') :
    Relation.TransGen link a b ↔ Relation.TransGen linkOn a' b' := by
  rw [← via_true_iff, ← via_true_iff]
  exact hm.via_iff (fun _ => Iff.rfl) ha hb

theorem reflTransGen_iff (hm : Mirrors R link linkOn) (ha : R a a') (hb : R b b') :
    Relation.ReflTransGen link a b ↔ Relation.ReflTransGen linkOn a' b' := by
  rw [Relation.reflTransGen_iff_eq_or_transGen, Relation.reflTransGen_iff_eq_or_transGen,
    hm.transGen_iff ha hb]
  refine or_congr_left ?_
  constructor
  · rintro rfl
    exact hm.unique hb ha
  · rintro rfl
    exact hm.inj hb ha

end Mirrors

end Lineage
