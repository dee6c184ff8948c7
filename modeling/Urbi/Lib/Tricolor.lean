import Mathlib.Logic.Function.Basic
import Mathlib.Logic.Relation

/-!
# Tricolour marking

White nodes have not been met, gray ones have been met but their successors have not been looked at,
black ones are done with.
-/

namespace Urbi.Lib

inductive Color where
  | white
  | gray
  | black
  deriving DecidableEq, Repr

section

variable {α : Type*} (succ : α → List α) (root : α → Prop)

def Reachable (x : α) : Prop := ∃ r, root r ∧ Relation.ReflTransGen (fun a b => b ∈ succ a) r x

variable {succ root}

theorem Reachable.of_root {x : α} (h : root x) : Reachable succ root x := ⟨x, h, .refl⟩

theorem Reachable.step {x y : α} (h : Reachable succ root x) (hy : y ∈ succ x) :
    Reachable succ root y := by
  obtain ⟨r, hr, hpath⟩ := h
  exact ⟨r, hr, hpath.tail hy⟩

theorem Reachable.holds {P : α → Prop} (hroot : ∀ x, root x → P x)
    (hstep : ∀ x y, P x → y ∈ succ x → P y) {x : α} (h : Reachable succ root x) : P x := by
  obtain ⟨r, hr, hpath⟩ := h
  induction hpath with
  | refl => exact hroot r hr
  | tail _ hy ih => exact hstep _ _ ih hy

variable (succ root) in
structure Tricolor (color : α → Color) : Prop where
  sound : ∀ x, color x ≠ .white → Reachable succ root x
  traced : ∀ x, color x = .black → ∀ y ∈ succ x, color y ≠ .white

theorem Tricolor.exact {color : α → Color} (h : Tricolor succ root color)
    (hroots : ∀ x, root x → color x ≠ .white)
    (hgray : ∀ x, Reachable succ root x → color x ≠ .gray) (x : α) :
    color x ≠ .white ↔ Reachable succ root x := by
  refine ⟨h.sound x, fun hx => ?_⟩
  apply hx.holds hroots
  intro a b ha hb
  have hblack : color a = .black := by
    have hng := hgray a (h.sound a ha)
    cases hc : color a with
    | white => exact absurd hc ha
    | gray => exact absurd hc hng
    | black => rfl
  exact h.traced a hblack b hb

variable [DecidableEq α]

theorem Tricolor.meet {color : α → Color} (h : Tricolor succ root color) {x : α}
    (hx : Reachable succ root x) (hwhite : color x = .white) :
    Tricolor succ root (Function.update color x .gray) := by
  have hother : ∀ y, color y ≠ .white → Function.update color x .gray y = color y := by
    intro y hy
    apply Function.update_of_ne
    rintro rfl
    exact hy hwhite
  constructor
  · intro y hy
    by_cases hyx : y = x
    · exact hyx ▸ hx
    · exact h.sound y (by rwa [Function.update_of_ne hyx] at hy)
  · intro y hy z hz
    have hyx : y ≠ x := by
      rintro rfl
      rw [Function.update_self] at hy
      cases hy
    rw [Function.update_of_ne hyx] at hy
    have hmarked := h.traced y hy z hz
    rwa [hother z hmarked]

theorem Tricolor.finish {color : α → Color} (h : Tricolor succ root color) {x : α}
    (hx : color x ≠ .white) (hsucc : ∀ y ∈ succ x, color y ≠ .white) :
    Tricolor succ root (Function.update color x .black) := by
  have hkeep : ∀ y, color y ≠ .white → Function.update color x .black y ≠ .white := by
    intro y hy
    by_cases hyx : y = x
    · subst hyx
      rw [Function.update_self]
      decide
    · rwa [Function.update_of_ne hyx]
  constructor
  · intro y hy
    by_cases hyx : y = x
    · exact hyx ▸ h.sound x hx
    · exact h.sound y (by rwa [Function.update_of_ne hyx] at hy)
  · intro y hy z hz
    by_cases hyx : y = x
    · exact hkeep z (hsucc z (hyx ▸ hz))
    · rw [Function.update_of_ne hyx] at hy
      exact hkeep z (h.traced y hy z hz)

end

end Urbi.Lib
