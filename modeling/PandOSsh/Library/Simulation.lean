import Mathlib

/-!
# Forward simulation of partial computations

The abstract computation is partial: `none` marks a use outside its contract.
`Simulates R a b` says that every result of the abstract `b` is matched by a
result of the concrete `a`. Simulations compose along `bind`, so a program
written against an interface is simulated step by step.
-/

namespace PandOSsh.Library

variable {α β γ δ : Type*}

def Simulates (R : α → β → Prop) (a : Option α) (b : Option β) : Prop :=
  ∀ y, b = some y → ∃ x, a = some x ∧ R x y

namespace Simulates
variable {R : α → β → Prop} {S : γ → δ → Prop}

theorem none {a : Option α} : Simulates R a none := fun _ h => nomatch h

theorem pure {x : α} {y : β} (h : R x y) : Simulates R (some x) (some y) := by
  rintro _ ⟨⟩
  exact ⟨x, rfl, h⟩

theorem bind {a : Option α} {b : Option β} {f : α → Option γ} {g : β → Option δ}
    (h : Simulates R a b) (hk : ∀ x y, R x y → Simulates S (f x) (g y)) :
    Simulates S (a.bind f) (b.bind g) := by
  intro z hz
  obtain ⟨y, hy, hg⟩ := Option.bind_eq_some_iff.mp hz
  obtain ⟨x, hx, hxy⟩ := h y hy
  obtain ⟨w, hw, hwz⟩ := hk x y hxy z hg
  exact ⟨w, by rw [hx]; exact hw, hwz⟩

theorem map {a : Option α} {b : Option β} {f : α → γ} {g : β → δ}
    (h : Simulates R a b) (hk : ∀ x y, R x y → S (f x) (g y)) :
    Simulates S (a.map f) (b.map g) := by
  intro z hz
  obtain ⟨y, hy, rfl⟩ := Option.map_eq_some_iff.mp hz
  obtain ⟨x, hx, hxy⟩ := h y hy
  exact ⟨f x, by rw [hx]; rfl, hk x y hxy⟩

/-- Branches of one test, evaluated alike on both sides. -/
theorem ite {p q : Prop} [Decidable p] [Decidable q] {a a' : Option α} {b b' : Option β}
    (hp : p ↔ q) (h : q → Simulates R a b) (h' : ¬ q → Simulates R a' b') :
    Simulates R (if p then a else a') (if q then b else b') := by
  by_cases hq : q
  · rw [if_pos (hp.mpr hq), if_pos hq]
    exact h hq
  · rw [if_neg (fun h => hq (hp.mp h)), if_neg hq]
    exact h' hq

/-- A guard on the abstract side only strengthens what may be used. -/
theorem guard {q : Prop} [Decidable q] {a : Option α} {b : Option β}
    (h : q → Simulates R a b) : Simulates R a (if q then b else Option.none) := by
  by_cases hq : q
  · rw [if_pos hq]
    exact h hq
  · rw [if_neg hq]
    exact none

end Simulates
end PandOSsh.Library
