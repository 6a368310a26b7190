import Mathlib

/-!
# Postconditions of partial computations

`Ensures P a` says that a result of `a`, if there is one, meets `P`. The rules
follow the way a computation is put together.
-/

namespace PandOSsh.Library

variable {α β : Type*}

def Ensures (P : α → Prop) (a : Option α) : Prop := ∀ x, a = some x → P x

namespace Ensures
variable {P : α → Prop} {R : β → Prop}

theorem none : Ensures P Option.none := fun _ h => nomatch h

theorem pure {x : α} (h : P x) : Ensures P (some x) := by
  intro y hy
  rw [← Option.some.inj hy]
  exact h

theorem any {a : Option α} : Ensures (fun _ => True) a := fun _ _ => trivial

theorem mono {P' : α → Prop} {a : Option α} (h : Ensures P a) (hP : ∀ x, P x → P' x) :
    Ensures P' a := fun x hx => hP x (h x hx)

theorem bind {a : Option α} {f : α → Option β} (h : Ensures P a)
    (hk : ∀ x, P x → Ensures R (f x)) : Ensures R (a.bind f) := by
  intro y hy
  obtain ⟨x, hx, hf⟩ := Option.bind_eq_some_iff.mp hy
  exact hk x (h x hx) y hf

theorem map {a : Option α} {f : α → β} (h : Ensures P a) (hk : ∀ x, P x → R (f x)) :
    Ensures R (a.map f) := by
  intro y hy
  obtain ⟨x, hx, rfl⟩ := Option.map_eq_some_iff.mp hy
  exact hk x (h x hx)

theorem ite {p : Prop} [Decidable p] {a b : Option α} (ha : p → Ensures P a)
    (hb : ¬ p → Ensures P b) : Ensures P (if p then a else b) := by
  by_cases hp : p
  · rw [if_pos hp]
    exact ha hp
  · rw [if_neg hp]
    exact hb hp

end Ensures
end PandOSsh.Library
