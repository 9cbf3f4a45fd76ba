import Mathlib.Logic.Relation
import Mathlib.Data.Set.Basic

/-!
# Shared ownership

Objects keep each other alive through owning references, and a program keeps some of them alive
through its own, the roots.  Where no object owns itself, an object has an owner that is alive
exactly while it is `Owned`.

* `Owned roots owns x`   a path of owning references leads from a root to `x`;
* `Owned.mono`           more roots and more references own more;
* `Owned.closed`         what holds of the roots, and of all that something it holds of owns,
                         holds of everything owned;
* `Owned.back`           what is owned after new objects were made was owned before, or is new.
-/

namespace Pharoah

section
variable {α : Type}

/-- Some root owns `x`, at once or through other objects. -/
def Owned (roots : α → Prop) (owns : α → α → Prop) (x : α) : Prop :=
  ∃ r, roots r ∧ Relation.ReflTransGen owns r x

namespace Owned
variable {roots roots' : α → Prop} {owns owns' : α → α → Prop} {x y : α}

theorem root (h : roots x) : Owned roots owns x := ⟨x, h, .refl⟩

theorem step (h : Owned roots owns x) (hxy : owns x y) : Owned roots owns y := by
  obtain ⟨r, hr, hx⟩ := h
  exact ⟨r, hr, hx.tail hxy⟩

/-- what holds of the roots and passes on to what they own -/
theorem closed {P : α → Prop} (hroot : ∀ r, roots r → P r) (hstep : ∀ p q, P p → owns p q → P q)
    (h : Owned roots owns x) : P x := by
  obtain ⟨r, hr, hx⟩ := h
  induction hx with
  | refl => exact hroot r hr
  | tail _ hpq ih => exact hstep _ _ ih hpq

/-- Where new roots and new references own no more than the new objects `N`, and these own nothing,
every other object has the owners that it had before. -/
theorem back {N : α → Prop} (hroot : ∀ r, roots' r → roots r ∨ N r)
    (howns : ∀ p q, owns' p q → owns p q ∨ N q) (hnew : ∀ p q, N p → ¬ owns p q)
    (h : Owned roots' owns' x) : Owned roots owns x ∨ N x := by
  refine h.closed (P := fun x => Owned roots owns x ∨ N x)
    (fun r hr => (hroot r hr).imp_left root) fun p q hp hpq => ?_
  obtain ho | hq := howns p q hpq
  · obtain hp | hp := hp
    · exact Or.inl (hp.step ho)
    · exact absurd ho (hnew p q hp)
  · exact Or.inr hq

theorem mono (hroot : ∀ r, roots r → roots' r) (howns : ∀ p q, owns p q → owns' p q)
    (h : Owned roots owns x) : Owned roots' owns' x :=
  h.closed (fun r hr => root (hroot r hr)) (fun p q hp hpq => hp.step (howns p q hpq))

end Owned
end
end Pharoah
