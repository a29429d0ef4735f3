import Mathlib.Algebra.BigOperators.Group.List.Basic
import Mathlib.Algebra.GroupWithZero.Associated
import Mathlib.RingTheory.Nilpotent.Basic
import Mathlib.Tactic.Ring

/-!
# Affine accumulators

An accumulator in a commutative ring takes a step `a ↦ gain * a + shift` for each item. Two
accumulators that take the same steps stay apart by their first difference times the product
of the gains (`run_sub`), so they meet exactly where that product vanishes (`run_eq_iff`).
What matters of the gains is their class up to units (`prod_associated`).
-/

namespace Lib

universe u

/-- A step of an accumulator. -/
structure Affine (R : Type u) where
  gain : R
  shift : R

namespace Affine

section run

variable {R : Type u} [CommRing R]

def apply (f : Affine R) (a : R) : R := f.gain * a + f.shift

/-- The steps one after the other. -/
def run (fs : List (Affine R)) (a : R) : R := fs.foldl (fun a f => f.apply a) a

theorem run_cons (f : Affine R) (fs : List (Affine R)) (a : R) :
    run (f :: fs) a = run fs (f.apply a) := rfl

theorem apply_sub (f : Affine R) (a b : R) : f.apply a - f.apply b = (a - b) * f.gain := by
  unfold apply
  ring

/-- What two accumulators differ by after the same steps. -/
theorem run_sub (fs : List (Affine R)) (a b : R) :
    run fs a - run fs b = (a - b) * (fs.map gain).prod := by
  induction fs generalizing a b with
  | nil => simp [run]
  | cons f fs ih => rw [run_cons, run_cons, ih, apply_sub, List.map_cons, List.prod_cons, mul_assoc]

theorem run_eq_iff (fs : List (Affine R)) (a b : R) :
    run fs a = run fs b ↔ (a - b) * (fs.map gain).prod = 0 := by
  rw [← run_sub, sub_eq_zero]

end run

end Affine

section units

variable {R : Type u} [CommRing R]

/-- Products of factors that are the same up to units are so too. -/
theorem prod_associated {α : Type u} {f g : α → R} (h : ∀ v, Associated (f v) (g v))
    (vs : List α) : Associated (vs.map f).prod (vs.map g).prod := by
  induction vs with
  | nil => exact Associated.refl _
  | cons v vs ih =>
    rw [List.map_cons, List.map_cons, List.prod_cons, List.prod_cons]
    exact (h v).mul_mul ih

/-- A product vanishes where that of the associated factors does. -/
theorem mul_prod_eq_zero_iff {α : Type u} {f g : α → R} (h : ∀ v, Associated (f v) (g v))
    (d : R) (vs : List α) : d * (vs.map f).prod = 0 ↔ d * (vs.map g).prod = 0 :=
  ((prod_associated h vs).mul_left d).eq_zero_iff

/-- Where 2 is nilpotent, one more than an even number is a unit. -/
theorem isUnit_one_add_two_mul (h : IsNilpotent (2 : R)) (k : R) : IsUnit (1 + 2 * k) :=
  ((Commute.all 2 k).isNilpotent_mul_right h).isUnit_one_add

end units

end Lib
