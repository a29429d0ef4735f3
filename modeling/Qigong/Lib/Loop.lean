import Mathlib.Logic.Relation
import Mathlib.Order.WellFounded

/-!
# Loops

A loop is a function `turn : σ → σ ⊕ ρ`: one turn takes the variables of the loop to their
next values, or ends the loop with a result. Whether a loop ends is a question of its own,
so a loop is run with a number of turns it may take:

- `loop`: the result within that many turns; `Returns`: the result with enough of them;
- `Turns`: the values the variables come through;
- `Turns.invariant`: what every turn preserves holds all along;
- `exists_returns`: a loop ends when each of its turns takes a measure down;
- `not_returns`: it does not when the variables come back, again and again, to a set of
  values.
-/

namespace Lib

universe u v w

variable {σ : Type u} {ρ : Type v}

/-- The result of a loop within `fuel` turns. -/
def loop (turn : σ → σ ⊕ ρ) : (fuel : Nat) → σ → Option ρ
  | 0, _ => none
  | fuel + 1, x =>
    match turn x with
    | .inl y => loop turn fuel y
    | .inr r => some r

/-- The loop ends, with this result. -/
def Returns (turn : σ → σ ⊕ ρ) (x : σ) (r : ρ) : Prop := ∃ fuel, loop turn fuel x = some r

/-- The loop comes from `x` to `y`. -/
abbrev Turns (turn : σ → σ ⊕ ρ) : σ → σ → Prop :=
  Relation.ReflTransGen fun a b => turn a = .inl b

/-- Where a loop is after so many turns. -/
def after (turn : σ → σ ⊕ ρ) : (n : Nat) → σ → Option σ
  | 0, x => some x
  | n + 1, x =>
    match turn x with
    | .inl y => after turn n y
    | .inr _ => none

variable {turn : σ → σ ⊕ ρ} {x y : σ} {r : ρ}

theorem loop_inl (h : turn x = .inl y) (fuel : Nat) :
    loop turn (fuel + 1) x = loop turn fuel y := by
  rw [loop, h]

theorem loop_inr (h : turn x = .inr r) (fuel : Nat) : loop turn (fuel + 1) x = some r := by
  rw [loop, h]

theorem Returns.of_inr (h : turn x = .inr r) : Returns turn x r := ⟨1, loop_inr h 0⟩

theorem Returns.of_inl (h : turn x = .inl y) (hy : Returns turn y r) : Returns turn x r := by
  obtain ⟨fuel, hfuel⟩ := hy
  exact ⟨fuel + 1, (loop_inl h fuel).trans hfuel⟩

theorem Returns.of_turns (h : Turns turn x y) (hy : Returns turn y r) : Returns turn x r := by
  induction h using Relation.ReflTransGen.head_induction_on with
  | refl => exact hy
  | head hab _ ih => exact .of_inl hab ih

theorem Turns.of_after {n : Nat} (h : after turn n x = some y) : Turns turn x y := by
  induction n generalizing x with
  | zero => exact Option.some.inj h ▸ .refl
  | succ n ih =>
    rw [after] at h
    split at h
    case h_1 hx => exact .head hx (ih h)
    case h_2 => cases h

/-- A loop that ends within some turns ends within no more of them from where it comes. -/
theorem loop_of_turns (h : Turns turn x y) {fuel : Nat} (hx : loop turn fuel x = some r) :
    ∃ fuel' ≤ fuel, loop turn fuel' y = some r := by
  induction h using Relation.ReflTransGen.head_induction_on generalizing fuel with
  | refl => exact ⟨fuel, le_rfl, hx⟩
  | head hab _ ih =>
    cases fuel with
    | zero => cases hx
    | succ fuel =>
      obtain ⟨fuel', hle, hy⟩ := ih ((loop_inl hab fuel).symm.trans hx)
      exact ⟨fuel', Nat.le_succ_of_le hle, hy⟩

/-- The result of a loop is that of any of its later turns. -/
theorem Returns.turns (hx : Returns turn x r) (h : Turns turn x y) : Returns turn y r := by
  obtain ⟨fuel, hfuel⟩ := hx
  obtain ⟨fuel', -, hy⟩ := loop_of_turns h hfuel
  exact ⟨fuel', hy⟩

/-- A loop ends where one of its turns gives the result. -/
theorem returns_iff : Returns turn x r ↔ ∃ y, Turns turn x y ∧ turn y = .inr r := by
  refine ⟨?_, fun ⟨y, hy, hr⟩ => .of_turns hy (.of_inr hr)⟩
  rintro ⟨fuel, h⟩
  induction fuel generalizing x with
  | zero => cases h
  | succ fuel ih =>
    cases hx : turn x with
    | inl y =>
      obtain ⟨z, hz, hr⟩ := ih ((loop_inl hx fuel).symm.trans h)
      exact ⟨z, .head hx hz, hr⟩
    | inr r' =>
      rw [loop_inr hx fuel] at h
      exact ⟨x, .refl, hx.trans (congrArg _ (Option.some.inj h))⟩

/-- A loop has one result. -/
theorem Returns.unique {r' : ρ} (h : Returns turn x r) (h' : Returns turn x r') : r = r' := by
  obtain ⟨y, hy, hr⟩ := returns_iff.mp h
  obtain ⟨fuel, hfuel⟩ := h'.turns hy
  cases fuel with
  | zero => cases hfuel
  | succ fuel => exact Option.some.inj ((loop_inr hr fuel).symm.trans hfuel)

/-- **Invariant rule.** What every turn preserves holds of all the loop comes to. -/
theorem Turns.invariant {I : σ → Prop} (hturn : ∀ a b, I a → turn a = .inl b → I b)
    (h : Turns turn x y) (hx : I x) : I y := by
  induction h with
  | refl => exact hx
  | tail _ hbc ih => exact hturn _ _ ih hbc

/-- **Termination rule.** A loop ends when each turn, from values that meet an invariant,
takes a measure down. -/
theorem exists_returns {α : Type w} [LT α] [WellFoundedLT α] {I : σ → Prop} (μ : σ → α)
    (hturn : ∀ a b, I a → turn a = .inl b → I b ∧ μ b < μ a) (hx : I x) :
    ∃ r, Returns turn x r := by
  induction h : μ x using WellFoundedLT.induction generalizing x with
  | ind m ih =>
    subst h
    cases ht : turn x with
    | inr r => exact ⟨r, .of_inr ht⟩
    | inl y =>
      obtain ⟨hy, hlt⟩ := hturn x y hx ht
      obtain ⟨r, hr⟩ := ih (μ y) hlt hy rfl
      exact ⟨r, .of_inl ht hr⟩

/-- **Divergence rule.** A loop does not end when it comes back, from each value of a set,
to a value of the set. -/
theorem not_returns {D : σ → Prop}
    (hback : ∀ a, D a → ∃ b c, turn a = .inl b ∧ Turns turn b c ∧ D c) (hx : D x) (r : ρ) :
    ¬ Returns turn x r := by
  rintro ⟨fuel, h⟩
  induction fuel using Nat.strong_induction_on generalizing x with
  | h fuel ih =>
    obtain ⟨y, z, hy, hz, hd⟩ := hback x hx
    cases fuel with
    | zero => cases h
    | succ fuel =>
      obtain ⟨fuel', hle, hend⟩ := loop_of_turns hz ((loop_inl hy fuel).symm.trans h)
      exact ih fuel' (Nat.lt_succ_of_le hle) hd hend

end Lib
