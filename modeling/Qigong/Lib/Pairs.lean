import Mathlib.Algebra.GroupWithZero.Nat
import Mathlib.Data.List.Basic

/-!
# Counting ends, two of a pair as one

Some elements of a text are ends, and an end that is followed by its partner makes one with
it (`Ends`): they are counted from the left, each element in one pair at most (`count`). A text
that is counted in blocks, each by itself, counts a pair that is cut as two.

- `countFrom`: the count of a text behind an end that is still without partner, which comes
  apart with the text (`countFrom_append`);
- `count_eq`: of a block counted by itself, it is too great by one where the block begins
  with an odd number of elements that would each pair with the one before (`chain`);
- `sum_count`: so the counts of blocks come to the count of the whole exactly where that
  number is even behind every cut (`cuts`).
-/

namespace Lib

universe u

/-- Ends, and which two of them make a pair. -/
structure Ends (α : Type u) where
  isEnd : α → Bool
  pair : α → α → Bool
  isEnd_of_pair : ∀ c d, pair c d = true → isEnd c = true ∧ isEnd d = true

namespace Ends

variable {α : Type u} (E : Ends α)

/-- The ends of a text. -/
def count : List α → Nat
  | [] => 0
  | [c] => if E.isEnd c then 1 else 0
  | c :: d :: s =>
    if E.isEnd c then
      if E.pair c d then count s + 1 else count (d :: s) + 1
    else count (d :: s)

/-- The ends of a text behind an end without partner. -/
def countFrom : Option α → List α → Nat
  | _, [] => 0
  | half, c :: s =>
    if half.any (E.pair · c) then countFrom none s
    else if E.isEnd c then countFrom (some c) s + 1
    else countFrom none s

/-- The end without partner behind a text. -/
def halfFrom : Option α → List α → Option α
  | half, [] => half
  | half, c :: s =>
    if half.any (E.pair · c) then halfFrom none s
    else if E.isEnd c then halfFrom (some c) s
    else halfFrom none s

/-- How many elements, one after the other, pair with the one before. -/
def chain : α → List α → Nat
  | _, [] => 0
  | c, d :: s => if E.pair c d then chain d s + 1 else 0

/-- What is counted too much in the blocks. -/
def cuts : Option α → List (List α) → Nat
  | _, [] => 0
  | half, b :: bs => (half.map fun c => E.chain c b % 2).getD 0 + cuts (E.halfFrom half b) bs

variable {E}

/-- An end without partner in front does not matter to what it does not pair with. -/
theorem countFrom_of_not_pair {c d : α} (h : E.pair c d = false) (s : List α) :
    E.countFrom (some c) (d :: s) = E.countFrom none (d :: s) := by
  simp only [countFrom, Option.any_some, Option.any_none, h]

/-- Counting begins with no half pending. -/
theorem count_eq_countFrom (s : List α) : E.count s = E.countFrom none s := by
  fun_induction E.count s with
  | case1 => rfl
  | case2 c h => simp [countFrom, h]
  | case3 c h => simp [countFrom, h]
  | case4 c d s h hp ih => simp [countFrom, h, hp, ih]
  | case5 c d s h hp ih =>
    rw [ih, ← countFrom_of_not_pair (Bool.eq_false_iff.mpr hp)]
    simp [countFrom, h]
  | case6 c d s h ih =>
    rw [ih]
    simp [countFrom, h]

/-- Counting goes on from the half that is pending. -/
theorem countFrom_append (half : Option α) (s t : List α) :
    E.countFrom half (s ++ t) = E.countFrom half s + E.countFrom (E.halfFrom half s) t := by
  induction s generalizing half with
  | nil => rw [List.nil_append, halfFrom, countFrom, Nat.zero_add]
  | cons c s ih =>
    simp only [List.cons_append, countFrom, halfFrom]
    split
    · exact ih none
    · split
      · rw [ih]
        omega
      · exact ih none

/-- **What an end in front takes away** is the first end, where an odd number of elements
pair with the one before. -/
theorem countFrom_none_eq (c : α) (s : List α) :
    E.countFrom none s = E.countFrom (some c) s + E.chain c s % 2 := by
  induction s generalizing c with
  | nil => rfl
  | cons d s ih =>
    cases hp : E.pair c d with
    | false =>
      rw [countFrom_of_not_pair hp, chain, hp]
      rfl
    | true =>
      -- the pair is counted once behind `c`, and `d` begins the rest without it
      have hd := (E.isEnd_of_pair c d hp).2
      have hfrom : E.countFrom none (d :: s) = E.countFrom (some d) s + 1 := by
        simp [countFrom, hd]
      have hpaired : E.countFrom (some c) (d :: s) = E.countFrom none s := by
        simp [countFrom, hp]
      have hchain : E.chain c (d :: s) = E.chain d s + 1 := by
        simp [chain, hp]
      rw [hfrom, hpaired, hchain, ih d]
      omega

theorem count_eq (half : Option α) (s : List α) :
    E.count s = E.countFrom half s + (half.map fun c => E.chain c s % 2).getD 0 := by
  rw [count_eq_countFrom]
  cases half with
  | none => rfl
  | some c => exact countFrom_none_eq c s

/-- **The counts of blocks** come to the count of the whole and one for each cut that has an
odd number of elements behind it. -/
theorem sum_countFrom (half : Option α) (bs : List (List α)) :
    (bs.map E.count).sum = E.countFrom half bs.flatten + E.cuts half bs := by
  induction bs generalizing half with
  | nil => rfl
  | cons b bs ih =>
    rw [List.map_cons, List.sum_cons, List.flatten_cons, countFrom_append, cuts,
      count_eq half b, ih (E.halfFrom half b)]
    omega

/-- **What blocks count** is what their whole counts, and one more for each pair that is cut. -/
theorem sum_count (bs : List (List α)) :
    (bs.map E.count).sum = E.count bs.flatten + E.cuts none bs := by
  rw [count_eq_countFrom, sum_countFrom none]

theorem halfFrom_append (half : Option α) (s t : List α) :
    E.halfFrom half (s ++ t) = E.halfFrom (E.halfFrom half s) t := by
  induction s generalizing half with
  | nil => rfl
  | cons c s ih =>
    simp only [List.cons_append, halfFrom]
    split
    · exact ih none
    · split <;> exact ih _

/-- Behind every cut that falls behind an end without partner, an even number of elements pair
with the one before. -/
def EvenCuts (E : Ends α) (half : Option α) (bs : List (List α)) : Prop :=
  ∀ pre b post, bs = pre ++ b :: post →
    ∀ c, E.halfFrom half pre.flatten = some c → E.chain c b % 2 = 0

/-- No pair is cut where every cut is even. -/
theorem cuts_eq_zero_iff (half : Option α) (bs : List (List α)) :
    E.cuts half bs = 0 ↔ E.EvenCuts half bs := by
  induction bs generalizing half with
  | nil => exact iff_of_true rfl fun pre b post h => absurd h (by simp)
  | cons b bs ih =>
    rw [cuts, Nat.add_eq_zero_iff, ih]
    constructor
    · rintro ⟨hb, hrest⟩ pre b' post heq c hc
      cases pre with
      | nil =>
        obtain ⟨rfl, rfl⟩ := List.cons.inj heq
        rw [show half = some c from hc] at hb
        exact hb
      | cons b₁ pre =>
        obtain ⟨rfl, rfl⟩ := List.cons.inj heq
        rw [List.flatten_cons, halfFrom_append] at hc
        exact hrest pre b' post rfl c hc
    · intro h
      refine ⟨?_, fun pre b' post heq c hc => ?_⟩
      · cases half with
        | none => rfl
        | some c => exact h [] b bs rfl c rfl
      · refine h (b :: pre) b' post (by rw [heq, List.cons_append]) c ?_
        rw [List.flatten_cons, halfFrom_append]
        exact hc

/-- **When counting in blocks is counting the whole.** -/
theorem sum_count_eq_iff (bs : List (List α)) :
    (bs.map E.count).sum = E.count bs.flatten ↔ E.EvenCuts none bs := by
  rw [sum_count, ← cuts_eq_zero_iff]
  omega

end Ends

end Lib
