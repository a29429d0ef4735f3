import Mathlib.Data.List.Range
import Mathlib.Algebra.BigOperators.Group.List.Basic
import Mathlib.Order.Bounds.Basic
import Mathlib.Tactic.Ring
import Mathlib.Tactic.Linarith

/-!
# Turns

Entries are worked off: one that is due is taken out and the one that follows it is put
in, until none is due. In which order they are taken is not said (`Pass`), and makes no
difference: every entry is followed up until it is due no more, by itself
(`Pass.perm_last`), and what was taken are its turns (`Pass.perm_turns`).

For entries a fixed positive width apart, the number of turns up to a bound is `turns`
(`isLeast_turns`).
-/

namespace Lib

universe u

section pass

variable {ε : Type u}

/-- The entries, those taken in order, and the entries left. -/
inductive Pass (due : ε → Prop) (next : ε → ε) : List ε → List ε → List ε → Prop
  | rest {es : List ε} (h : ∀ e ∈ es, ¬ due e) : Pass due next es [] es
  | turn {es rest es' taken left : List ε} {e : ε} (he : due e) (hout : es.Perm (e :: rest))
      (hin : es'.Perm (next e :: rest)) (h : Pass due next es' taken left) :
      Pass due next es (e :: taken) left

/-- `rank` counts the turns of an entry, for the entries of which `P` holds. -/
structure Ranked (P due : ε → Prop) (next : ε → ε) (rank : ε → Nat) : Prop where
  keep : ∀ e, P e → due e → P (next e)
  rest : ∀ e, P e → ¬ due e → rank e = 0
  turn : ∀ e, P e → due e → rank e = rank (next e) + 1

variable {P due : ε → Prop} {next : ε → ε} {rank : ε → Nat} {es taken left : List ε}

/-- The entry left of an entry. -/
def last (next : ε → ε) (rank : ε → Nat) (e : ε) : ε := next^[rank e] e

/-- The turns of an entry. -/
def turnsOf (next : ε → ε) (rank : ε → Nat) (e : ε) : List ε :=
  (List.range (rank e)).map fun j => next^[j] e

theorem Ranked.last_turn (hr : Ranked P due next rank) {e : ε} (hp : P e) (he : due e) :
    last next rank e = last next rank (next e) := by
  unfold last
  rw [hr.turn e hp he]
  rfl

theorem Ranked.turnsOf_turn (hr : Ranked P due next rank) {e : ε} (hp : P e) (he : due e) :
    turnsOf next rank e = e :: turnsOf next rank (next e) := by
  unfold turnsOf
  rw [hr.turn e hp he, List.range_succ_eq_map, List.map_cons, List.map_map]
  rfl

/-- What is left behind a pass is not due. -/
theorem Pass.not_due (h : Pass due next es taken left) : ∀ e ∈ left, ¬ due e := by
  induction h with
  | rest h => exact h
  | turn _ _ _ _ ih => exact ih

/-- What a turn puts in is as good as what it takes out. -/
theorem Ranked.keep_turn (hr : Ranked P due next rank) {rest es' : List ε} {e : ε} (he : due e)
    (hrest : ∀ x ∈ e :: rest, P x) (hin : es'.Perm (next e :: rest)) : ∀ x ∈ es', P x := by
  intro x hx
  rcases List.mem_cons.mp (hin.mem_iff.mp hx) with rfl | hx
  · exact hr.keep e (hrest e List.mem_cons_self) he
  · exact hrest x (List.mem_cons_of_mem _ hx)

/-- **What is left**: the last entry of each. -/
theorem Pass.perm_last (hr : Ranked P due next rank) (hes : ∀ e ∈ es, P e)
    (h : Pass due next es taken left) : left.Perm (es.map (last next rank)) := by
  induction h with
  | rest h =>
    rw [List.map_congr_left (g := id), List.map_id]
    intro e he
    unfold last
    rw [hr.rest e (hes e he) (h e he)]
    rfl
  | @turn es rest es' taken left e he hout hin _ ih =>
    have hP : ∀ x ∈ e :: rest, P x := fun x hx => hes x (hout.mem_iff.mpr hx)
    have hleft := (ih (hr.keep_turn he hP hin)).trans (hin.map _)
    rw [List.map_cons, ← hr.last_turn (hP e List.mem_cons_self) he] at hleft
    exact hleft.trans (hout.map _).symm

/-- **What was taken**: the turns of each. -/
theorem Pass.perm_turns (hr : Ranked P due next rank) (hes : ∀ e ∈ es, P e)
    (h : Pass due next es taken left) : taken.Perm (es.flatMap (turnsOf next rank)) := by
  induction h with
  | @rest es h =>
    rw [List.flatMap_eq_nil_iff.mpr]
    intro e he
    unfold turnsOf
    rw [hr.rest e (hes e he) (h e he)]
    rfl
  | @turn es rest es' taken left e he hout hin _ ih =>
    have hP : ∀ x ∈ e :: rest, P x := fun x hx => hes x (hout.mem_iff.mpr hx)
    have htaken := (ih (hr.keep_turn he hP hin)).trans (hin.flatMap_right _)
    refine ((htaken.cons e).trans ?_).trans (hout.flatMap_right _).symm
    rw [List.flatMap_cons, List.flatMap_cons, hr.turnsOf_turn (hP e List.mem_cons_self) he,
      List.cons_append]

/-- The turns left to take get fewer with every turn. -/
theorem Ranked.sum_turn (hr : Ranked P due next rank) {e : ε} {es es' : List ε} (hp : P e)
    (he : due e) (hes' : es'.Perm (next e :: es)) :
    ((e :: es).map rank).sum = (es'.map rank).sum + 1 := by
  rw [(hes'.map rank).sum_eq, List.map_cons, List.map_cons, List.sum_cons, List.sum_cons,
    hr.turn e hp he]
  omega

end pass

/-! ## Turns of a fixed width -/

/-- How often `width` is added to `k` until it is at least `bound`. -/
def turns (bound k width : Int) : Nat := ((bound - k + width - 1) / width).toNat

variable {bound k width : Int}

/-- At the bound and beyond there is none. -/
theorem turns_of_le (hw : 0 < width) (h : bound ≤ k) : turns bound k width = 0 := by
  unfold turns
  rw [Int.toNat_eq_zero]
  have hlt : (bound - k + width - 1) / width < 1 := Int.ediv_lt_of_lt_mul hw (by omega)
  omega

/-- Below it there is one, and those from a width further on. -/
theorem turns_of_lt (hw : 0 < width) (h : k < bound) :
    turns bound k width = turns bound (k + width) width + 1 := by
  unfold turns
  have hone : bound - k + width - 1 = (bound - (k + width) + width - 1) + width * 1 := by ring
  have hnonneg : 0 ≤ (bound - (k + width) + width - 1) / width :=
    Int.ediv_nonneg (by omega) hw.le
  rw [hone, Int.add_mul_ediv_left _ _ hw.ne']
  omega

theorem turns_le (hw : 0 < width) : turns bound k width ≤ (bound - k).toNat := by
  rcases le_or_gt bound k with h | h
  · rw [turns_of_le hw h]
    exact Nat.zero_le _
  · unfold turns
    have hle : (bound - k + width - 1) / width ≤ bound - k := by
      refine Int.le_of_lt_add_one (Int.ediv_lt_of_lt_mul hw ?_)
      nlinarith [mul_nonneg (Int.sub_nonneg.mpr (Int.add_one_le_of_lt hw))
        (Int.sub_nonneg.mpr h.le)]
    omega

/-- **The least number of turns.** -/
theorem isLeast_turns (hw : 0 < width) :
    IsLeast {n : Nat | bound ≤ k + n * width} (turns bound k width) := by
  have hdiv := Int.emod_add_mul_ediv (bound - k + width - 1) width
  have hlow := Int.emod_nonneg (bound - k + width - 1) hw.ne'
  have hhigh := Int.emod_lt_of_pos (bound - k + width - 1) hw
  constructor
  · show bound ≤ k + (turns bound k width : Int) * width
    have hcast : (bound - k + width - 1) / width ≤ (turns bound k width : Int) :=
      Int.self_le_toNat _
    have hmul := mul_le_mul_of_nonneg_left hcast hw.le
    linarith
  · intro n (hn : bound ≤ k + n * width)
    unfold turns
    rw [Int.toNat_le]
    have hlt : (bound - k + width - 1) / width < n + 1 := by
      refine Int.ediv_lt_of_lt_mul hw ?_
      rw [add_mul]
      omega
    omega

/-- Turns move the key, and leave the rest alone. -/
theorem iterate_add {α : Type u} (width : α → Int) (e : Int × α) (j : Nat) :
    (fun e : Int × α => (e.1 + width e.2, e.2))^[j] e = (e.1 + j * width e.2, e.2) := by
  induction j with
  | zero => simp
  | succ j ih =>
    rw [Function.iterate_succ_apply', ih]
    refine Prod.ext ?_ rfl
    push_cast
    ring

end Lib
