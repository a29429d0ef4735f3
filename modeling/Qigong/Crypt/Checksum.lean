import Mathlib.Data.UInt
import Qigong.Crypt.Validity
import Qigong.Lib.Affine

/-!
# What the checksum of a key file detects (qicrypt.cpp:202–226)

For each byte, `nekchecksum` takes its two accumulators through an affine step. The step
depends on the position and on the word of two bytes that ends there, and its gain is
`1 + v³` for the word `v`. So two texts that differ in one byte take the same steps from the
second byte behind it on, and the accumulators meet again where the product of these gains
takes their difference to 0 (`nekchecksum_eq_iff`).

A gain is even for an odd word, and 0 for the word `0xffff`: behind two bytes `ff` nothing is
left of what stood in front of them (`meet_of_ff`).
-/

namespace Qigong.Crypt

open scoped UInt16.CommRing

open Lib

/-! ## Accumulators -/

/-- The 16-bit words of a text behind the byte `v1`. -/
def words : (v1 : UInt16) → Bytes → List UInt16
  | _, [] => []
  | v2, c :: s => ((v2 <<< 8) + c.toUInt16) :: words c.toUInt16 s

/-- The factors of `v * v` and of `v` in a step of `a` and in one of `b`, at position `p`. -/
def factors (p : Nat) : (UInt16 × UInt16) × UInt16 × UInt16 :=
  match p % 4 with
  | 0 => ((13, 71), 23, 2)
  | 1 => ((3, 11), 73, 13)
  | 2 => ((7, 12), 52, 5)
  | _ => ((61, 40), 10, 3)

/-- A step of an accumulator for the word `v`. -/
def turnStep (f : UInt16 × UInt16) (v : UInt16) : Affine UInt16 where
  gain := 1 + v * v * v
  shift := f.1 * (v * v) + f.2 * v

/-- A turn is affine in the accumulator. -/
theorem turnStep_apply (k l v a : UInt16) :
    (turnStep (k, l) v).apply a = a + v * (v * (v * a + k) + l) := by
  unfold turnStep Affine.apply
  ring

/-- The cases of the `switch` are such turns, each with its factors. -/
theorem nekswitch_eq (p : Nat) (v a b : UInt16) :
    nekswitch p v a b =
      ((turnStep (factors p).1 v).apply a, (turnStep (factors p).2 v).apply b) := by
  have hp : p % 4 = 0 ∨ p % 4 = 1 ∨ p % 4 = 2 ∨ p % 4 = 3 := by omega
  rcases hp with h | h | h | h <;> simp only [nekswitch, factors, h, turnStep_apply]

/-- The steps for words, the first at position `p`, with the factors of one of the
accumulators. -/
def stepsOf (f : Nat → UInt16 × UInt16) : (p : Nat) → List UInt16 → List (Affine UInt16)
  | _, [] => []
  | p, v :: vs => turnStep (f p) v :: stepsOf f (p + 1) vs

/-- The loop runs the two accumulators side by side. -/
theorem nekloop_eq (s : Bytes) (p : Nat) (v1 a b : UInt16) :
    nekloop s p v1 a b =
      (Affine.run (stepsOf (fun p => (factors p).1) p (words v1 s)) a,
        Affine.run (stepsOf (fun p => (factors p).2) p (words v1 s)) b) := by
  induction s generalizing p v1 a b with
  | nil => rfl
  | cons c s ih =>
    rw [nekloop, nekswitch_eq, ih]
    rfl

/-- Whatever the factors, a byte pair scales by the same gain. -/
theorem stepsOf_gain (f : Nat → UInt16 × UInt16) (p : Nat) (vs : List UInt16) :
    (stepsOf f p vs).map Affine.gain = vs.map fun v => 1 + v * v * v := by
  induction vs generalizing p with
  | nil => rfl
  | cons v vs ih => rw [stepsOf, List.map_cons, List.map_cons, ih, turnStep]

/-! ## Gains -/

/-- The square of a number less the number is even. -/
theorem exists_half (v : UInt16) : ∃ k, v * v - v = 2 * k := by
  -- `v` is even or odd, and its neighbour then the other
  have hsplit : ∃ w, v = 2 * w ∨ v = 2 * w + 1 := by
    refine ⟨UInt16.ofNat (v.toNat / 2), ?_⟩
    have hv : v = UInt16.ofNat (2 * (v.toNat / 2) + v.toNat % 2) := by
      rw [Nat.div_add_mod, UInt16.ofNat_toNat]
    rw [UInt16.ofNat_add, UInt16.ofNat_mul] at hv
    rcases Nat.mod_two_eq_zero_or_one v.toNat with h | h
    · rw [h] at hv
      exact .inl (hv.trans (add_zero _))
    · rw [h] at hv
      exact .inr hv
  obtain ⟨w, rfl | rfl⟩ := hsplit
  · exact ⟨w * (2 * w - 1), by ring⟩
  · exact ⟨w * (2 * w + 1), by ring⟩

/-- Up to a unit, the gain of `v` is `v + 1`. -/
theorem gain_associated (v : UInt16) : Associated (1 + v * v * v) (v + 1) := by
  -- 2 is nilpotent in 16 bits, so that what differs from 1 by an even number is a unit
  have hnil : IsNilpotent (2 : UInt16) := ⟨16, rfl⟩
  obtain ⟨k, hk⟩ := exists_half v
  obtain ⟨u, hu⟩ := isUnit_one_add_two_mul hnil k
  refine Associated.symm ⟨u, ?_⟩
  rw [hu, ← hk]
  ring

/-- What the gains for words come to, up to units. -/
def growth : List UInt16 → UInt16
  | [] => 1
  | v :: vs => (v + 1) * growth vs

theorem growth_eq_prod (vs : List UInt16) : growth vs = (vs.map fun v => v + 1).prod := by
  induction vs with
  | nil => rfl
  | cons v vs ih => rw [growth, List.map_cons, List.prod_cons, ih]

/-- Two accumulators meet where their difference times the growth vanishes. -/
theorem run_stepsOf_eq_iff (f : Nat → UInt16 × UInt16) (p : Nat) (vs : List UInt16)
    (a b : UInt16) :
    Affine.run (stepsOf f p vs) a = Affine.run (stepsOf f p vs) b ↔ (a - b) * growth vs = 0 := by
  rw [Affine.run_eq_iff, stepsOf_gain, growth_eq_prod]
  exact mul_prod_eq_zero_iff gain_associated _ _

/-- Behind the same byte, the loop goes through the same steps. -/
theorem nekloop_eq_iff (s : Bytes) (p : Nat) (v1 a b a' b' : UInt16) :
    nekloop s p v1 a b = nekloop s p v1 a' b' ↔
      (a - a') * growth (words v1 s) = 0 ∧ (b - b') * growth (words v1 s) = 0 := by
  rw [nekloop_eq, nekloop_eq, Prod.mk.injEq, run_stepsOf_eq_iff, run_stepsOf_eq_iff]

/-! ## Altered bytes -/

/-- A 16-bit value is known by its two bytes. -/
theorem word_bytes_inj {a b : UInt16} (hlow : (a &&& 0xff).toUInt8 = (b &&& 0xff).toUInt8)
    (hhigh : ((a &&& 0xff00) >>> 8).toUInt8 = ((b &&& 0xff00) >>> 8).toUInt8) : a = b := by
  have hlow := congrArg UInt8.toNat hlow
  have hhigh := congrArg UInt8.toNat hhigh
  -- the upper byte is the quotient, the lower one the remainder
  have hdiv : ∀ n : Nat, n < 65536 → (n &&& 65280) >>> 8 = n / 256 := by
    intro n hn
    rw [Nat.shiftRight_and_distrib]
    show n >>> 8 &&& 255 = _
    rw [and_0xff, Nat.shiftRight_eq_div_pow]
    omega
  have ha := a.toNat_lt
  have hb := b.toNat_lt
  have h255 : UInt16.toNat 255 = 255 := rfl
  have h65280 : UInt16.toNat 65280 = 65280 := rfl
  have h8 : UInt16.toNat 8 % 16 = 8 := rfl
  simp only [UInt16.toNat_toUInt8, UInt16.toNat_and, UInt16.toNat_shiftRight] at hlow hhigh
  rw [h255, and_0xff, and_0xff] at hlow
  rw [h65280, h8, hdiv _ ha, hdiv _ hb] at hhigh
  apply UInt16.toNat_inj.mp
  omega

theorem nekchecksum_eq_iff_nekloop {s t : Bytes} :
    nekchecksum s = nekchecksum t ↔ nekloop s 0 0 24 42 = nekloop t 0 0 24 42 := by
  constructor
  · intro h
    simp only [nekchecksum, List.cons.injEq, and_true] at h
    exact Prod.ext (word_bytes_inj h.1 h.2.1) (word_bytes_inj h.2.2.1 h.2.2.2)
  · intro h
    rw [nekchecksum, h]
    rfl

/-- The loop up to a byte, and from it on. -/
theorem nekloop_append (s t : Bytes) (c : UInt8) (p : Nat) (v1 a b : UInt16) :
    nekloop (s ++ c :: t) p v1 a b =
      nekloop t (p + s.length + 1) c.toUInt16 (nekloop (s ++ [c]) p v1 a b).1
        (nekloop (s ++ [c]) p v1 a b).2 := by
  induction s generalizing p v1 a b with
  | nil => rfl
  | cons d s ih =>
    rw [List.cons_append, nekloop, ih, List.cons_append, nekloop, List.length_cons,
      Nat.add_assoc p 1, Nat.add_comm 1]

/-- The accumulators behind a text. -/
def accumulators (s : Bytes) : UInt16 × UInt16 := nekloop s 0 0 24 42

/-- The words of a text behind its first byte. -/
def wordsBehind : Bytes → List UInt16
  | [] => []
  | c :: s => words c.toUInt16 s

/-- The accumulators of two texts that differ in one byte meet: behind that byte and the one
after it, the rest takes both differences to 0. -/
def Meet (pre : Bytes) (x y : UInt8) (post : Bytes) : Prop :=
  let ab := accumulators (pre ++ x :: post.take 1)
  let ab' := accumulators (pre ++ y :: post.take 1)
  (ab.1 - ab'.1) * growth (wordsBehind post) = 0 ∧ (ab.2 - ab'.2) * growth (wordsBehind post) = 0

instance (pre : Bytes) (x y : UInt8) (post : Bytes) : Decidable (Meet pre x y post) :=
  inferInstanceAs (Decidable (_ ∧ _))

/-- An altered byte goes undetected where the accumulators meet. -/
theorem nekchecksum_eq_iff (pre : Bytes) (x y : UInt8) (post : Bytes) :
    nekchecksum (pre ++ x :: post) = nekchecksum (pre ++ y :: post) ↔ Meet pre x y post := by
  rw [nekchecksum_eq_iff_nekloop]
  unfold Meet accumulators
  cases post with
  | nil =>
    have hone : growth (wordsBehind []) = 1 := rfl
    dsimp only
    rw [hone, mul_one, mul_one, sub_eq_zero, sub_eq_zero, Prod.ext_iff]
    rfl
  | cons c z =>
    -- the loop is run up to the byte behind, from where the words are the same
    have hsplit : ∀ d : UInt8, pre ++ d :: c :: z = (pre ++ [d]) ++ c :: z := fun d => by simp
    rw [hsplit, hsplit, nekloop_append, nekloop_append _ z, List.length_append, List.length_append,
      List.length_singleton, List.length_singleton, nekloop_eq_iff]
    simp [wordsBehind]

/-- A word 0xffff kills what came before it. -/
theorem growth_eq_zero {vs : List UInt16} (h : 0xffff ∈ vs) : growth vs = 0 := by
  rw [growth_eq_prod]
  exact List.prod_eq_zero (List.mem_map.mpr ⟨0xffff, h, rfl⟩)

theorem mem_words_ff (u w : Bytes) (v1 : UInt16) :
    0xffff ∈ words v1 (u ++ 0xff :: 0xff :: w) := by
  induction u generalizing v1 with
  | nil => exact List.mem_cons_of_mem _ List.mem_cons_self
  | cons c u ih => exact List.mem_cons_of_mem _ (ih _)

/-- Behind two bytes `ff` nothing is left of what stood in front of them. -/
theorem meet_of_ff (pre u w : Bytes) (x y : UInt8) : Meet pre x y (u ++ 0xff :: 0xff :: w) := by
  have hzero : growth (wordsBehind (u ++ 0xff :: 0xff :: w)) = 0 := by
    apply growth_eq_zero
    cases u with
    | nil => exact List.mem_cons_self
    | cons c u => exact mem_words_ff u w _
  unfold Meet
  dsimp only
  rw [hzero, mul_zero, mul_zero]
  exact ⟨rfl, rfl⟩

/-- Of two key files with the same checksum, one with its own, the other is valid where the
texts give the same checksum. -/
theorem make_iff_of_holds {fkey fkey' t : Bytes} {k k' : QiCrKey}
    (hmake : QiCrKey.make (some fkey) = some k) (h : Holds fkey k t) (h' : Holds fkey' k' t) :
    (∃ k'', QiCrKey.make (some fkey') = some k'') ↔
      nekchecksum k.contkey = nekchecksum k'.contkey := by
  obtain ⟨-, rfl⟩ := h.unique (make_eq_some_iff.mp hmake)
  constructor
  · rintro ⟨k'', hk⟩
    obtain ⟨rfl, hsum⟩ := h'.unique (make_eq_some_iff.mp hk)
    exact hsum
  · intro hsum
    rw [hsum] at h'
    exact ⟨k', make_eq_some_iff.mpr h'⟩

/-- **When an altered byte is detected**: unless the accumulators meet behind it, the checksum
is another one, and the key file with the altered byte is not valid. -/
theorem altered_byte_iff (pre post : Bytes) (x y : UInt8) :
    (nekchecksum (pre ++ x :: post) = nekchecksum (pre ++ y :: post) ↔ Meet pre x y post) ∧
    ∀ {fkey fkey' t : Bytes} {k k' : QiCrKey}, QiCrKey.make (some fkey) = some k →
      Holds fkey k t → Holds fkey' k' t →
      k.contkey = pre ++ x :: post → k'.contkey = pre ++ y :: post →
      ((∃ k'', QiCrKey.make (some fkey') = some k'') ↔ Meet pre x y post) := by
  have hiff := nekchecksum_eq_iff pre x y post
  refine ⟨hiff, fun hmake h h' hk hk' => ?_⟩
  rw [make_iff_of_holds hmake h h', hk, hk', hiff]

/-- A key file with a key, an IV, an ID and a checksum that are given. -/
def keyFile (k : QiCrKey) (t : Bytes) : Bytes :=
  [k.key, k.IV, k.keyID, t].flatMap fun word => base64_encode word ++ [10]

theorem altered_byte_iff_zeroKey :
    ¬ ∃ k'', QiCrKey.make (some (keyFile ⟨[1, 0], [2], str "salt"⟩
      (nekchecksum ([0, 0, 2] ++ str "salt")))) = some k'' := by
  have hmake : QiCrKey.make (some (keyFile ⟨[0, 0], [2], str "salt"⟩
      (nekchecksum ([0, 0, 2] ++ str "salt")))) = some ⟨[0, 0], [2], str "salt"⟩ :=
    make_eq_some_iff.mpr (by constructor <;> decide +kernel)
  have hholds : Holds (keyFile ⟨[1, 0], [2], str "salt"⟩ (nekchecksum ([0, 0, 2] ++ str "salt")))
      ⟨[1, 0], [2], str "salt"⟩ (nekchecksum ([0, 0, 2] ++ str "salt")) := by
    constructor <;> decide +kernel
  rw [(altered_byte_iff [] ([0, 2] ++ str "salt") 0 1).2 hmake (make_eq_some_iff.mp hmake) hholds
    rfl rfl]
  decide +kernel

/-- A byte in front of two bytes `ff` can be altered undetected. -/
theorem altered_byte_undetected :
    ¬ ∀ (pre post : Bytes) (x y : UInt8), x ≠ y →
      nekchecksum (pre ++ x :: post) ≠ nekchecksum (pre ++ y :: post) := by
  intro h
  have hne : (0 : UInt8) ≠ 1 := by decide
  exact h [] [0xff, 0xff] 0 1 hne ((nekchecksum_eq_iff _ _ _ _).mpr (meet_of_ff [] [] [] 0 1))

end Qigong.Crypt
