import Qigong.Crypt.Checksum

/-!
# The arithmetic of the checksum (qicrypt.cpp:202–226)

The operands of `nekchecksum` are `uint16_t`, and its products and sums are computed in `int`:
one that is no `int` has no defined result. `nekchecksumInt` is the function with every
product and sum in `int`, and gives what `nekchecksum` does where each of them is one
(`nekchecksumInt_eq`).

The word of two bytes behind a byte that is not 0 is at least 256, and no accumulator that
such a byte leaves is small enough for its cube (`second_word_overflows`). So the arithmetic
stays in range where nothing but the last byte differs from 0 (`nekchecksum_in_range_iff`).
-/

namespace Qigong.Crypt

open scoped UInt16.CommRing

/-! ## Arithmetic of `int` -/

/-- The value of a product or a sum of two `int`. -/
def toInt (n : Int) : Except Exn Int :=
  if -2 ^ 31 ≤ n ∧ n < 2 ^ 31 then .ok n else .error .overflow

theorem toInt_eq_ok {n m : Int} : toInt n = .ok m ↔ (-2 ^ 31 ≤ n ∧ n < 2 ^ 31) ∧ m = n := by
  unfold toInt
  split
  case isTrue h => exact ⟨fun hm => ⟨h, (Except.ok.inj hm).symm⟩, fun hm => by rw [hm.2]⟩
  case isFalse h => exact ⟨fun hm => (nomatch hm), fun hm => absurd hm.1 h⟩

/-- `a += v * (v * (v*a + k) + l)`, of `uint16_t`. -/
def turnInt (f : UInt16 × UInt16) (v a : UInt16) : Except Exn UInt16 :=
  (toInt (v.toNat * a.toNat)).bind fun x =>
  (toInt (x + f.1.toNat)).bind fun x =>
  (toInt (v.toNat * x)).bind fun x =>
  (toInt (x + f.2.toNat)).bind fun x =>
  (toInt (v.toNat * x)).bind fun x =>
  (toInt (a.toNat + x)).map UInt16.ofInt

/-- `v = (v2 << 8) + v1`, of `uint16_t`. -/
def wordInt (v2 v1 : UInt16) : Except Exn UInt16 :=
  (toInt (v2.toNat * 2 ^ 8)).bind fun x => (toInt (x + v1.toNat)).map UInt16.ofInt

/-- The `switch` of `nekchecksum`. -/
def nekswitchInt (p : Nat) (v a b : UInt16) : Except Exn (UInt16 × UInt16) :=
  let both (f g : UInt16 × UInt16) : Except Exn (UInt16 × UInt16) :=
    (turnInt f v a).bind fun a => (turnInt g v b).map fun b => (a, b)
  match p % 4 with
  | 0 => both (13, 71) (23, 2)
  | 1 => both (3, 11) (73, 13)
  | 2 => both (7, 12) (52, 5)
  | _ => both (61, 40) (10, 3)

/-- The loop of `nekchecksum`, at position `p` behind the byte `v1`. -/
def nekloopInt : (s : Bytes) → (p : Nat) → (v1 a b : UInt16) → Except Exn (UInt16 × UInt16)
  | [], _, _, a, b => .ok (a, b)
  | c :: s, p, v2, a, b =>
    let v1 := c.toUInt16
    (wordInt v2 v1).bind fun v =>
      (nekswitchInt p v a b).bind fun r => nekloopInt s (p + 1) v1 r.1 r.2

/-- `nekchecksum`, with its products and sums in `int`. -/
def nekchecksumInt (s : Bytes) : Except Exn Bytes :=
  (nekloopInt s 0 0 24 42).map fun (r : UInt16 × UInt16) =>
    [(r.1 &&& 0xff).toUInt8, ((r.1 &&& 0xff00) >>> 8).toUInt8,
      (r.2 &&& 0xff).toUInt8, ((r.2 &&& 0xff00) >>> 8).toUInt8]

/-! ## Steps in range -/

/-- What an accumulator comes to in a step, before its low 16 bits are taken. -/
def total (f : UInt16 × UInt16) (v a : UInt16) : Nat :=
  a.toNat + v.toNat * (v.toNat * (v.toNat * a.toNat + f.1.toNat) + f.2.toNat)

theorem total_mono {f : UInt16 × UInt16} {v w a : UInt16} (h : v.toNat ≤ w.toNat) :
    total f v a ≤ total f w a := by
  unfold total
  gcongr

theorem toInt_nat {n : Nat} (h : n < 2 ^ 31) : toInt (n : Int) = .ok (n : Int) :=
  toInt_eq_ok.mpr ⟨by omega, rfl⟩

theorem ofInt_toNat (v : UInt16) : UInt16.ofInt (v.toNat : Int) = v := by
  apply UInt16.toNat_inj.mp
  have hv := v.toNat_lt
  simp only [UInt16.ofInt, UInt16.toNat_ofNat']
  omega

/-- **Step lemma**: a step has a result where what it comes to is an `int`, and it is the one
of `nekchecksum`. -/
theorem turnInt_eq_ok {f : UInt16 × UInt16} {v a r : UInt16} :
    turnInt f v a = .ok r ↔ total f v a < 2 ^ 31 ∧ r = (turnStep f v).apply a := by
  have happly : UInt16.ofInt (total f v a : Nat) = (turnStep f v).apply a := by
    obtain ⟨k, l⟩ := f
    rw [turnStep_apply]
    simp only [total, Nat.cast_add, Nat.cast_mul, UInt16.ofInt_add, UInt16.ofInt_mul, ofInt_toNat]
  constructor
  · intro h
    obtain ⟨x₁, h₁, h⟩ := bind_eq_ok.mp h
    obtain ⟨x₂, h₂, h⟩ := bind_eq_ok.mp h
    obtain ⟨x₃, h₃, h⟩ := bind_eq_ok.mp h
    obtain ⟨x₄, h₄, h⟩ := bind_eq_ok.mp h
    obtain ⟨x₅, h₅, h⟩ := bind_eq_ok.mp h
    obtain ⟨x₆, h₆, rfl⟩ := map_eq_ok.mp h
    obtain ⟨-, rfl⟩ := toInt_eq_ok.mp h₁
    obtain ⟨-, rfl⟩ := toInt_eq_ok.mp h₂
    obtain ⟨-, rfl⟩ := toInt_eq_ok.mp h₃
    obtain ⟨-, rfl⟩ := toInt_eq_ok.mp h₄
    obtain ⟨-, rfl⟩ := toInt_eq_ok.mp h₅
    obtain ⟨hlast, rfl⟩ := toInt_eq_ok.mp h₆
    have hcast : (total f v a : Int) = a.toNat + v.toNat *
        (v.toNat * (v.toNat * a.toNat + f.1.toNat) + f.2.toNat) := by
      simp [total]
    rw [← hcast] at hlast
    exact ⟨by exact_mod_cast hlast.2, by rw [← happly, hcast]⟩
  · rintro ⟨hlt, rfl⟩
    rw [← happly]
    have ha := a.toNat_lt
    have hk := f.1.toNat_lt
    have hl := f.2.toNat_lt
    unfold turnInt total at *
    generalize a.toNat = a, v.toNat = v, f.1.toNat = k, f.2.toNat = l at *
    -- nothing is greater than what the step comes to
    have hbounds : v * a < 2 ^ 31 ∧ v * a + k < 2 ^ 31 ∧ v * (v * a + k) < 2 ^ 31 ∧
        v * (v * a + k) + l < 2 ^ 31 ∧ v * (v * (v * a + k) + l) < 2 ^ 31 := by
      rcases Nat.eq_zero_or_pos v with rfl | hpos
      · omega
      · have hle := Nat.le_mul_of_pos_left (v * a + k) hpos
        have hle' := Nat.le_mul_of_pos_left (v * (v * a + k) + l) hpos
        omega
    obtain ⟨h₁, h₂, h₃, h₄, h₅⟩ := hbounds
    refine bind_eq_ok.mpr ⟨_, by exact_mod_cast toInt_nat h₁, ?_⟩
    refine bind_eq_ok.mpr ⟨_, by exact_mod_cast toInt_nat h₂, ?_⟩
    refine bind_eq_ok.mpr ⟨_, by exact_mod_cast toInt_nat h₃, ?_⟩
    refine bind_eq_ok.mpr ⟨_, by exact_mod_cast toInt_nat h₄, ?_⟩
    refine bind_eq_ok.mpr ⟨_, by exact_mod_cast toInt_nat h₅, ?_⟩
    exact map_eq_ok.mpr ⟨_, by exact_mod_cast toInt_nat hlt, rfl⟩

/-- The word of two bytes is always an `int`. -/
theorem wordInt_eq (v2 v1 : UInt16) : wordInt v2 v1 = .ok ((v2 <<< 8) + v1) := by
  have h2 := v2.toNat_lt
  have h1 := v1.toNat_lt
  refine bind_eq_ok.mpr ⟨_, toInt_eq_ok.mpr ⟨by omega, rfl⟩,
    map_eq_ok.mpr ⟨_, toInt_eq_ok.mpr ⟨by omega, rfl⟩, ?_⟩⟩
  have hshift : UInt16.ofInt (v2.toNat * 2 ^ 8) = v2 <<< 8 := by
    apply UInt16.toNat_inj.mp
    simp only [UInt16.ofInt, UInt16.toNat_ofNat', UInt16.toNat_shiftLeft, Nat.shiftLeft_eq]
    show _ = v2.toNat * 2 ^ 8 % 2 ^ 16
    omega
  rw [UInt16.ofInt_add, hshift, ofInt_toNat]

/-- Both accumulators' steps are in range. -/
def Small (p : Nat) (v a b : UInt16) : Prop :=
  total (factors p).1 v a < 2 ^ 31 ∧ total (factors p).2 v b < 2 ^ 31

instance (p : Nat) (v a b : UInt16) : Decidable (Small p v a b) :=
  inferInstanceAs (Decidable (_ ∧ _))

theorem nekswitchInt_eq_ok {p : Nat} {v a b : UInt16} {r : UInt16 × UInt16} :
    nekswitchInt p v a b = .ok r ↔ Small p v a b ∧ r = nekswitch p v a b := by
  have hboth : nekswitchInt p v a b = (turnInt (factors p).1 v a).bind fun a =>
      (turnInt (factors p).2 v b).map fun b => (a, b) := by
    have hp : p % 4 = 0 ∨ p % 4 = 1 ∨ p % 4 = 2 ∨ p % 4 = 3 := by omega
    rcases hp with h | h | h | h <;> simp only [nekswitchInt, factors, h]
  rw [hboth, nekswitch_eq]
  constructor
  · intro h
    obtain ⟨a', ha, h⟩ := bind_eq_ok.mp h
    obtain ⟨b', hb, rfl⟩ := map_eq_ok.mp h
    obtain ⟨hsa, rfl⟩ := turnInt_eq_ok.mp ha
    obtain ⟨hsb, rfl⟩ := turnInt_eq_ok.mp hb
    exact ⟨⟨hsa, hsb⟩, rfl⟩
  · rintro ⟨⟨hsa, hsb⟩, rfl⟩
    exact bind_eq_ok.mpr ⟨_, turnInt_eq_ok.mpr ⟨hsa, rfl⟩,
      map_eq_ok.mpr ⟨_, turnInt_eq_ok.mpr ⟨hsb, rfl⟩, rfl⟩⟩

/-- A turn of the loop. -/
theorem nekloopInt_cons {c : UInt8} {s : Bytes} {p : Nat} {v1 a b : UInt16}
    {r : UInt16 × UInt16} : nekloopInt (c :: s) p v1 a b = .ok r ↔
      Small p ((v1 <<< 8) + c.toUInt16) a b ∧
        nekloopInt s (p + 1) c.toUInt16 (nekswitch p ((v1 <<< 8) + c.toUInt16) a b).1
          (nekswitch p ((v1 <<< 8) + c.toUInt16) a b).2 = .ok r := by
  rw [nekloopInt, wordInt_eq]
  show (nekswitchInt p _ a b).bind _ = .ok r ↔ _
  refine bind_eq_ok.trans ⟨fun ⟨r', h, hrest⟩ => ?_, fun ⟨h, hrest⟩ => ?_⟩
  · obtain ⟨hsmall, rfl⟩ := nekswitchInt_eq_ok.mp h
    exact ⟨hsmall, hrest⟩
  · exact ⟨_, nekswitchInt_eq_ok.mpr ⟨h, rfl⟩, hrest⟩

/-- **What is in range is what `nekchecksum` computes.** -/
theorem nekloopInt_eq {s : Bytes} {p : Nat} {v1 a b : UInt16} {r : UInt16 × UInt16}
    (h : nekloopInt s p v1 a b = .ok r) : r = nekloop s p v1 a b := by
  induction s generalizing p v1 a b with
  | nil => exact (Except.ok.inj h).symm
  | cons c s ih => exact ih (nekloopInt_cons.mp h).2

theorem nekchecksumInt_eq {s r : Bytes} (h : nekchecksumInt s = .ok r) : r = nekchecksum s := by
  obtain ⟨ab, hloop, rfl⟩ := map_eq_ok.mp h
  rw [nekloopInt_eq hloop]
  rfl

/-! ## Which bytes keep in range -/

theorem factors_mod (p : Nat) : factors (p % 4) = factors p ∧
    factors (p % 4 + 1) = factors (p + 1) := by
  unfold factors
  rw [Nat.mod_mod, Nat.mod_add_mod]
  exact ⟨rfl, rfl⟩

/-- A byte 0 in front changes nothing. -/
theorem nekswitch_zero (p : Nat) (a b : UInt16) : nekswitch p 0 a b = (a, b) := by
  have hzero : ∀ f x, (turnStep f 0).apply x = x := by
    intro f x
    unfold turnStep Lib.Affine.apply
    ring
  rw [nekswitch_eq, hzero, hzero]

/-- The first byte that is not 0 keeps in range. -/
theorem small_first (p : Nat) (c : UInt8) : Small p c.toUInt16 24 42 := by
  have hall : ∀ q < 4, ∀ n < 256, Small q (UInt8.ofNat n).toUInt16 24 42 := by decide +kernel
  have h := forall_byte (P := fun c => Small (p % 4) c.toUInt16 24 42)
    (hall (p % 4) (Nat.mod_lt _ (by decide))) c
  unfold Small at h ⊢
  rwa [(factors_mod p).1] at h

/-- **The word of the byte behind it does not**: it is at least 256 times that byte. -/
theorem second_word_overflows (p : Nat) {c : UInt8} (hc : c ≠ 0) (d : UInt8) :
    ¬ Small (p + 1) ((c.toUInt16 <<< 8) + d.toUInt16) (nekswitch p c.toUInt16 24 42).1
      (nekswitch p c.toUInt16 24 42).2 := by
  have hall : ∀ q < 4, ∀ n < 256, UInt8.ofNat n ≠ 0 →
      ¬ Small (q + 1) ((UInt8.ofNat n).toUInt16 <<< 8)
        (nekswitch q (UInt8.ofNat n).toUInt16 24 42).1
        (nekswitch q (UInt8.ofNat n).toUInt16 24 42).2 := by decide +kernel
  have h := forall_byte (P := fun c => c ≠ 0 → ¬ Small (p % 4 + 1) (c.toUInt16 <<< 8)
    (nekswitch (p % 4) c.toUInt16 24 42).1 (nekswitch (p % 4) c.toUInt16 24 42).2)
    (hall (p % 4) (Nat.mod_lt _ (by decide))) c hc
  rw [nekswitch_eq, (factors_mod p).1, ← nekswitch_eq] at h
  have hle : (c.toUInt16 <<< 8).toNat ≤ ((c.toUInt16 <<< 8) + d.toUInt16).toNat := by
    have hc := c.toNat_lt
    have hd := d.toNat_lt
    simp only [UInt16.toNat_add, UInt16.toNat_shiftLeft, Nat.shiftLeft_eq, UInt8.toNat_toUInt16]
    show c.toNat * 2 ^ 8 % 2 ^ 16 ≤ (c.toNat * 2 ^ 8 % 2 ^ 16 + d.toNat) % 2 ^ 16
    omega
  intro hsmall
  refine h ?_
  unfold Small at hsmall ⊢
  rw [(factors_mod p).2]
  exact hsmall.imp (total_mono hle).trans_lt (total_mono hle).trans_lt

/-- The loop in front of the first byte that is not 0. -/
theorem nekloopInt_in_range_iff (s : Bytes) (p : Nat) :
    (∃ r, nekloopInt s p 0 24 42 = .ok r) ↔ ∀ c ∈ s.dropLast, c = 0 := by
  have hword : ∀ v : UInt16, ((0 : UInt16) <<< (8 : UInt16)) + v = v := fun v => UInt16.zero_add v
  induction s generalizing p with
  | nil => exact ⟨fun _ c hc => (nomatch hc), fun _ => ⟨_, rfl⟩⟩
  | cons c s ih =>
    simp only [nekloopInt_cons, hword]
    cases s with
    | nil => exact ⟨fun _ d hd => (nomatch hd), fun _ => ⟨_, small_first p c, rfl⟩⟩
    | cons d s =>
      rw [List.dropLast_cons_cons, List.forall_mem_cons]
      refine Iff.trans ?_ (and_congr_right fun _ => ih (p + 1))
      by_cases hc : c = 0
      · subst hc
        have hzero : nekswitch p (UInt8.toUInt16 0) 24 42 = (24, 42) := nekswitch_zero p 24 42
        rw [hzero]
        exact ⟨fun ⟨r, _, hr⟩ => ⟨rfl, r, hr⟩, fun ⟨_, r, hr⟩ => ⟨r, small_first p 0, hr⟩⟩
      · refine ⟨fun ⟨r, _, hr⟩ => ?_, fun h => absurd h.1 hc⟩
        exact absurd (nekloopInt_cons.mp hr).1 (second_word_overflows p hc d)

/-- **When the arithmetic of the checksum stays in range**: only where all bytes but the last
are 0. -/
theorem nekchecksum_in_range_iff (s : Bytes) :
    (∃ r, nekchecksumInt s = .ok r) ↔ ∀ c ∈ s.dropLast, c = 0 := by
  rw [← nekloopInt_in_range_iff s 0]
  constructor
  · rintro ⟨r, h⟩
    obtain ⟨ab, hloop, -⟩ := map_eq_ok.mp h
    exact ⟨ab, hloop⟩
  · rintro ⟨ab, hloop⟩
    exact ⟨_, map_eq_ok.mpr ⟨ab, hloop, rfl⟩⟩

/-- A byte 1 in front of a byte 0 takes the second step out of range. -/
theorem nekchecksum_overflows : ¬ ∀ s, ∃ r, nekchecksumInt s = .ok r := by
  intro h
  obtain ⟨r, hr⟩ := h [1, 0]
  have herror : nekchecksumInt [1, 0] = .error .overflow := by decide +kernel
  rw [herror] at hr
  cases hr

end Qigong.Crypt
