import Mathlib.Algebra.Order.Ring.Int
import Mathlib.Data.List.Lex

/-!
# Bytes, line ends and the exceptions of `std::string`

A `std::string` is a list of bytes. The program texts of the source are written
as Lean string literals and read as bytes by `str`.
-/

namespace Qigong

/-- A `std::string`: any bytes, `NUL` included. -/
abbrev Bytes := List UInt8

/-- Bytes are ordered as `unsigned char`, so strings as `std::string` compares
them. -/
instance instLinearOrderUInt8 : LinearOrder UInt8 where
  le_refl := UInt8.le_refl
  le_trans _ _ _ := UInt8.le_trans
  lt_iff_le_not_ge a b := by
    rw [UInt8.not_le]
    exact ⟨fun h => ⟨UInt8.le_of_lt h, h⟩, fun h => h.2⟩
  le_antisymm _ _ := UInt8.le_antisymm
  le_total := UInt8.le_total
  toDecidableLE := inferInstance
  toDecidableEq := inferInstance
  toDecidableLT := inferInstance

instance instLawfulBEqBytes : LawfulBEq Bytes := inferInstance

/-- The bytes of a program text. -/
def str (s : String) : Bytes := s.toList.map fun c => UInt8.ofNat c.toNat

/-- The characters that end a line (qicrypt.cpp:677, and `matcheol` at 838). -/
def isEol (c : UInt8) : Bool := c == 10 || c == 13 || c == 0

/-- `isspace`. -/
def isSpace (c : UInt8) : Bool := c == 32 || (9 ≤ c && c ≤ 13)

/-- Two line ends that count as one (qicrypt.cpp:679 and 859). -/
def isEolPair (c d : UInt8) : Bool := (c == 10 && d == 13) || (c == 13 && d == 10)

/-- How the code can fail to go on: what it throws, arithmetic that has no defined
result, an iterator or a pointer used that does not point at anything, and a loop that
does not end. -/
inductive Exn where
  | out_of_range
  | overflow
  | dangling
  | endless
deriving DecidableEq, Repr

/-- A result that is mapped was one before. -/
theorem map_eq_ok {α β : Type} {x : Except Exn α} {f : α → β} {b : β} :
    x.map f = .ok b ↔ ∃ a, x = .ok a ∧ f a = b := by
  cases x with
  | error e => exact ⟨fun h => (nomatch h), fun ⟨_, h, _⟩ => (nomatch h)⟩
  | ok a =>
    exact ⟨fun h => ⟨a, rfl, Except.ok.inj h⟩,
      fun ⟨_, h, hb⟩ => Except.ok.inj h ▸ congrArg _ hb⟩

/-- Two steps return where the first does and then the second. -/
theorem bind_eq_ok {α β : Type} {x : Except Exn α} {f : α → Except Exn β} {b : β} :
    x.bind f = .ok b ↔ ∃ a, x = .ok a ∧ f a = .ok b := by
  cases x with
  | error e => exact ⟨fun h => (nomatch h), fun ⟨_, h, _⟩ => (nomatch h)⟩
  | ok a => exact ⟨fun h => ⟨a, rfl, h⟩, fun ⟨_, h, hb⟩ => Except.ok.inj h ▸ hb⟩

/-- `std::string (s, pos)` and `s.substr (pos)`: they throw when `pos` is past the
end of `s`. -/
def substr (s : Bytes) (pos : Nat) : Except Exn Bytes :=
  if s.length < pos then .error .out_of_range else .ok (s.drop pos)

/-- `s.find (c, p)`, `none` being `npos`. -/
def findFrom (c : UInt8) (s : Bytes) (p : Nat) : Option Nat :=
  ((s.drop p).findIdx? (· == c)).map (p + ·)

/-- `s` is free of line ends. -/
def NoEol (s : Bytes) : Prop := ∀ c ∈ s, isEol c = false

/-- What holds of the 256 bytes holds of all. -/
theorem forall_byte {P : UInt8 → Prop} (h : ∀ n < 256, P (UInt8.ofNat n)) (c : UInt8) : P c := by
  have hc := h c.toNat c.toNat_lt
  rwa [UInt8.ofNat_toNat] at hc

/-- What a test finds of all the characters. -/
theorem forall_mem_of_all {P : UInt8 → Prop} [DecidablePred P] {s : Bytes}
    (h : s.all (fun c => P c) = true) : ∀ c ∈ s, P c :=
  fun c hc => of_decide_eq_true (List.all_eq_true.mp h c hc)

instance (s : Bytes) : Decidable (NoEol s) := List.decidableBAll (fun c => isEol c = false) s

@[simp] theorem noEol_nil : NoEol [] := fun _ h => nomatch h

@[simp] theorem noEol_append {s t : Bytes} : NoEol (s ++ t) ↔ NoEol s ∧ NoEol t := by
  simp only [NoEol, List.mem_append]
  exact ⟨fun h => ⟨fun c hc => h c (.inl hc), fun c hc => h c (.inr hc)⟩,
    fun h c hc => hc.elim (h.1 c) (h.2 c)⟩

@[simp] theorem noEol_cons {c : UInt8} {s : Bytes} :
    NoEol (c :: s) ↔ isEol c = false ∧ NoEol s := by
  simp only [NoEol, List.mem_cons, forall_eq_or_imp]

/-- Both bytes of a pair are line ends. -/
theorem isEol_of_pair {c d : UInt8} (h : isEolPair c d = true) :
    isEol c = true ∧ isEol d = true := by
  simp only [isEolPair, Bool.or_eq_true, Bool.and_eq_true, beq_iff_eq] at h
  rcases h with ⟨rfl, rfl⟩ | ⟨rfl, rfl⟩ <;> decide

theorem substr_ok {s : Bytes} {pos : Nat} (h : pos ≤ s.length) :
    substr s pos = .ok (s.drop pos) := if_neg (Nat.not_lt.mpr h)

theorem substr_throws {s : Bytes} {pos : Nat} (h : s.length < pos) :
    substr s pos = .error .out_of_range := if_pos h

/-- A character is found behind a text that does not hold it. -/
theorem findFrom_at {c : UInt8} (pre : Bytes) {word : Bytes} (rest : Bytes) (h : c ∉ word) :
    findFrom c (pre ++ (word ++ c :: rest)) pre.length = some (pre.length + word.length) := by
  have hidx : (word ++ c :: rest).findIdx? (· == c) = some word.length := by
    rw [List.findIdx?_append, List.findIdx?_eq_none_iff.mpr fun d hd => ?_]
    · simp [List.findIdx?_cons]
    · exact beq_eq_false_iff_ne.mpr fun heq => h (heq ▸ hd)
  rw [findFrom, List.drop_left, hidx]
  rfl

/-- `npos` where the character does not stand at the position or behind it. -/
theorem findFrom_eq_none_iff {c : UInt8} {s : Bytes} {p : Nat} :
    findFrom c s p = none ↔ c ∉ s.drop p := by
  rw [findFrom, Option.map_eq_none_iff, List.findIdx?_eq_none_iff]
  refine ⟨fun h hc => by simpa using h c hc, fun h d hd => ?_⟩
  exact beq_eq_false_iff_ne.mpr fun heq => h (heq ▸ hd)

/-- What is searched, split at the character that is found. -/
theorem findFrom_eq_some {c : UInt8} {s : Bytes} {p q : Nat} (h : findFrom c s p = some q) :
    q < s.length ∧ ∃ word, s.drop p = word ++ c :: s.drop (q + 1) ∧ c ∉ word ∧
      p + word.length = q := by
  obtain ⟨i, hi, rfl⟩ := Option.map_eq_some_iff.mp h
  obtain ⟨hlt, hget, hbefore⟩ := List.findIdx?_eq_some_iff_getElem.mp hi
  have hlen : p + i < s.length := by
    rw [List.length_drop] at hlt
    omega
  obtain rfl : c = s[p + i] := by
    rw [List.getElem_drop] at hget
    exact (beq_iff_eq.mp hget).symm
  refine ⟨hlen, (s.drop p).take i, ?_, fun hmem => ?_, ?_⟩
  · rw [← List.drop_eq_getElem_cons hlen, ← List.drop_drop, List.take_append_drop]
  · obtain ⟨j, hj, hget⟩ := List.mem_iff_getElem.mp hmem
    rw [List.length_take] at hj
    have hne := hbefore j (by omega)
    rw [List.getElem_take] at hget
    rw [hget] at hne
    simp at hne
  · rw [List.length_take, List.length_drop]
    omega

/-- What is found stands there, and not before. -/
theorem of_findFrom {c : UInt8} {s : Bytes} {p q : Nat} (h : findFrom c s p = some q) :
    p ≤ q ∧ s[q]? = some c ∧ ∀ i, p ≤ i → i < q → s[i]? ≠ some c := by
  obtain ⟨-, word, hdrop, hnot, rfl⟩ := findFrom_eq_some h
  have hget : ∀ i, s[p + i]? = (word ++ c :: s.drop (p + word.length + 1))[i]? := by
    intro i
    rw [← hdrop, List.getElem?_drop]
  refine ⟨Nat.le_add_right _ _, ?_, fun i hp hi hc => ?_⟩
  · rw [hget, List.getElem?_append_right le_rfl, Nat.sub_self, List.getElem?_cons_zero]
  · obtain ⟨j, rfl⟩ := Nat.exists_eq_add_of_le hp
    rw [hget, List.getElem?_append_left (by omega)] at hc
    exact hnot (List.mem_of_getElem? hc)

/-- A character is found where it stands and does not stand before. -/
theorem findFrom_eq_some_iff {c : UInt8} {s : Bytes} {p q : Nat} : findFrom c s p = some q ↔
    p ≤ q ∧ s[q]? = some c ∧ ∀ i, p ≤ i → i < q → s[i]? ≠ some c := by
  refine ⟨of_findFrom, fun ⟨hp, hc, hbefore⟩ => ?_⟩
  cases h : findFrom c s p with
  | none =>
    have hat : (s.drop p)[q - p]? = some c := by rw [List.getElem?_drop, Nat.add_sub_cancel' hp, hc]
    exact absurd (List.mem_of_getElem? hat) (findFrom_eq_none_iff.mp h)
  | some q' =>
    obtain ⟨hp', hc', hbefore'⟩ := of_findFrom h
    rcases Nat.lt_trichotomy q' q with hlt | rfl | hlt
    · exact absurd hc' (hbefore q' hp' hlt)
    · rfl
    · exact absurd hc (hbefore' q hp hlt)

/-- What stands before the character that is found does not hold it. -/
theorem not_mem_take_of_findFrom (c : UInt8) (s : Bytes) (p d : Nat) :
    c ∉ (s.drop p).take ((findFrom c s p).getD d - p) := by
  unfold findFrom
  cases h : (s.drop p).findIdx? (· == c) with
  | none =>
    rw [List.findIdx?_eq_none_iff] at h
    exact fun hc => by simpa using h c (List.mem_of_mem_take hc)
  | some i =>
    obtain ⟨hlt, -, hbefore⟩ := List.findIdx?_eq_some_iff_getElem.mp h
    intro hc
    rw [Option.map_some, Option.getD_some, Nat.add_sub_cancel_left] at hc
    obtain ⟨j, hj, hget⟩ := List.mem_iff_getElem.mp hc
    rw [List.length_take] at hj
    have hne := hbefore j (by omega)
    rw [List.getElem_take] at hget
    simp [hget] at hne

end Qigong
