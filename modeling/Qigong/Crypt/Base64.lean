import Qigong.Bytes

/-!
# The base64 codec (qicrypt.cpp:90–184)

Every line on the wire is base64. The sender encodes in pieces, so that a line is
a concatenation of encodings with padding in its middle, and the decoder takes
padding in any group: `base64_decode_encode_append` peels one encoding off the
front of a line, whatever follows it.

`base64_decode` returns what it appended to its result also when it fails: the
callers use it.
-/

namespace Qigong.Crypt

/-- `encoding_table` (qicrypt.cpp:90–97). -/
def encoding_table : Bytes :=
  str "ABCDEFGHIJKLMNOPQRSTUVWXYZabcdefghijklmnopqrstuvwxyz0123456789+/"

/-- `decoding_table` (qicrypt.cpp:99–111), row by row. -/
def decoding_rows : List Int := [
  -1, -1, -1, -1, -1, -1, -1, -1, -1, -1, -1, -1, -1, -1, -1, -1, -1, -1, -1, -1, -1, -1, -1, -1,
  -1, -1, -1, -1, -1, -1, -1, -1, -1, -1, -1, -1, -1, -1, -1, -1, -1, -1, -1, 62, -1, -1, -1, 63,
  52, 53, 54, 55, 56, 57, 58, 59, 60, 61, -1, -1, -1, -1, -1, -1, -1,  0,  1,  2,  3,  4,  5,  6,
   7,  8,  9, 10, 11, 12, 13, 14, 15, 16, 17, 18, 19, 20, 21, 22, 23, 24, 25, -1, -1, -1, -1, -1,
  -1, 26, 27, 28, 29, 30, 31, 32, 33, 34, 35, 36, 37, 38, 39, 40, 41, 42, 43, 44, 45, 46, 47, 48,
  49, 50, 51, -1, -1, -1, -1, -1, -1, -1, -1, -1, -1, -1, -1, -1, -1, -1, -1, -1, -1, -1, -1, -1,
  -1, -1, -1, -1, -1, -1, -1, -1, -1, -1, -1, -1, -1, -1, -1, -1, -1, -1, -1, -1, -1, -1, -1, -1,
  -1, -1, -1, -1, -1, -1, -1, -1, -1, -1, -1, -1, -1, -1, -1, -1, -1, -1, -1, -1, -1, -1, -1, -1,
  -1, -1, -1, -1, -1, -1, -1, -1, -1, -1, -1, -1, -1, -1, -1, -1, -1, -1, -1, -1, -1, -1, -1, -1,
  -1, -1, -1, -1, -1, -1, -1, -1, -1, -1, -1, -1, -1, -1, -1, -1, -1, -1, -1, -1, -1, -1, -1, -1,
  -1, -1, -1, -1, -1, -1, -1, -1, -1, -1, -1, -1, -1, -1, -1, -1]

/-- `decoding_table [c]`. -/
def decoding_table (c : UInt8) : Int := decoding_rows.getD c.toNat (-1)

/-- `encoding_table [(tr >> k) & 0x3f]`. -/
def sextet (tr k : Nat) : UInt8 := encoding_table.getD ((tr >>> k) &&& 0x3f) 0

/-- The padding character `=`. -/
def pad : UInt8 := 61

/-- `tr` (qicrypt.cpp:120): the 24 bits of three bytes, those past the end of the
text being zero. -/
def tr24 (a b c : UInt8) : Nat := (a.toNat <<< 16) + (b.toNat <<< 8) + c.toNat

/-- `base64_encode (s, r)` (qicrypt.cpp:113–145): what it appends to `r`. The loop
reads three bytes a turn; the last turn reads `l % 3` of them, or three. -/
def base64_encode : Bytes → Bytes
  | [] => []
  | [a] =>
    let tr := tr24 a 0 0
    [sextet tr 18, sextet tr 12, pad, pad]
  | [a, b] =>
    let tr := tr24 a b 0
    [sextet tr 18, sextet tr 12, sextet tr 6, pad]
  | a :: b :: c :: s =>
    let tr := tr24 a b c
    [sextet tr 18, sextet tr 12, sextet tr 6, sextet tr 0] ++ base64_encode s

/-- One turn of the loop of `base64_decode` on four characters: the bytes it
appends, `none` when it returns `-1`. -/
def decodeGroup (a b c d : UInt8) : Option Bytes :=
  if decoding_table a == -1 then none
  else if decoding_table b == -1 then none
  else if c != pad && decoding_table c == -1 then none
  else if d != pad && decoding_table d == -1 then none
  else
    let sa := (decoding_table a).toNat
    let sb := (decoding_table b).toNat
    let sc := if c == pad then 0 else (decoding_table c).toNat
    let sd := if d == pad then 0 else (decoding_table d).toNat
    let endingsize := 1 + (if c == pad then 0 else 1) + (if d == pad then 0 else 1)
    let tr := (sa <<< 18) + (sb <<< 12) + (sc <<< 6) + sd
    some (((List.range 3).take endingsize).map fun j => UInt8.ofNat ((tr >>> ((2 - j) * 8)) &&& 0xff))

/-- `base64_decode (s, r)` (qicrypt.cpp:148–184): whether it returns 0, and what it
has appended to `r` by then. A group of fewer than four characters fails. -/
def base64_decode : Bytes → Bool × Bytes
  | [] => (true, [])
  | a :: b :: c :: d :: s =>
    match decodeGroup a b c d with
    | none => (false, [])
    | some g =>
      let r := base64_decode s
      (r.1, g ++ r.2)
  | _ => (false, [])

/-! ## Decoding undoes encoding -/

/-- The tables are inverse to each other on the 64 sextets, none of which is
written as the padding character. -/
theorem decoding_encoding : ∀ n < 64,
    decoding_table (encoding_table.getD n 0) = n ∧ encoding_table.getD n 0 ≠ pad := by
  decide +kernel

theorem sextet_index_lt (tr k : Nat) : (tr >>> k) &&& 0x3f < 64 :=
  Nat.lt_of_le_of_lt Nat.and_le_right (by decide)

theorem decoding_sextet (tr k : Nat) :
    decoding_table (sextet tr k) = ((tr >>> k) &&& 0x3f : Nat) :=
  (decoding_encoding _ (sextet_index_lt tr k)).1

theorem sextet_ne_pad (tr k : Nat) : sextet tr k ≠ pad :=
  (decoding_encoding _ (sextet_index_lt tr k)).2

/-- Masks of low bits are remainders. -/
theorem and_0x3f (n : Nat) : n &&& 0x3f = n % 64 := Nat.and_two_pow_sub_one_eq_mod n 6

theorem and_0xff (n : Nat) : n &&& 0xff = n % 256 := Nat.and_two_pow_sub_one_eq_mod n 8

/-- What a character in the third or fourth place stands for: a digit that counts
for one more byte, or padding. -/
def Tail (c : UInt8) (v e : Nat) : Prop :=
  (c ≠ pad ∧ decoding_table c = v ∧ e = 1) ∨ (c = pad ∧ v = 0 ∧ e = 0)

/-- A group of four good characters yields the high bytes of its 24 bits. -/
theorem decodeGroup_eq {a b c d : UInt8} {sa sb sc sd e f : Nat}
    (ha : decoding_table a = sa) (hb : decoding_table b = sb)
    (hc : Tail c sc e) (hd : Tail d sd f) :
    decodeGroup a b c d = some (((List.range 3).take (1 + e + f)).map fun j =>
      UInt8.ofNat ((((sa <<< 18) + (sb <<< 12) + (sc <<< 6) + sd) >>> ((2 - j) * 8)) &&& 0xff)) := by
  have hne : ∀ n : Nat, ((n : Int) == -1) = false := fun n => by
    rw [beq_eq_false_iff_ne]
    omega
  unfold decodeGroup
  rw [ha, hb, hne, hne]
  rcases hc with ⟨hc, hcv, rfl⟩ | ⟨rfl, rfl, rfl⟩ <;>
    rcases hd with ⟨hd, hdv, rfl⟩ | ⟨rfl, rfl, rfl⟩ <;>
    simp [*]

/-- A 24-bit value is the sum of its four sextets in place. -/
theorem sextets_sum {tr : Nat} (h : tr < 2 ^ 24) :
    (((tr >>> 18) &&& 0x3f) <<< 18) + (((tr >>> 12) &&& 0x3f) <<< 12)
      + (((tr >>> 6) &&& 0x3f) <<< 6) + ((tr >>> 0) &&& 0x3f) = tr := by
  simp only [and_0x3f, Nat.shiftRight_eq_div_pow, Nat.shiftLeft_eq]
  omega

theorem tr24_lt (a b c : UInt8) : tr24 a b c < 2 ^ 24 := by
  have ha := a.toNat_lt
  have hb := b.toNat_lt
  have hc := c.toNat_lt
  rw [tr24, Nat.shiftLeft_eq, Nat.shiftLeft_eq]
  omega

/-- The bytes of a 24-bit value, the first in its high bits. -/
theorem bytes_of_tr24 (a b c : UInt8) :
    ((List.range 3).map fun j => UInt8.ofNat ((tr24 a b c >>> ((2 - j) * 8)) &&& 0xff))
      = [a, b, c] := by
  have ha := a.toNat_lt
  have hb := b.toNat_lt
  have hc := c.toNat_lt
  have key : ∀ (x : UInt8) (k : Nat), tr24 a b c / 2 ^ k % 256 = x.toNat →
      UInt8.ofNat ((tr24 a b c >>> k) &&& 0xff) = x := by
    intro x k h
    rw [and_0xff, Nat.shiftRight_eq_div_pow, h, UInt8.ofNat_toNat]
  have htr : tr24 a b c = a.toNat * 65536 + b.toNat * 256 + c.toNat := by
    rw [tr24, Nat.shiftLeft_eq, Nat.shiftLeft_eq]
  show [UInt8.ofNat ((tr24 a b c >>> 16) &&& 0xff), UInt8.ofNat ((tr24 a b c >>> 8) &&& 0xff),
    UInt8.ofNat ((tr24 a b c >>> 0) &&& 0xff)] = [a, b, c]
  rw [key a 16 (by omega), key b 8 (by omega), key c 0 (by omega)]

/-- A group written for the first `1 + e + f` of three bytes, the others being
zero, decodes to these bytes. -/
theorem decodeGroup_tr24 {a b c x y : UInt8} {e f : Nat}
    (hx : Tail x ((tr24 a b c >>> 6) &&& 0x3f) e) (hy : Tail y ((tr24 a b c >>> 0) &&& 0x3f) f) :
    decodeGroup (sextet (tr24 a b c) 18) (sextet (tr24 a b c) 12) x y
      = some ([a, b, c].take (1 + e + f)) := by
  rw [decodeGroup_eq (decoding_sextet _ _) (decoding_sextet _ _) hx hy,
    sextets_sum (tr24_lt a b c), List.map_take, bytes_of_tr24]

theorem tail_sextet (tr k : Nat) : Tail (sextet tr k) ((tr >>> k) &&& 0x3f) 1 :=
  .inl ⟨sextet_ne_pad tr k, decoding_sextet tr k, rfl⟩

/-- The last sextet of a group without a third byte is zero. -/
theorem tail_pad_last (a b : UInt8) : Tail pad ((tr24 a b 0 >>> 0) &&& 0x3f) 0 := by
  refine .inr ⟨rfl, ?_, rfl⟩
  have hc : (0 : UInt8).toNat = 0 := rfl
  rw [and_0x3f, Nat.shiftRight_eq_div_pow, tr24, Nat.shiftLeft_eq, Nat.shiftLeft_eq, hc]
  omega

/-- The third sextet of a group of one byte is zero. -/
theorem tail_pad_third (a : UInt8) : Tail pad ((tr24 a 0 0 >>> 6) &&& 0x3f) 0 := by
  refine .inr ⟨rfl, ?_, rfl⟩
  have hc : (0 : UInt8).toNat = 0 := rfl
  rw [and_0x3f, Nat.shiftRight_eq_div_pow, tr24, Nat.shiftLeft_eq, Nat.shiftLeft_eq, hc]
  omega

/-- A good group in front of a line. -/
theorem base64_decode_group {a b c d : UInt8} {g : Bytes} (h : decodeGroup a b c d = some g)
    (s : Bytes) :
    base64_decode (a :: b :: c :: d :: s) = ((base64_decode s).1, g ++ (base64_decode s).2) := by
  rw [base64_decode, h]

/-- **One encoding off the front of a line**: whatever follows it, decoding yields
its bytes and goes on behind it. -/
theorem base64_decode_encode_append (s t : Bytes) :
    base64_decode (base64_encode s ++ t) = ((base64_decode t).1, s ++ (base64_decode t).2) := by
  induction s using base64_encode.induct with
  | case1 => rfl
  | case2 a => exact base64_decode_group (decodeGroup_tr24 (tail_pad_third a) (tail_pad_last a 0)) t
  | case3 a b => exact base64_decode_group (decodeGroup_tr24 (tail_sextet _ 6) (tail_pad_last a b)) t
  | case4 a b c s ih =>
    have hgroup : decodeGroup (sextet (tr24 a b c) 18) (sextet (tr24 a b c) 12)
        (sextet (tr24 a b c) 6) (sextet (tr24 a b c) 0) = some [a, b, c] :=
      decodeGroup_tr24 (tail_sextet _ 6) (tail_sextet _ 0)
    show base64_decode (_ :: _ :: _ :: _ :: (base64_encode s ++ t)) = _
    rw [base64_decode_group hgroup, ih]
    rfl

/-- Decoding undoes encoding. -/
theorem base64_decode_encode (s : Bytes) : base64_decode (base64_encode s) = (true, s) := by
  have h := base64_decode_encode_append s []
  rw [List.append_nil] at h
  rw [h, base64_decode, List.append_nil]

/-- A line made of the encodings of several pieces decodes to what the pieces make
together, padding in its middle notwithstanding. -/
theorem base64_decode_pieces (ps : List Bytes) :
    base64_decode (ps.map base64_encode).flatten = (true, ps.flatten) := by
  induction ps with
  | nil => rfl
  | cons p ps ih =>
    rw [List.map_cons, List.flatten_cons, base64_decode_encode_append, ih]
    rfl

/-! ## What an encoding is made of -/

/-- The characters of the tables and the padding are no line ends. -/
theorem isEol_encoding : ∀ n < 64, isEol (encoding_table.getD n 0) = false := by
  decide +kernel

theorem isEol_sextet (tr k : Nat) : isEol (sextet tr k) = false :=
  isEol_encoding _ (sextet_index_lt tr k)

/-- An encoding holds no line end. -/
theorem noEol_base64_encode (s : Bytes) : NoEol (base64_encode s) := by
  have hpad : isEol pad = false := rfl
  induction s using base64_encode.induct with
  | case1 => exact noEol_nil
  | case2 a => simp [base64_encode, isEol_sextet, hpad]
  | case3 a b => simp [base64_encode, isEol_sextet, hpad]
  | case4 a b c s ih => simp [base64_encode, isEol_sextet, ih]

end Qigong.Crypt
