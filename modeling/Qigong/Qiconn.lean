import Qigong.Bytes

/-!
# What both programs use of qiconn

qiconn is outside the repository: its scanners are parameters (`Scanners`). A position
in a string is a `size_t`.
-/

namespace Qigong

/-- `string::npos`. -/
def npos : Nat := 2 ^ 64 - 1

/-- A sum of two `size_t`. -/
def addSize (a b : Nat) : Nat := (a + b) % 2 ^ 64

/-- qiconn's scanners: from a position of a string, what is read and the position behind
it, which may be `npos`. -/
structure Scanners where
  getidentifier : (s : Bytes) → (p : Nat) → Bytes × Nat
  getinteger : (s : Bytes) → (p : Nat) → Int × Nat

/-- `eos ()`, a `NUL` character (watchconn.cpp:105). -/
def eos : Bytes := [0]

/-- `eos` written without a call: the address of a function, printed as a truth value. -/
def eosAddress : Bytes := str "1"

/-- `s.find (w) == 0`. -/
def startsWith (w s : Bytes) : Bool := w.isPrefixOf s

theorem startsWith_iff {w s : Bytes} : startsWith w s = true ↔ w <+: s := List.isPrefixOf_iff_prefix

/-! ## Numbers in decimal -/

/-- A number in decimal. -/
def decimal (n : Int) : Bytes := str (toString n)

def isDigit (c : UInt8) : Bool := 48 ≤ c && c ≤ 57

/-- The number that digits stand for. -/
def ofDecimal (digits : Bytes) : Nat := digits.foldl (fun n c => n * 10 + (c.toNat - 48)) 0

theorem decimal_nat (n : Nat) :
    decimal n = (Nat.toDigits 10 n).map fun c => UInt8.ofNat c.toNat := by
  rw [← Nat.toList_repr]
  rfl

/-- A negative number is printed as a sign and its digits. -/
theorem decimal_negSucc (n : Nat) :
    decimal (Int.negSucc n) = str "-" ++ decimal (n + 1 : Nat) := by
  simp only [decimal, toString, str, ← List.map_append, ← String.toList_append]
  rfl

theorem decimal_nat_ne_nil (n : Nat) : decimal n ≠ [] := by
  rw [decimal_nat]
  simp

theorem toNat_of_isDigit {c : Char} (h : c.isDigit = true) :
    48 ≤ c.toNat ∧ c.toNat ≤ 57 := by
  simp only [Char.isDigit, Bool.and_eq_true, decide_eq_true_eq] at h
  exact ⟨h.1, h.2⟩

/-- A natural number is printed in digits. -/
theorem isDigit_decimal (n : Nat) : ∀ c ∈ decimal n, isDigit c = true := by
  intro c hc
  rw [decimal_nat] at hc
  obtain ⟨ch, hch, rfl⟩ := List.mem_map.mp hc
  obtain ⟨hge, hle⟩ := toNat_of_isDigit (Nat.isDigit_of_mem_toDigits (by decide) (by decide) hch)
  have hall : ∀ n < 58, 48 ≤ n → isDigit (UInt8.ofNat n) = true := by decide
  exact hall ch.toNat (by omega) hge

/-- A number is read back from its digits. -/
theorem ofDecimal_decimal (n : Nat) : ofDecimal (decimal n) = n := by
  have hfold : ∀ (l : List Char) (k : Nat), (∀ c ∈ l, c.isDigit = true) →
      (l.map fun c => UInt8.ofNat c.toNat).foldl (fun n c => n * 10 + (c.toNat - 48)) k
        = Nat.ofDigitChars 10 l k := by
    intro l
    induction l with
    | nil => exact fun k _ => rfl
    | cons c l ih =>
      intro k hl
      obtain ⟨hge, hle⟩ := toNat_of_isDigit (hl c List.mem_cons_self)
      have hbyte : (UInt8.ofNat c.toNat).toNat = c.toNat := by
        rw [UInt8.toNat_ofNat', Nat.mod_eq_of_lt (by omega)]
      rw [List.map_cons, List.foldl_cons, hbyte, ih _ fun d hd => hl d (List.mem_cons_of_mem _ hd),
        Nat.ofDigitChars_cons, Nat.mul_comm]
      rfl
  have hdigits : ∀ c ∈ Nat.toDigits 10 n, c.isDigit = true := fun c hc =>
    Nat.isDigit_of_mem_toDigits (by decide) (by decide) hc
  rw [decimal_nat, ofDecimal, hfold _ _ hdigits]
  exact Nat.ofDigitChars_ten_toDigits

/-- No digit is a line end. -/
theorem isEol_of_isDigit {c : UInt8} (h : isDigit c = true) : isEol c = false := by
  simp only [isDigit, Bool.and_eq_true, decide_eq_true_eq] at h
  have h1 : 48 ≤ c.toNat := UInt8.le_iff_toNat_le.mp h.1
  simp only [isEol, Bool.or_eq_false_iff, beq_eq_false_iff_ne]
  refine ⟨⟨?_, ?_⟩, ?_⟩ <;> rintro rfl <;> exact absurd h1 (by decide)

/-- A number is printed on one line. -/
theorem noEol_decimal (n : Int) : NoEol (decimal n) := by
  have hnat : ∀ m : Nat, NoEol (decimal m) := fun m c hc => isEol_of_isDigit (isDigit_decimal m c hc)
  cases n with
  | ofNat m => exact hnat m
  | negSucc m =>
    rw [decimal_negSucc, noEol_append]
    exact ⟨by decide, hnat (m + 1)⟩

/-! ## What the scanners do -/

/-- Blanks are skipped, then the longest run of the characters that `run` takes is read;
the position is `npos` at the end of the string. -/
def scan (blank run : UInt8 → Bool) (s : Bytes) (p : Nat) : Bytes × Nat :=
  let t := (s.drop p).dropWhile blank
  let rest := t.dropWhile run
  (t.takeWhile run, if rest = [] then npos else s.length - rest.length)

/-- Blanks are skipped: the position of the first character that is none, or `npos`. -/
def seek (blank : UInt8 → Bool) (s : Bytes) (p : Nat) : Nat :=
  let t := (s.drop p).dropWhile blank
  if t = [] then npos else s.length - t.length

/-- What every caller relies on in `getidentifier`: it scans so, a space is a blank that
ends an identifier, and small letters belong to one. -/
structure Scanners.Documented (S : Scanners) (blank ident : UInt8 → Bool) : Prop where
  getidentifier : ∀ s p, S.getidentifier s p = scan blank ident s p
  space : blank 32 = true ∧ ident 32 = false
  letters : ∀ c ∈ str "abcdefghijklmnopqrstuvwxyz", blank c = false ∧ ident c = true

/-- What is relied on in `getinteger`: it scans the longest run of digits, and gives the
number they stand for where that is a `long long`. -/
structure Scanners.ReadsDigits (S : Scanners) (blank : UInt8 → Bool) : Prop where
  getinteger : ∀ s p, (scan blank isDigit s p).1 ≠ [] →
    ofDecimal (scan blank isDigit s p).1 < 2 ^ 63 →
    S.getinteger s p = ((ofDecimal (scan blank isDigit s p).1 : Int), (scan blank isDigit s p).2)
  digits : ∀ c, isDigit c = true → blank c = false

/-- A word behind blanks is read, where what follows it does not go on. -/
theorem scan_at {blank run : UInt8 → Bool} (pre skip word rest : Bytes)
    (hskip : ∀ c ∈ skip, blank c = true) (hhead : ∀ c, word.head? = some c → blank c = false)
    (hword : ∀ c ∈ word, run c = true) (hne : word ≠ [])
    (hrest : ∀ c, rest.head? = some c → run c = false) :
    scan blank run (pre ++ (skip ++ (word ++ rest))) pre.length
      = (word, if rest = [] then npos else pre.length + skip.length + word.length) := by
  have hblank : (skip ++ (word ++ rest)).dropWhile blank = word ++ rest := by
    rw [List.dropWhile_append_of_pos hskip]
    cases word with
    | nil => exact absurd rfl hne
    | cons c cs =>
      rw [List.cons_append, List.dropWhile_cons_of_neg]
      rw [hhead c rfl]
      exact Bool.false_ne_true
  have hstop : rest.takeWhile run = [] ∧ rest.dropWhile run = rest := by
    cases rest with
    | nil => exact ⟨rfl, rfl⟩
    | cons c cs =>
      rw [List.takeWhile_cons, List.dropWhile_cons, hrest c rfl]
      exact ⟨rfl, rfl⟩
  simp only [scan, List.drop_left, hblank, List.takeWhile_append_of_pos hword,
    List.dropWhile_append_of_pos hword, hstop.1, hstop.2, List.append_nil, List.length_append]
  refine Prod.ext rfl ?_
  dsimp only
  split
  · rfl
  · omega

/-- A scan leaves the position where it was or behind, behind what it has read, or at the
end. -/
theorem scan_progress (blank run : UInt8 → Bool) (s : Bytes) (p : Nat) :
    (scan blank run s p).2 = npos ∨
      p + (scan blank run s p).1.length ≤ (scan blank run s p).2 ∧
        (scan blank run s p).2 < s.length := by
  simp only [scan]
  split
  case isTrue => exact .inl rfl
  case isFalse hrest =>
    right
    have hsplit := List.takeWhile_append_dropWhile (p := run) (l := (s.drop p).dropWhile blank)
    have hlen := congrArg List.length hsplit
    rw [List.length_append] at hlen
    have hle := (List.dropWhile_suffix (l := s.drop p) blank).length_le
    rw [List.length_drop] at hle
    have hpos := List.length_pos_iff.mpr hrest
    omega

/-- A natural number behind blanks is read. -/
theorem Scanners.ReadsDigits.getinteger_at {S : Scanners} {blank : UInt8 → Bool}
    (hS : S.ReadsDigits blank) (pre skip rest : Bytes) {n : Nat}
    (hskip : ∀ c ∈ skip, blank c = true) (hn : n < 2 ^ 63)
    (hrest : ∀ c, rest.head? = some c → isDigit c = false) :
    S.getinteger (pre ++ (skip ++ (decimal n ++ rest))) pre.length
      = ((n : Int), if rest = [] then npos else pre.length + skip.length + (decimal n).length) := by
  have hscan := scan_at pre skip (decimal n) rest hskip
    (fun c hc => hS.digits c (isDigit_decimal n c (List.mem_of_mem_head? hc))) (isDigit_decimal n)
    (decimal_nat_ne_nil n) hrest
  have hne : (decimal n : Bytes) ≠ [] := decimal_nat_ne_nil n
  rw [hS.getinteger, hscan, ofDecimal_decimal]
  · rw [hscan]
    exact hne
  · rw [hscan, ofDecimal_decimal]
    exact hn

/-! ## Scanners to compute with -/

def isBlank (c : UInt8) : Bool := c == 32 || c == 9

def isIdent (c : UInt8) : Bool :=
  isDigit c || (65 ≤ c && c ≤ 90) || (97 ≤ c && c ≤ 122) || c == 95

/-- Scanners of identifiers and of numbers without a sign. -/
def sampleScanners : Scanners where
  getidentifier := scan isBlank isIdent
  getinteger s p :=
    let r := scan isBlank isDigit s p
    (r.1.foldl (fun n c => n * 10 + (c.toNat - 48 : Nat)) 0, r.2)

theorem foldl_digits_cast (l : Bytes) (n : Nat) :
    l.foldl (fun (n : Int) c => n * 10 + (c.toNat - 48 : Nat)) n
      = (l.foldl (fun n c => n * 10 + (c.toNat - 48)) n : Nat) := by
  induction l generalizing n with
  | nil => rfl
  | cons c l ih => exact ih (n * 10 + (c.toNat - 48))

theorem sampleScanners_nonneg (s : Bytes) (p : Nat) : 0 ≤ (sampleScanners.getinteger s p).1 :=
  le_of_le_of_eq (Int.natCast_nonneg _) (foldl_digits_cast _ 0).symm

/-- The sample scanners read the digits behind blanks. -/
theorem sampleScanners_readsDigits : sampleScanners.ReadsDigits isBlank where
  getinteger s p _ _ := Prod.ext (foldl_digits_cast _ 0) rfl
  digits c h := by
    simp only [isDigit, Bool.and_eq_true, decide_eq_true_eq] at h
    have h1 : 48 ≤ c.toNat := UInt8.le_iff_toNat_le.mp h.1
    simp only [isBlank, Bool.or_eq_false_iff, beq_eq_false_iff_ne]
    constructor <;> rintro rfl <;> exact absurd h1 (by decide)

/-- The sample scanners do what is documented of them. -/
theorem sampleScanners_documented : sampleScanners.Documented isBlank isIdent where
  getidentifier _ _ := rfl
  space := by decide
  letters c hc := by
    have hall : (str "abcdefghijklmnopqrstuvwxyz").all (fun c => !isBlank c && isIdent c) = true := by
      decide
    simpa using List.all_eq_true.mp hall c hc

end Qigong
