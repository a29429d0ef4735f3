import Qigong.Measure.Columns

/-!
# The line that is meant, and the line that is taken

Two measure points look a device up in a file of the system by its name, and read one of the
values of its line. What they compare is less than the name: the beginning of a disk's, the end
of an interface's. So the line taken is the first one of a name that is related to the name
given, and the value is the one that is meant exactly where that line has the name itself, or
shows the same value at this place (`reports_iff`).
-/

namespace Qigong.Measure

variable {R : Readers}

/-- What is relied on in `getstring`: of a file made of lines, it reads one after the other,
the lines that are shorter than `maxsiz`. -/
structure Readers.ReadsLines (R : Readers) (maxsiz : Nat) : Prop where
  getstrings : ∀ lines : List Bytes, (∀ l ∈ lines, NoEol l ∧ l.length < maxsiz) →
    R.getstrings (lines.flatMap fun l => l ++ [10]) = (lines, [])

/-- The loops over a file made of lines go over its lines. -/
theorem strings_lines {maxsiz : Nat} (hR : R.ReadsLines maxsiz) {env : Outside} {path : Bytes}
    {ι : Type} {text : ι → Bytes} {ls : List ι}
    (hfile : env.file path = some (ls.flatMap fun l => text l ++ [10]))
    (hls : ∀ l ∈ ls, NoEol (text l) ∧ (text l).length < maxsiz) :
    strings R env path = ls.map text := by
  have hread := hR.getstrings (ls.map text) fun t ht => by
    obtain ⟨l, hl, rfl⟩ := List.mem_map.mp ht
    exact hls l hl
  rw [List.flatMap_map] at hread
  rw [strings, hfile]
  exact congrArg Prod.fst hread

/-- Lines are read back from their text. -/
theorem splitOn_lines {ls : List Bytes} (h : ∀ l ∈ ls, 10 ∉ l) :
    (ls.flatMap fun l => l ++ [10]).splitOn 10 = ls ++ [[]] := by
  induction ls with
  | nil => rfl
  | cons l ls ih =>
    rw [List.flatMap_cons, List.append_assoc, List.singleton_append,
      List.splitOn_append_cons_self_of_not_mem (h l List.mem_cons_self),
      ih fun l' hl' => h l' (List.mem_cons_of_mem _ hl')]
    rfl

theorem sampleReaders_readsLines : sampleReaders.ReadsLines 2048 where
  getstrings lines h := by
    have hfree : ∀ l ∈ lines, 10 ∉ l := fun l hl hmem => by
      have hno := (h l hl).1 10 hmem
      cases hno
    have hcut : lines.map (List.take 2048) = lines := by
      refine (List.map_congr_left fun l hl => ?_).trans (List.map_id _)
      exact List.take_of_length_le (h l hl).2.le
    show ((((lines.flatMap fun l => l ++ [10]).splitOn 10).map (List.take 2048)).dropLast,
      (((lines.flatMap fun l => l ++ [10]).splitOn 10).map (List.take 2048)).getLastD []) = _
    rw [splitOn_lines hfree, List.map_append, hcut]
    simp

/-- The call gives this value, or returns `false` where there is none. -/
def Reports (r : Except Exn (Bytes × Bool)) : (value : Option Bytes) → Prop
  | some v => r = .ok (v, true)
  | none => ∃ result, r = .ok (result, false)

theorem reports_foundOr_iff {result : Bytes} {found : Option (Option Bytes)}
    {value : Option Bytes} :
    Reports (.ok (foundOr result found)) value ↔ found.join = value := by
  rcases found with _ | _ | v <;> cases value <;> simp [Reports, foundOr]

section lines

variable {ι : Type} {text : ι → Bytes} {related named : ι → Bool} {value : ι → Option Bytes}
  {ls : List ι}

/-- A loop over lines that are looked up takes the first related one. -/
theorem whileStrings_map {look : Bytes → Except Exn (Option (Option Bytes))}
    (h : ∀ l ∈ ls, look (text l) = if related l then .ok (some (value l)) else .ok none) :
    whileStrings look (ls.map text) = .ok ((ls.find? related).map value) := by
  induction ls with
  | nil => rfl
  | cons l ls ih =>
    rw [List.map_cons, whileStrings, h l List.mem_cons_self, List.find?_cons]
    cases related l with
    | true => rfl
    | false => exact ih fun l' hl' => h l' (List.mem_cons_of_mem _ hl')

/-- Where the first related line is of the name, it is the first of the name. -/
theorem find?_named (hnamed : ∀ l, named l = true → related l = true) {l : ι}
    (h : ls.find? related = some l) (hl : named l = true) : ls.find? named = some l := by
  obtain ⟨-, pre, post, rfl, hpre⟩ := List.find?_eq_some_iff_append.mp h
  refine List.find?_eq_some_iff_append.mpr ⟨hl, pre, post, rfl, fun x hx => ?_⟩
  have hno := hpre x hx
  cases hx' : named x with
  | false => rfl
  | true =>
    rw [hnamed x hx'] at hno
    cases hno

/-- The value that is meant: that of the first line of the name. -/
def meant (named : ι → Bool) (value : ι → Option Bytes) (ls : List ι) : Option Bytes :=
  (ls.find? named).bind value

/-- **When the value that is meant is given.** -/
theorem reports_iff (hnamed : ∀ l, named l = true → related l = true) (result : Bytes) :
    Reports (.ok (foundOr result ((ls.find? related).map value))) (meant named value ls) ↔
      ∀ l, ls.find? related = some l → named l = true ∨ value l = meant named value ls := by
  rw [reports_foundOr_iff]
  cases hfind : ls.find? related with
  | none =>
    have hnone : ls.find? named = none := List.find?_eq_none.mpr fun l hl hl' =>
      List.find?_eq_none.mp hfind l hl (hnamed l hl')
    rw [meant, hnone]
    exact iff_of_true rfl fun l h => (nomatch h)
  | some l =>
    show value l = _ ↔ _
    constructor
    · rintro h l' hl'
      rw [← Option.some.inj hl']
      exact .inr h
    · intro h
      rcases h l rfl with hl | hl
      · rw [meant, find?_named hnamed hfind hl]
        rfl
      · exact hl

end lines

/-! ## Parameters -/

/-- Characters that a test takes are skipped, up to one that it does not. -/
theorem dropWhile_stop {t : UInt8 → Bool} {u v : Bytes} (hu : ∀ c ∈ u, t c = true)
    (hv : ∀ c, v.head? = some c → t c = false) : (u ++ v).dropWhile t = v := by
  rw [List.dropWhile_append_of_pos hu]
  cases v with
  | nil => rfl
  | cons c v =>
    rw [List.dropWhile_cons_of_neg]
    rw [hv c rfl]
    exact Bool.false_ne_true

theorem isSpace_of_isDigit {c : UInt8} (h : isDigit c = true) : isSpace c = false := by
  have hall : ∀ n < 256, isDigit (UInt8.ofNat n) = true → isSpace (UInt8.ofNat n) = false := by
    decide +kernel
  exact forall_byte (P := fun c => isDigit c = true → isSpace c = false) hall c h

/-- A number is read back from behind a space. -/
theorem atoi_decimal {k : Nat} (h : k < 2 ^ 31) : atoi (32 :: decimal k) = k := by
  have hdigits := isDigit_decimal k
  have hread : (decimal k).takeWhile isDigit = decimal k :=
    List.takeWhile_eq_self_iff.mpr hdigits
  have hblank : (32 :: decimal k).dropWhile isSpace = decimal k :=
    dropWhile_stop (u := [32]) (List.forall_mem_singleton.mpr rfl) fun c hc =>
      isSpace_of_isDigit (hdigits c (List.mem_of_mem_head? hc))
  have hmod : ((ofDecimal (decimal k) : Nat) : Int) = k := by rw [ofDecimal_decimal]
  unfold atoi
  rw [hblank]
  obtain ⟨c, t, hct⟩ := List.exists_cons_of_ne_nil (decimal_nat_ne_nil k)
  have hsign : c ≠ 45 ∧ c ≠ 43 := by
    have hc := hdigits c (hct ▸ List.mem_cons_self)
    constructor <;> rintro rfl <;> exact absurd hc (by decide)
  dsimp only
  split
  case h_1 heq => exact absurd (List.cons.inj (hct.symm.trans heq)).1 hsign.1
  case h_2 heq => exact absurd (List.cons.inj (hct.symm.trans heq)).1 hsign.2
  case h_3 =>
    rw [hread, hmod, min_eq_left (by omega), Int.bmod_eq_of_le (by omega) (by omega)]

theorem toSize_nat {k : Nat} (h : k < 2 ^ 64) : toSize k = k := by
  unfold toSize
  omega

end Qigong.Measure
