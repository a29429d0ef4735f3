import Qigong.Measure.Named

/-!
# Counters of a disk (qimeasure.cpp:97–148)

`proc_diskstats` compares the name it is given with as many characters of the line, so that the
lines of all disks whose names begin so are taken for that disk's (`prefix_fields_iff`): the
partitions of a disk, or `sdaa` for `sda`. The first of them is the one that is read
(`disk_counter_iff`).
-/

namespace Qigong.Measure

variable {R : Readers} {env : Outside} {maxsiz : Nat}

theorem noEol_joined {ws : List Bytes} (h : ∀ w ∈ ws, NoEol w) : NoEol (Lib.joined 32 ws) := by
  induction ws with
  | nil => exact noEol_nil
  | cons w ws ih =>
    have hw := h w List.mem_cons_self
    cases ws with
    | nil => simpa [Lib.joined] using hw
    | cons w' ws =>
      rw [Lib.joined_cons _ (List.cons_ne_nil _ _), noEol_append, noEol_cons]
      exact ⟨hw, rfl, ih fun w hw => h w (List.mem_cons_of_mem _ hw)⟩

/-- A line of `/proc/diskstats`: two numbers with blanks before them, and a name and counters
behind single spaces. -/
structure DiskLine where
  skip : Bytes
  major : Bytes
  between : Bytes
  minor : Bytes
  name : Bytes
  counters : List Bytes
  blanks : ∀ c ∈ skip ++ between, isSpace c = true ∧ isEol c = false
  apart : between ≠ []
  digits : ∀ c ∈ major ++ minor, isDigit c = true
  numbers : major ≠ [] ∧ minor ≠ []
  words : ∀ w ∈ name :: counters, Lib.IsField 32 w ∧ NoEol w

namespace DiskLine

variable (l : DiskLine)

/-- The name and the counters. -/
def fields : Bytes := Lib.joined 32 (l.name :: l.counters)

def text : Bytes := l.skip ++ (l.major ++ (l.between ++ (l.minor ++ 32 :: l.fields)))

/-- The counter of this number, from 1 on. -/
def counter (k : Nat) : Option Bytes := l.counters[k - 1]?

theorem splitOn_fields : l.fields.splitOn 32 = l.name :: l.counters :=
  Lib.splitOn_of_fields (List.cons_ne_nil _ _) fun w hw => (l.words w hw).1

theorem noEol_text : NoEol l.text := by
  have hblanks : NoEol (l.skip ++ l.between) := fun c hc => (l.blanks c hc).2
  have hdigits : NoEol (l.major ++ l.minor) := fun c hc => isEol_of_isDigit (l.digits c hc)
  have hspace : isEol 32 = false := rfl
  rw [noEol_append] at hblanks hdigits
  simp only [text, noEol_append, noEol_cons]
  exact ⟨hblanks.1, hdigits.1, hblanks.2, hdigits.2, hspace,
    noEol_joined fun w hw => (l.words w hw).2⟩

/-- The two numbers are skipped. -/
theorem behind_text : MPdiskstats.Behind l.text l.fields := by
  have hnumber : ∀ {u d v : Bytes}, (∀ c ∈ u, isSpace c = true) →
      (∀ c ∈ d, isDigit c = true) → d ≠ [] → (∀ c, v.head? = some c → isDigit c = false) →
      ((u ++ (d ++ v)).dropWhile isSpace).dropWhile isDigit = v := by
    intro u d v hu hd hne hv
    rw [dropWhile_stop hu fun c hc => ?_, dropWhile_stop hd hv]
    rw [List.head?_append_of_ne_nil _ hne] at hc
    exact isSpace_of_isDigit (hd c (List.mem_of_mem_head? hc))
  -- the first number ends where the blanks between begin
  have hmajor := hnumber (v := l.between ++ (l.minor ++ 32 :: l.fields))
    (fun c hc => (l.blanks c (List.mem_append_left _ hc)).1)
    (fun c hc => l.digits c (List.mem_append_left _ hc)) l.numbers.1 fun c hc => by
      rw [List.head?_append_of_ne_nil _ l.apart] at hc
      have hspace := (l.blanks c (List.mem_append_right _ (List.mem_of_mem_head? hc))).1
      cases hd : isDigit c with
      | false => rfl
      | true => rw [isSpace_of_isDigit hd] at hspace; cases hspace
  have hminor := hnumber (v := 32 :: l.fields)
    (fun c hc => (l.blanks c (List.mem_append_right _ hc)).1)
    (fun c hc => l.digits c (List.mem_append_right _ hc)) l.numbers.2 fun c hc => by
      rw [← Option.some.inj hc]
      rfl
  have hend : MPdiskstats.numbersEnd l.text = l.text.length - (32 :: l.fields).length := by
    unfold MPdiskstats.numbersEnd
    dsimp only
    rw [text, hmajor, hminor]
  -- what is skipped, as one piece
  have hsuffix : l.text = (l.skip ++ (l.major ++ (l.between ++ l.minor))) ++ 32 :: l.fields := by
    simp only [text, List.append_assoc]
  rw [hsuffix, List.length_append, Nat.add_sub_cancel] at hend
  unfold MPdiskstats.Behind
  rw [hsuffix, hend, drop_behind]
  refine ⟨?_, rfl⟩
  simp only [List.length_append, List.length_cons]
  omega

end DiskLine

/-- A name without spaces begins the fields where it begins the name. -/
theorem prefix_fields_iff {diskname : Bytes} (hname : 32 ∉ diskname) (l : DiskLine) :
    diskname <+: l.fields ↔ diskname <+: l.name := by
  have hfields : l.fields = l.name ∨ ∃ rest, l.fields = l.name ++ 32 :: rest := by
    unfold DiskLine.fields
    cases l.counters with
    | nil => exact .inl (by simp [Lib.joined])
    | cons w ws => exact .inr ⟨_, Lib.joined_cons _ (List.cons_ne_nil _ _)⟩
  rcases hfields with h | ⟨rest, h⟩ <;> rw [h]
  refine ⟨fun hpre => ?_, fun hpre => hpre.trans (List.prefix_append _ _)⟩
  rcases List.prefix_or_prefix_of_prefix hpre (List.prefix_append _ _) with hle | ⟨e, rfl⟩
  · exact hle
  · -- what goes on behind the name begins with a space
    cases e with
    | nil => simp
    | cons c e =>
      have hc := (List.cons_prefix_cons.mp ((List.prefix_append_right_inj _).mp hpre)).1
      exact absurd (hc ▸ List.mem_append_right _ List.mem_cons_self) hname

/-- What a line decides. -/
theorem look_text {m : MPdiskstats} (hname : 32 ∉ m.diskname) (hfield : 1 ≤ m.field)
    (l : DiskLine) :
    m.look l.text = if m.diskname.isPrefixOf l.name then .ok (some (l.counter m.field))
      else .ok none := by
  rw [MPdiskstats.look_eq l.behind_text, l.splitOn_fields]
  simp only [prefix_fields_iff hname, List.isPrefixOf_iff_prefix, DiskLine.counter]
  -- the fields are counted from the name, the counters behind it
  obtain ⟨k, hk⟩ := Nat.exists_eq_add_of_le' hfield
  rw [hk, List.getElem?_cons_succ, Nat.add_sub_cancel]

theorem make_diskstats {diskname : Bytes} (hname : 32 ∉ diskname) {k : Nat} (hk : k < 2 ^ 31) :
    MPdiskstats.make (diskname ++ 32 :: decimal k) = ⟨diskname, k⟩ := by
  have hfind : findFrom 32 (diskname ++ 32 :: decimal k) 0 = some diskname.length := by
    simpa using findFrom_at [] (decimal k) hname
  rw [MPdiskstats.make, hfind]
  dsimp only
  rw [List.take_left, List.drop_left, atoi_decimal hk, toSize_nat (by omega)]

/-- The content of the file. -/
def diskContent (ls : List DiskLine) : Bytes := ls.flatMap fun l => l.text ++ [10]

/-- **What is read of a file of such lines.** -/
theorem proc_diskstats_eq (hR : R.ReadsLines maxsiz) {ls : List DiskLine}
    (hfile : env.file (str "/proc/diskstats") = some (diskContent ls))
    (hlen : ∀ l ∈ ls, l.text.length < maxsiz) {diskname : Bytes} (hname : 32 ∉ diskname)
    {k : Nat} (hk : 1 ≤ k) (result : Bytes) :
    MPdiskstats.proc_diskstats R env ⟨diskname, k⟩ result = .ok (foundOr result
      ((ls.find? fun l => diskname.isPrefixOf l.name).map fun l => l.counter k)) := by
  have hstrings := strings_lines hR hfile fun l hl => ⟨l.noEol_text, hlen l hl⟩
  have hlook : whileStrings (MPdiskstats.look ⟨diskname, k⟩) (ls.map DiskLine.text)
      = .ok ((ls.find? fun l => diskname.isPrefixOf l.name).map fun l => l.counter k) :=
    whileStrings_map fun l _ => look_text hname hk l
  rw [MPdiskstats.proc_diskstats, hstrings, hlook]
  rfl

/-- **When the counter of the named disk is given**: the first line whose name begins with the
name is of that name, or shows the same counter at this place. A disk and a number below 2^31
are what the parameter says. -/
theorem disk_counter_iff (hR : R.ReadsLines maxsiz) {ls : List DiskLine}
    (hfile : env.file (str "/proc/diskstats") = some (diskContent ls))
    (hlen : ∀ l ∈ ls, l.text.length < maxsiz) {diskname : Bytes} (hname : 32 ∉ diskname)
    {k : Nat} (hk : 1 ≤ k) (result : Bytes) :
    (k < 2 ^ 31 → MPdiskstats.make (diskname ++ 32 :: decimal k) = ⟨diskname, k⟩) ∧
    (Reports (MPdiskstats.proc_diskstats R env ⟨diskname, k⟩ result)
        (meant (fun l : DiskLine => l.name = diskname) (fun l => l.counter k) ls) ↔
      ∀ l, ls.find? (fun l => diskname.isPrefixOf l.name) = some l → l.name = diskname ∨
        l.counter k = meant (fun l : DiskLine => l.name = diskname) (fun l => l.counter k) ls) := by
  refine ⟨make_diskstats hname, ?_⟩
  -- a line of the very name is among those whose name begins with it
  rw [proc_diskstats_eq hR hfile hlen hname hk, reports_iff (fun l hl => ?_) result]
  · simp only [decide_eq_true_eq]
  · rw [of_decide_eq_true hl]
    exact List.isPrefixOf_iff_prefix.mpr List.prefix_rfl

/-- A line with one counter. -/
def diskLine (name counter : Bytes) (h : ∀ w ∈ [name, counter], Lib.IsField 32 w ∧ NoEol w) :
    DiskLine where
  skip := str "   "
  major := str "8"
  between := str "       "
  minor := str "0"
  name := name
  counters := [counter]
  blanks := forall_mem_of_all (by decide)
  apart := by decide
  digits := forall_mem_of_all (by decide)
  numbers := by decide
  words := h

def sda : DiskLine := diskLine (str "sda") (str "21") (by decide)

def sda1 : DiskLine := diskLine (str "sda1") (str "11") (by decide)

/-- A system with these lines. -/
def withDisks (ls : List DiskLine) : Outside :=
  { nothing with
    file := fun path => if path = str "/proc/diskstats" then some (diskContent ls) else none }

theorem withDisks_file (ls : List DiskLine) :
    (withDisks ls).file (str "/proc/diskstats") = some (diskContent ls) := by
  simp [withDisks]

theorem disk_counter_iff_sda :
    Reports (MPdiskstats.proc_diskstats sampleReaders (withDisks [sda, sda1]) ⟨str "sda", 1⟩ [])
      (some (str "21")) :=
  (disk_counter_iff sampleReaders_readsLines (withDisks_file [sda, sda1]) (by decide +kernel)
    (by decide : 32 ∉ str "sda") (le_refl 1) []).2.mpr fun l hl => by
      obtain rfl : sda = l := Option.some.inj hl
      exact .inl rfl

/-- A partition listed in front of its disk is read for it. -/
theorem partition_counter : ¬ ∀ (R : Readers) (maxsiz : Nat) (env : Outside) (ls : List DiskLine)
    (diskname : Bytes) (k : Nat) (result : Bytes), R.ReadsLines maxsiz →
    env.file (str "/proc/diskstats") = some (diskContent ls) →
    (∀ l ∈ ls, l.text.length < maxsiz) → 32 ∉ diskname → 1 ≤ k →
    Reports (MPdiskstats.proc_diskstats R env ⟨diskname, k⟩ result)
      (meant (fun l : DiskLine => l.name = diskname) (fun l => l.counter k) ls) := by
  intro h
  have hreports := h sampleReaders 2048 (withDisks [sda1, sda]) [sda1, sda] (str "sda") 1 []
    sampleReaders_readsLines (withDisks_file _) (by decide +kernel) (by decide) le_rfl
  rw [proc_diskstats_eq sampleReaders_readsLines (withDisks_file _) (by decide +kernel) (by decide)
    le_rfl, reports_foundOr_iff] at hreports
  exact absurd hreports (by decide +kernel)

end Qigong.Measure
