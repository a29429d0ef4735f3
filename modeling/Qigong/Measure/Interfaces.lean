import Qigong.Measure.Named

/-!
# Counters of an interface (qimeasure.cpp:159–207)

`proc_net_dev` looks for the name and the colon behind it anywhere in a line, so that the lines
of all interfaces whose names end so are taken for that interface's (`findWord_colon`): `veth0`
for `eth0`. The first of them is the one that is read (`interface_counter_iff`).
-/

namespace Qigong.Measure

variable {R : Readers} {blank : UInt8 → Bool} {env : Outside} {maxsiz : Nat}

/-! ## Lines -/

/-- Numbers, the blanks before each, and the blanks behind the last. -/
def numbersText (numbers : List (Bytes × Bytes)) (trail : Bytes) : Bytes :=
  numbers.flatMap (fun f => f.1 ++ f.2) ++ trail

/-- Numbers with blanks before each, of which the first may have none. -/
structure Spaced (numbers : List (Bytes × Bytes)) (trail : Bytes) : Prop where
  blanks : ∀ c ∈ numbers.flatMap Prod.fst ++ trail, c = 32
  apart : ∀ f ∈ numbers.tail, f.1 ≠ []
  digits : ∀ f ∈ numbers, f.2 ≠ [] ∧ ∀ c ∈ f.2, isDigit c = true

/-- A line of the data of `/proc/net/dev`: blanks, a name, a colon and numbers. -/
structure NetLine where
  skip : Bytes
  name : Bytes
  numbers : List (Bytes × Bytes)
  trail : Bytes
  skips : ∀ c ∈ skip, c = 32
  noEol : NoEol name
  single : 32 ∉ name ∧ 58 ∉ name
  spaced : Spaced numbers trail

theorem Spaced.mem_text {numbers : List (Bytes × Bytes)} {trail : Bytes} (h : Spaced numbers trail)
    {c : UInt8} (hc : c ∈ numbersText numbers trail) : c = 32 ∨ isDigit c = true := by
  rcases List.mem_append.mp hc with hc | hc
  · obtain ⟨f, hf, hc⟩ := List.mem_flatMap.mp hc
    rcases List.mem_append.mp hc with hc | hc
    · exact .inl (h.blanks c (List.mem_append_left _ (List.mem_flatMap.mpr ⟨f, hf, hc⟩)))
    · exact .inr ((h.digits f hf).2 c hc)
  · exact .inl (h.blanks c (List.mem_append_right _ hc))

namespace NetLine

variable (l : NetLine)

def text : Bytes := (l.skip ++ l.name) ++ 58 :: numbersText l.numbers l.trail

/-- The number at this place, from 0 on. -/
def number (k : Nat) : Option Bytes := (l.numbers[k]?).map Prod.snd

theorem noEol_text : NoEol l.text := by
  have hnumbers : NoEol (numbersText l.numbers l.trail) := fun c hc => by
    rcases l.spaced.mem_text hc with rfl | hd
    · rfl
    · exact isEol_of_isDigit hd
  have hskip : NoEol l.skip := fun c hc => by
    rw [l.skips c hc]
    rfl
  simp only [text, noEol_append, noEol_cons]
  exact ⟨⟨hskip, l.noEol⟩, rfl, hnumbers⟩

end NetLine

/-- A line of the file: a heading, which holds no colon, or a line of data. -/
inductive NetFileLine where
  | heading (text : Bytes) (noEol : NoEol text) (noColon : 58 ∉ text)
  | data (l : NetLine)

namespace NetFileLine

def text : NetFileLine → Bytes
  | heading text _ _ => text
  | data l => l.text

/-- The line is of an interface whose name passes the test. -/
def test (p : Bytes → Bool) : NetFileLine → Bool
  | heading _ _ _ => false
  | data l => p l.name

def number (k : Nat) : NetFileLine → Option Bytes
  | heading _ _ _ => none
  | data l => l.number k

theorem noEol_text : ∀ l : NetFileLine, NoEol l.text
  | heading _ noEol _ => noEol
  | data l => l.noEol_text

end NetFileLine

/-! ## The name and the colon -/

theorem findWord_eq_some_iff {w s : Bytes} {p : Nat} : findWord w s = some p ↔
    w <+: s.drop p ∧ p ≤ s.length ∧ ∀ q < p, ¬ w <+: s.drop q := by
  unfold findWord
  rw [List.find?_range_eq_some, List.isPrefixOf_iff_prefix, List.mem_range, Nat.lt_succ_iff]
  simp only [Bool.not_eq_true', ← Bool.not_eq_true, List.isPrefixOf_iff_prefix]

/-- A word with a colon behind it stands in front of the only colon. -/
theorem prefix_drop_colon {w pre post : Bytes} (hpre : 58 ∉ pre) (hpost : 58 ∉ post) {p : Nat}
    (hp : p ≤ (pre ++ 58 :: post).length) (h : w ++ [58] <+: (pre ++ 58 :: post).drop p) :
    ∃ u, u.length = p ∧ pre = u ++ w := by
  obtain ⟨rest, hrest⟩ := h
  have hsplit : pre ++ 58 :: post = ((pre ++ 58 :: post).take p ++ w) ++ 58 :: rest := by
    conv_lhs => rw [← List.take_append_drop p (pre ++ 58 :: post), ← hrest]
    simp
  exact ⟨_, List.length_take_of_le hp, ((List.append_cons_inj_of_notMem hpre hpost).mp hsplit).1⟩

/-- **Where a name and a colon are found**: the text in front of the only colon ends so. -/
theorem findWord_colon {w pre post : Bytes} (hpre : 58 ∉ pre) (hpost : 58 ∉ post) :
    findWord (w ++ [58]) (pre ++ 58 :: post) =
      if w <:+ pre then some (pre.length - w.length) else none := by
  split
  case isTrue hsuffix =>
    obtain ⟨u, rfl⟩ := hsuffix
    rw [List.length_append, Nat.add_sub_cancel]
    refine findWord_eq_some_iff.mpr ⟨?_, by simp only [List.length_append]; omega, ?_⟩
    · rw [List.append_assoc, List.drop_left]
      exact ⟨post, List.append_cons w 58 post ▸ rfl⟩
    · intro q hq h
      have hle : q ≤ ((u ++ w) ++ 58 :: post).length := by
        simp only [List.length_append]
        omega
      obtain ⟨u', rfl, heq⟩ := prefix_drop_colon hpre hpost hle h
      have hlen := congrArg List.length heq
      simp only [List.length_append] at hlen
      omega
  case isFalse hno =>
    refine Option.eq_none_iff_forall_not_mem.mpr fun p hp => hno ?_
    obtain ⟨hword, hle, -⟩ := findWord_eq_some_iff.mp hp
    obtain ⟨u, -, rfl⟩ := prefix_drop_colon hpre hpost hle hword
    exact List.suffix_append _ _

/-- A name without blanks ends the text behind blanks where it ends the name. -/
theorem suffix_skip_iff {w skip name : Bytes} (hw : 32 ∉ w) (hskip : ∀ c ∈ skip, c = 32) :
    w <:+ skip ++ name ↔ w <:+ name := by
  refine ⟨fun h => ?_, fun h => h.trans (List.suffix_append _ _)⟩
  rcases List.suffix_or_suffix_of_suffix h (List.suffix_append skip name) with hle | ⟨e, rfl⟩
  · exact hle
  · -- what goes on in front of the name ends with a blank
    obtain ⟨u, hu⟩ := h
    rw [← List.append_assoc] at hu
    have hskip' := List.append_cancel_right hu
    cases e with
    | nil => simp
    | cons c e =>
      have hc := hskip c (hskip' ▸ List.mem_append_right _ List.mem_cons_self)
      exact absurd (hc ▸ List.mem_append_left _ List.mem_cons_self) hw

/-! ## The numbers -/

section numbers

variable {numbers : List (Bytes × Bytes)} {trail : Bytes}

/-- The text from the first number on. -/
def fromNumber (trail : Bytes) : List (Bytes × Bytes) → Bytes
  | [] => []
  | f :: fs => f.2 ++ numbersText fs trail

theorem numbersText_cons (f : Bytes × Bytes) (fs : List (Bytes × Bytes)) (trail : Bytes) :
    numbersText (f :: fs) trail = f.1 ++ (f.2 ++ numbersText fs trail) := by
  simp [numbersText]

namespace Spaced

theorem tail {f : Bytes × Bytes} (h : Spaced (f :: numbers) trail) : Spaced numbers trail where
  blanks c hc := h.blanks c (by
    rw [List.flatMap_cons, List.append_assoc]
    exact List.mem_append_right _ hc)
  apart g hg := h.apart g (List.mem_of_mem_tail hg)
  digits g hg := h.digits g (List.mem_cons_of_mem _ hg)

/-- Behind a number stands a blank, or nothing. -/
theorem head_behind {f : Bytes × Bytes} (h : Spaced (f :: numbers) trail) {c : UInt8}
    (hc : (numbersText numbers trail).head? = some c) : c = 32 := by
  cases numbers with
  | nil => exact h.blanks c (List.mem_append_right _ (List.mem_of_mem_head? hc))
  | cons g gs =>
    rw [numbersText_cons, List.head?_append_of_ne_nil _ (h.apart g List.mem_cons_self)] at hc
    refine h.blanks c (List.mem_append_left _ (List.mem_flatMap.mpr ⟨g, ?_, ?_⟩))
    · exact List.mem_cons_of_mem _ List.mem_cons_self
    · exact List.mem_of_mem_head? hc

variable (hspace : blank 32 = true) (hdigits : ∀ c, isDigit c = true → blank c = false)
include hspace hdigits

/-- The blanks before a number are skipped. -/
theorem dropWhile_text (h : Spaced numbers trail) :
    (numbersText numbers trail).dropWhile blank = fromNumber trail numbers := by
  have hblank : ∀ c ∈ numbers.flatMap Prod.fst ++ trail, blank c = true := fun c hc =>
    (h.blanks c hc).symm ▸ hspace
  cases numbers with
  | nil => exact List.dropWhile_eq_nil_iff.mpr hblank
  | cons f fs =>
    rw [numbersText_cons]
    refine dropWhile_stop (fun c hc => hblank c ?_) fun c hc => ?_
    · exact List.mem_append_left _ (List.mem_flatMap.mpr ⟨f, List.mem_cons_self, hc⟩)
    · obtain ⟨hne, hall⟩ := h.digits f List.mem_cons_self
      rw [List.head?_append_of_ne_nil _ hne] at hc
      exact hdigits c (hall c (List.mem_of_mem_head? hc))

/-- **Step lemma**: an integer is read, and the blanks behind it. -/
theorem behindInteger {f : Bytes × Bytes} (h : Spaced (f :: numbers) trail) :
    MPnetstats.behindInteger blank (fromNumber trail (f :: numbers))
      = fromNumber trail numbers := by
  have hread : (fromNumber trail (f :: numbers)).dropWhile isDigit = numbersText numbers trail :=
    dropWhile_stop (h.digits f List.mem_cons_self).2 fun c hc => by
      rw [h.head_behind hc]
      rfl
  rw [MPnetstats.behindInteger, hread, h.tail.dropWhile_text hspace hdigits]

/-- **Behind as many integers stands the number of that place.** -/
theorem behindIntegers (h : Spaced numbers trail) (k : Nat) :
    MPnetstats.behindIntegers blank k (numbersText numbers trail)
      = fromNumber trail (numbers.drop k) := by
  rw [MPnetstats.behindIntegers, h.dropWhile_text hspace hdigits]
  induction k generalizing numbers with
  | zero => rfl
  | succ k ih =>
    rw [Function.iterate_succ_apply]
    cases numbers with
    | nil => exact MPnetstats.behindInteger_nil k
    | cons f fs =>
      rw [h.behindInteger hspace hdigits]
      exact ih h.tail

end Spaced

theorem Spaced.drop (h : Spaced numbers trail) (k : Nat) : Spaced (numbers.drop k) trail := by
  induction k generalizing numbers with
  | zero => exact h
  | succ k ih =>
    cases numbers with
    | nil => exact h
    | cons f fs => exact ih h.tail

theorem Spaced.wordOf (h : Spaced numbers trail) :
    MPnetstats.wordOf (fromNumber trail numbers) = numbers.head?.map Prod.snd := by
  cases numbers with
  | nil => rfl
  | cons f fs =>
    obtain ⟨hne, hall⟩ := h.digits f List.mem_cons_self
    have hfree : 32 ∉ f.2 := fun hmem => absurd (hall 32 hmem) (by decide)
    have htake : (f.2 ++ numbersText fs trail).takeWhile (· != 32) = f.2 := by
      cases ht : numbersText fs trail with
      | nil => rw [List.append_nil, takeWhile_no_space hfree]
      | cons c t =>
        obtain rfl : c = 32 := h.head_behind (by rw [ht]; rfl)
        exact takeWhile_space hfree
    rw [MPnetstats.wordOf, fromNumber, if_neg (List.append_ne_nil_of_left_ne_nil hne _), htake]
    rfl

end numbers

/-! ## The lines of the file -/

/-- The object for a name and a place. -/
def netstats (intname : Bytes) (k : Nat) : MPnetstats := ⟨intname ++ str ":", k⟩

theorem make_netstats {intname : Bytes} (hname : 32 ∉ intname) {k : Nat} (hk : k < 2 ^ 31) :
    MPnetstats.make (intname ++ 32 :: decimal k) = netstats intname k := by
  have hfind : findFrom 32 (intname ++ 32 :: decimal k) 0 = some intname.length := by
    simpa using findFrom_at [] (decimal k) hname
  rw [MPnetstats.make, hfind]
  dsimp only
  rw [List.take_left, List.drop_left, atoi_decimal hk, toSize_nat (by omega)]
  rfl

/-- What a line decides. -/
theorem look_line (hR : R.Described blank) (hdigits : ∀ c, isDigit c = true → blank c = false)
    {intname : Bytes} (hname : 32 ∉ intname) (k : Nat) {l : NetFileLine}
    (hlen : l.text.length < npos) :
    (netstats intname k).look R l.text = if l.test intname.isSuffixOf then .ok (some (l.number k))
      else .ok none := by
  cases l with
  | heading t noEol noColon =>
    refine MPnetstats.look_eq_none_iff.mpr (Option.eq_none_iff_forall_not_mem.mpr fun p hp => ?_)
    obtain ⟨⟨rest, hrest⟩, -⟩ := findWord_eq_some_iff.mp hp
    refine noColon (List.mem_of_mem_drop (i := p) (hrest ▸ ?_))
    exact List.mem_append_left _ (List.mem_append_right _ List.mem_cons_self)
  | data l =>
    have hpre : 58 ∉ l.skip ++ l.name := fun hmem => by
      rcases List.mem_append.mp hmem with hmem | hmem
      · exact absurd (l.skips 58 hmem) (by decide)
      · exact l.single.2 hmem
    have hpost : 58 ∉ numbersText l.numbers l.trail := fun hmem => by
      rcases l.spaced.mem_text hmem with h | h <;> exact absurd h (by decide)
    have hfind := findWord_colon (w := intname) hpre hpost
    simp only [suffix_skip_iff hname l.skips] at hfind
    simp only [NetFileLine.test, List.isSuffixOf_iff_suffix]
    split
    case isTrue hsuffix =>
      rw [if_pos hsuffix] at hfind
      rw [MPnetstats.look_found hR hlen hfind]
      -- what follows the colon are the numbers
      have hle := hsuffix.length_le
      have hdrop : l.text.drop ((l.skip ++ l.name).length - intname.length
          + (netstats intname k).intname.length) = numbersText l.numbers l.trail := by
        have hpos : (l.skip ++ l.name).length - intname.length
            + (netstats intname k).intname.length = (l.skip ++ l.name).length + 1 := by
          have hcolon : (netstats intname k).intname.length = intname.length + 1 := by
            simp [netstats, str]
          rw [hcolon, List.length_append]
          omega
        rw [hpos]
        exact drop_behind _ _ _
      show Except.ok (some (MPnetstats.wordOf (MPnetstats.behindIntegers blank k
        (l.text.drop _)))) = _
      rw [hdrop, l.spaced.behindIntegers hR.space hdigits, (l.spaced.drop k).wordOf,
        List.head?_drop]
      rfl
    case isFalse hno =>
      rw [if_neg hno] at hfind
      exact MPnetstats.look_eq_none_iff.mpr hfind

/-- The content of the file. -/
def netContent (ls : List NetFileLine) : Bytes := ls.flatMap fun l => l.text ++ [10]

/-- **What is read of a file of such lines.** -/
theorem proc_net_dev_eq (hR : R.Described blank) (hdigits : ∀ c, isDigit c = true → blank c = false)
    (hlines : R.ReadsLines maxsiz) {ls : List NetFileLine}
    (hfile : env.file (str "/proc/net/dev") = some (netContent ls))
    (hlen : ∀ l ∈ ls, l.text.length < maxsiz) {intname : Bytes} (hname : 32 ∉ intname) (k : Nat)
    (result : Bytes) :
    (netstats intname k).proc_net_dev R env result = .ok (foundOr result
      ((ls.find? fun l => l.test intname.isSuffixOf).map fun l => l.number k)) := by
  have hstrings := strings_lines hlines hfile fun l hl => ⟨l.noEol_text, hlen l hl⟩
  have hlook : whileStrings ((netstats intname k).look R) (ls.map NetFileLine.text)
      = .ok ((ls.find? fun l => l.test intname.isSuffixOf).map fun l => l.number k) :=
    whileStrings_map fun l hl => look_line hR hdigits hname k (by
      refine hR.strings (netContent ls) l.text ?_
      have hread : (R.getstrings (netContent ls)).1 = ls.map NetFileLine.text := by
        rw [← hstrings, strings, hfile]
      rw [hread]
      exact List.mem_map_of_mem hl)
  rw [MPnetstats.proc_net_dev, hstrings, hlook]
  rfl

/-- **When the number of the named interface is given**: the first line of data whose name ends
with the name is of that name, or shows the same number at this place. An interface and a place
below 2^31 are what the parameter says. -/
theorem interface_counter_iff (hR : R.Described blank)
    (hdigits : ∀ c, isDigit c = true → blank c = false) (hlines : R.ReadsLines maxsiz)
    {ls : List NetFileLine} (hfile : env.file (str "/proc/net/dev") = some (netContent ls))
    (hlen : ∀ l ∈ ls, l.text.length < maxsiz) {intname : Bytes} (hname : 32 ∉ intname) (k : Nat)
    (result : Bytes) :
    (k < 2 ^ 31 → MPnetstats.make (intname ++ 32 :: decimal k) = netstats intname k) ∧
    (Reports ((netstats intname k).proc_net_dev R env result)
        (meant (fun l => l.test fun n => n = intname) (fun l => l.number k) ls) ↔
      ∀ l, ls.find? (fun l => l.test intname.isSuffixOf) = some l →
        (l.test fun n => n = intname) = true ∨
          l.number k = meant (fun l => l.test fun n => n = intname) (fun l => l.number k) ls) := by
  refine ⟨make_netstats hname, ?_⟩
  rw [proc_net_dev_eq hR hdigits hlines hfile hlen hname k, reports_iff (fun l hl => ?_) result]
  cases l with
  | heading t noEol noColon => cases hl
  | data l =>
    have heq : l.name = intname := of_decide_eq_true hl
    show intname.isSuffixOf l.name = true
    rw [heq]
    exact List.isSuffixOf_iff_suffix.mpr List.suffix_rfl

/-- A line with two numbers, the first without a blank before it. -/
def netLine (name : Bytes) (h : NoEol name ∧ 32 ∉ name ∧ 58 ∉ name) : NetFileLine :=
  .data {
    skip := str "  "
    name := name
    numbers := [([], str "10"), (str " ", decimal name.length)]
    trail := []
    skips := forall_mem_of_all (by decide)
    noEol := h.1
    single := h.2
    spaced := {
      blanks := forall_mem_of_all (P := (· = 32)) (by simp [str])
      apart := by simp [str]
      digits := by
        intro f hf
        rcases List.mem_cons.mp hf with rfl | hf
        · exact ⟨by decide, forall_mem_of_all (by decide)⟩
        · rw [List.mem_singleton.mp hf]
          exact ⟨decimal_nat_ne_nil _, isDigit_decimal _⟩ } }

def heading : NetFileLine :=
  .heading (str "Inter-|   Receive  |  Transmit") (by decide) (by decide)

def eth0 : NetFileLine := netLine (str "eth0") (by decide)

def veth0 : NetFileLine := netLine (str "veth0") (by decide)

/-- A system with these lines. -/
def withInterfaces (ls : List NetFileLine) : Outside :=
  { nothing with
    file := fun path => if path = str "/proc/net/dev" then some (netContent ls) else none }

theorem withInterfaces_file (ls : List NetFileLine) :
    (withInterfaces ls).file (str "/proc/net/dev") = some (netContent ls) := by
  simp [withInterfaces]

theorem interface_counter_iff_eth0 :
    Reports ((netstats (str "eth0") 1).proc_net_dev sampleReaders
      (withInterfaces [heading, eth0, veth0]) []) (some (str "4")) :=
  (interface_counter_iff sampleReaders_described sampleScanners_readsDigits.digits
    sampleReaders_readsLines (withInterfaces_file [heading, eth0, veth0]) (by decide +kernel)
    (by decide : 32 ∉ str "eth0") 1 []).2.mpr fun l hl => by
      obtain rfl : eth0 = l := Option.some.inj hl
      exact .inl rfl

/-- An interface whose name ends with that of another is read for it. -/
theorem virtual_counter : ¬ ∀ (R : Readers) (blank : UInt8 → Bool) (maxsiz : Nat) (env : Outside)
    (ls : List NetFileLine) (intname : Bytes) (k : Nat) (result : Bytes), R.Described blank →
    (∀ c, isDigit c = true → blank c = false) → R.ReadsLines maxsiz →
    env.file (str "/proc/net/dev") = some (netContent ls) →
    (∀ l ∈ ls, l.text.length < maxsiz) → 32 ∉ intname → 58 ∉ intname →
    Reports ((netstats intname k).proc_net_dev R env result)
      (meant (fun l => l.test fun n => n = intname) (fun l => l.number k) ls) := by
  intro h
  have hreports := h sampleReaders isBlank 2048 (withInterfaces [heading, veth0, eth0])
    [heading, veth0, eth0] (str "eth0") 1 [] sampleReaders_described
    sampleScanners_readsDigits.digits sampleReaders_readsLines (withInterfaces_file _)
    (by decide +kernel) (by decide) (by decide)
  rw [proc_net_dev_eq sampleReaders_described sampleScanners_readsDigits.digits
    sampleReaders_readsLines (withInterfaces_file _) (by decide +kernel) (by decide),
    reports_foundOr_iff] at hreports
  exact absurd hreports (by decide +kernel)

end Qigong.Measure
