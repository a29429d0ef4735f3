import Qigong.Conf.Steps
import Qigong.Probe.Scanning

/-!
# How a line of the configuration is read

With the scanners as documented, a turn of the reader takes a known piece off what is
left of the line: a word (`goes_word`), a character (`goes_char`), a time (`goes_time`).
The turns of a line are put together by `Goes.trans`, and those of the lines by
`Takes.append`; between two lines the position is at the end of the one before, and may
be `npos`.
-/

namespace Qigong.Conf

open Probe (Identifier getidentifier_at)

/-- What is relied on in the scanners: they scan as documented, and none of the marks of
the format is a blank or belongs to an identifier, nor does a line end. -/
structure ConfScanners.Described (S : ConfScanners) (blank ident fqdn : UInt8 → Bool) : Prop
    extends S.toScanners.Documented blank ident, S.toScanners.ReadsDigits blank where
  seekspace : ∀ s p, S.seekspace s p = seek blank s p
  getfqdn : ∀ s p, S.getfqdn s p = scan blank fqdn s p
  marks : ∀ c ∈ str "#()\x7b\x7d=:", blank c = false ∧ ident c = false
  fqdn_marks : fqdn 32 = false ∧ fqdn 58 = false
  breaks : ∀ c, c = 10 ∨ c = 13 → ident c = false ∧ fqdn c = false

variable {E : ConfEnv} {blank ident fqdn : UInt8 → Bool}

/-! ## Blanks -/

def Blanks (blank : UInt8 → Bool) (skip : Bytes) : Prop := ∀ c ∈ skip, blank c = true

instance (skip : Bytes) : Decidable (Blanks blank skip) :=
  List.decidableBAll (fun c => blank c = true) skip

/-- Behind blanks a character is found that is none. -/
theorem seek_at (pre : Bytes) {skip : Bytes} (hskip : Blanks blank skip) {c : UInt8}
    (hc : blank c = false) (post : Bytes) :
    seek blank (pre ++ (skip ++ c :: post)) pre.length = (pre ++ skip).length := by
  have hdrop : (skip ++ c :: post).dropWhile blank = c :: post := by
    rw [List.dropWhile_append_of_pos hskip, List.dropWhile_cons_of_neg]
    rw [hc]
    exact Bool.false_ne_true
  simp only [seek, List.drop_left, hdrop, List.cons_ne_nil, if_false, List.length_append]
  omega

/-- What the reader holds, and what is left of the line. -/
structure Spot where
  r : ReadConf
  conf : CollectionsConf
  post : Bytes

/-- The position at a spot of a line; where nothing is left it may be `npos`. -/
def Spot.At (s : Bytes) (a : Spot) (p : Nat) : Prop :=
  p = s.length - a.post.length ∨ a.post = [] ∧ p = npos

variable {s : Bytes} {a b c : Spot}

/-- The reader comes from one spot of a line to another. -/
def Goes (E : ConfEnv) (s : Bytes) (a b : Spot) : Prop :=
  s.length < npos → a.post <:+ s → b.post <:+ s ∧ ∀ rest p, a.At s p →
    ∃ q, b.At s q ∧ Lib.Turns (turn E) ⟨⟨a.r, a.conf, p⟩, s, rest⟩ ⟨⟨b.r, b.conf, q⟩, s, rest⟩

theorem Goes.refl (a : Spot) : Goes E s a a :=
  fun _ hs => ⟨hs, fun _ p hp => ⟨p, hp, .refl⟩⟩

theorem Goes.trans (hab : Goes E s a b) (hbc : Goes E s b c) : Goes E s a c := by
  intro hlen hs
  obtain ⟨hb, hab⟩ := hab hlen hs
  obtain ⟨hc, hbc⟩ := hbc hlen hb
  refine ⟨hc, fun rest p hp => ?_⟩
  obtain ⟨q, hq, hturns⟩ := hab rest p hp
  obtain ⟨q', hq', hturns'⟩ := hbc rest q hq
  exact ⟨q', hq', hturns.trans hturns'⟩

/-- What is left of the line, written in another way. -/
theorem Goes.of_eq {r : ReadConf} {conf : CollectionsConf} {post post' : Bytes}
    (h : Goes E s ⟨r, conf, post'⟩ b) (heq : post = post') : Goes E s ⟨r, conf, post⟩ b :=
  heq ▸ h

section pieces

variable {r : ReadConf} {conf : CollectionsConf} {skip post : Bytes}

/-- The character at a place in the line. -/
theorem getElem?_head (pre post : Bytes) : (pre ++ post)[pre.length]? = post.head? := by
  rw [List.getElem?_append_right le_rfl, Nat.sub_self, List.head?_eq_getElem?]

theorem suffix_append (pre word post : Bytes) : post <:+ pre ++ (word ++ post) :=
  (List.suffix_append _ _).trans (List.suffix_append _ _)

/-- A number of seconds as it is written: a number and the letter of a unit. -/
structure Span where
  count : Nat
  letter : UInt8
  unit : Int
  letter_unit : unitOf letter = some unit
  pos : 0 < count
  long : count * unit < 2 ^ 63

namespace Span

def text (t : Span) : Bytes := decimal t.count ++ [t.letter]

def seconds (t : Span) : Int := t.count * t.unit

end Span

end pieces

/-! ## Line after line -/

/-- The reader takes these lines: what it holds before and behind them. -/
def Takes (E : ConfEnv) (ls : List Bytes) (r : ReadConf) (conf : CollectionsConf) (r' : ReadConf)
    (conf' : CollectionsConf) : Prop :=
  ∀ y rest, y.r = r → y.conf = conf → ¬ y.InLine → y.rest = ls ++ rest →
    (∀ l ∈ ls, l.length < npos) →
    ∃ y', Lib.Turns (turn E) y y' ∧ y'.r = r' ∧ y'.conf = conf' ∧ ¬ y'.InLine ∧ y'.rest = rest

theorem Takes.nil (r : ReadConf) (conf : CollectionsConf) : Takes E [] r conf r conf :=
  fun y _ hr hconf hin hrest _ => ⟨y, .refl, hr, hconf, hin, hrest⟩

theorem Takes.append {ls ls' : List Bytes} {r r' r'' : ReadConf} {conf conf' conf'' : CollectionsConf}
    (h : Takes E ls r conf r' conf') (h' : Takes E ls' r' conf' r'' conf'') :
    Takes E (ls ++ ls') r conf r'' conf'' := by
  intro y rest hr hconf hin hrest hlen
  obtain ⟨z, hyz, hr', hconf', hin', hrest'⟩ := h y (ls' ++ rest) hr hconf hin
    (by rw [hrest, List.append_assoc]) fun l hl => hlen l (List.mem_append_left _ hl)
  obtain ⟨w, hzw, hw⟩ := h' z rest hr' hconf' hin' hrest'
    fun l hl => hlen l (List.mem_append_right _ hl)
  exact ⟨w, hyz.trans hzw, hw⟩

/-- The sample scanners of files do what is documented of them. -/
theorem sampleEnv_described (fns : List Bytes) :
    (sampleEnv fns).Described isBlank isIdent isFqdn where
  toDocumented := sampleScanners_documented
  toReadsDigits := sampleScanners_readsDigits
  seekspace _ _ := rfl
  getfqdn _ _ := rfl
  marks := forall_mem_of_all (by decide)
  fqdn_marks := by decide
  breaks := by
    rintro c (rfl | rfl)
    · decide
    · decide

end Qigong.Conf
