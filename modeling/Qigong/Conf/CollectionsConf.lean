import Mathlib.Data.List.Sort
import Qigong.Bytes
import Qigong.Lib.OrdMap

/-!
# The configuration of qicollect (qicollect.h:34–190, qicollect.cpp:413–590)

The collection sets that the reader of the configuration builds. Pointers to sets are the
sets themselves: a set belongs to the reader until it is put in the configuration, and to
the configuration from then on. What a set is given later (its connection and its state)
and what is only printed on the standard error is left out.
-/

namespace Qigong.Conf

/-- The quotient and the remainder of two `long`; the machine has none for a divisor of
zero, nor for a quotient that is no `long`. -/
def ldiv (a b : Int) : Option (Int × Int) :=
  if b = 0 ∨ (a = -2 ^ 63 ∧ b = -1) then none else some (a.tdiv b, a.tmod b)

/-- `TaggedMeasuredPoint` (qicollect.h:38–57). -/
structure TaggedMeasuredPoint where
  tagname : Bytes
  fn : Bytes
  params : Bytes
deriving DecidableEq, Repr

/-- `CollectFreqDuration` (qicollect.h:63–75). -/
structure CollectFreqDuration where
  interval : Int
  duration : Int
deriving DecidableEq, Repr

/-- `CollectionSet` (qicollect.h:91–162). -/
structure CollectionSet where
  name : Bytes
  metaname : Bytes
  fqdn : Bytes
  port : Int
  key : Bytes
  fullkey : Bytes
  lptagmp : List TaggedMeasuredPoint
  lfreq : List CollectFreqDuration
  base_interval : Int
deriving DecidableEq, Repr

/-- The port of a set that is given none. -/
def defaultPort : Int := 1264

namespace CollectionSet

/-- The name of the rrd of a set. -/
def keyOf (metaname name : Bytes) : Bytes := metaname ++ str "_" ++ name

/-- The name of a set on the qigong. -/
def fullkeyOf (serverkey key : Bytes) : Bytes :=
  if serverkey.length ≠ 0 then serverkey ++ str "_" ++ key else key

/-- The constructor of `CollectionSet`. -/
def make (serverkey name metaname fqdn : Bytes) (port : Int) : CollectionSet where
  name := name
  metaname := metaname
  fqdn := fqdn
  port := port
  key := keyOf metaname name
  fullkey := fullkeyOf serverkey (keyOf metaname name)
  lptagmp := []
  lfreq := []
  base_interval := 0

/-- `push_back (TaggedMeasuredPoint *)`. -/
def push_point (cs : CollectionSet) (t : TaggedMeasuredPoint) : CollectionSet :=
  { cs with lptagmp := cs.lptagmp ++ [t] }

/-- `push_back (CollectFreqDuration &)`. -/
def push_freq (cs : CollectionSet) (freq : CollectFreqDuration) : CollectionSet :=
  { cs with lfreq := cs.lfreq ++ [freq] }

end CollectionSet

/-- One turn of the loop of `validate_freqs` (qicollect.cpp:459–473): an entry is counted
when its interval is no multiple of the base interval. -/
def warned (base_interval : Int) (nbw : Nat) (li : CollectFreqDuration) : Option Nat :=
  (ldiv li.interval base_interval).bind fun q =>
    (ldiv li.duration (q.1 * base_interval)).map fun _ => if q.2 ≠ 0 then nbw + 1 else nbw

/-- `CollectionSet::validate_freqs` (qicollect.cpp:454–475): the set with its entries in
order, and how many are no multiples; `none` where a division has no result. In a list
without entries, `beyond` is read for the interval of the first. -/
def CollectionSet.validate_freqs (beyond : Int) (cs : CollectionSet) :
    Option (CollectionSet × Nat) :=
  let lfreq : List CollectFreqDuration :=
    cs.lfreq.insertionSort fun a b => a.interval ≤ b.interval
  let base_interval := (lfreq.head?.map (·.interval)).getD beyond
  (lfreq.foldlM (warned base_interval) 0).map fun nbw =>
    ({ cs with lfreq := lfreq, base_interval := base_interval }, nbw)

/-- `CollectionsConf`, by full key. -/
abbrev CollectionsConf := Lib.OrdMap Bytes CollectionSet

/-- `CollectionsConf::push_back` (qicollect.cpp:582–590); `none` where it gives `false`. -/
def CollectionsConf.push_back (conf : CollectionsConf) (cs : CollectionSet) :
    Option CollectionsConf :=
  if conf.contains cs.fullkey then none else some (conf.insert cs.fullkey cs)

/-! ## What the functions keep -/

namespace CollectionSet

variable {cs cs' : CollectionSet} {beyond : Int} {nbw : Nat}

/-- The check changes the entries and the interval of a set alone. -/
theorem validate_freqs_eq_some (h : cs.validate_freqs beyond = some (cs', nbw)) :
    cs' = { cs with lfreq := cs'.lfreq, base_interval := cs'.base_interval } := by
  unfold validate_freqs at h
  obtain ⟨_, -, h⟩ := Option.map_eq_some_iff.mp h
  rw [← (Prod.mk.inj h).1]

theorem key_of_validate_freqs (h : cs.validate_freqs beyond = some (cs', nbw)) :
    cs'.key = cs.key := by
  rw [validate_freqs_eq_some h]

theorem fullkey_of_validate_freqs (h : cs.validate_freqs beyond = some (cs', nbw)) :
    cs'.fullkey = cs.fullkey := by
  rw [validate_freqs_eq_some h]

/-- Two sets of one key have one name only when they have one server key. -/
theorem fullkeyOf_inj {serverkey serverkey' key : Bytes} :
    fullkeyOf serverkey key = fullkeyOf serverkey' key ↔ serverkey = serverkey' := by
  refine ⟨fun h => ?_, fun h => h ▸ rfl⟩
  have hlen := congrArg List.length h
  simp only [fullkeyOf, apply_ite List.length, List.length_append] at hlen
  have hsep : (str "_").length = 1 := rfl
  by_cases hs : serverkey = [] <;> by_cases hs' : serverkey' = []
  · rw [hs, hs']
  · simp [hs, hs', hsep] at hlen
  · simp [hs, hs', hsep] at hlen
  · simpa [fullkeyOf, hs, hs'] using h

end CollectionSet

theorem CollectionsConf.push_back_eq_some {conf conf' : CollectionsConf} {cs : CollectionSet} :
    conf.push_back cs = some conf' ↔
      conf.find? cs.fullkey = none ∧ conf' = conf.insert cs.fullkey cs := by
  unfold push_back Lib.OrdMap.contains
  cases conf.find? cs.fullkey with
  | none => simp [eq_comm]
  | some cs₀ => simp

end Qigong.Conf
