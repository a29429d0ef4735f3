import Qigong.Lib.Machine
import Qigong.Lib.Pairs
import Qigong.Measure.Filelen

/-!
# `LogCountConn` (qimeasure.cpp:213–270)

The line ends of a log are counted as it grows. `read` counts what each `::read` gives by itself,
so that the second byte of a pair is looked for in the block of the first one only: a pair that
a block boundary falls into is counted twice. Nothing is carried over, neither from block to
block nor from one `read` to the next.

How much is counted too much is a fact about texts that are counted in blocks (`Lib.Ends`):
the count is that of the whole where an even number of bytes that pair up stand behind each cut
into a pair (`counted_iff`).
-/

namespace Qigong.Measure

/-! ## The connection -/

/-- `LCC_BUFLEN`. -/
def LCC_BUFLEN : Nat := 4096

/-- Line ends, and their pairs. -/
def eols : Lib.Ends UInt8 := ⟨isEol, isEolPair, fun _ _ h => isEol_of_pair h⟩

/-- The line ends of a text; the `for` of `read` counts them in what one `::read` gives
(qimeasure.cpp:241–249). -/
def lineEnds (s : Bytes) : Nat := eols.count s

/-- `LogCountConn`; `reading` is what it has asked its pool for. -/
structure LogCountConn where
  nl : Int
  fname : Bytes
  prevsize : Int
  reading : Bool
deriving DecidableEq, Repr

namespace LogCountConn

/-- The constructor. -/
def make (fname : Bytes) : LogCountConn :=
  { nl := 0, fname := fname, prevsize := 0, reading := false }

/-- The `while` of `read`, on what the calls of `::read` give one after the other (`none` is an
error): `nl` and `bread` behind it. The calls are as many as the loop makes. -/
def readLoop : (nl : Int) → (bread : Nat) → List (Option Bytes) → Option (Int × Nat)
  | _, _, [] => none
  | nl, bread, none :: results => if results = [] then some (nl, bread) else none
  | nl, bread, some s :: results =>
    let nl := nl + lineEnds s
    let bread := bread + s.length
    if s.length = LCC_BUFLEN then readLoop nl bread results
    else if s.length < LCC_BUFLEN ∧ results = [] then some (nl, bread)
    else none

/-- `LogCountConn::read`: the connection and what is returned. -/
def read (results : List (Option Bytes)) (c : LogCountConn) : Option (LogCountConn × Nat) :=
  (readLoop c.nl 0 results).map fun r => ({ c with nl := r.1, reading := false }, r.2)

/-- `LogCountConn::poll`, where `fstat` tells this size. -/
def poll (st_size : Int) (c : LogCountConn) : LogCountConn :=
  if st_size ≠ c.prevsize then { c with prevsize := st_size, reading := true } else c

/-- What happens to the connection. -/
inductive Event where
  | poll (st_size : Int)
  | read (results : List (Option Bytes))
deriving DecidableEq, Repr

def step (c : LogCountConn) : Event → Option LogCountConn
  | .poll st_size => some (c.poll st_size)
  | .read results => (c.read results).map Prod.fst

/-! ## What is counted -/

/-- The blocks that are read. -/
def Event.blocks : Event → List Bytes
  | .poll _ => []
  | .read results => results.filterMap id

/-- The blocks that a run reads, and the content they are cut from. -/
def blocks (es : List Event) : List Bytes := es.flatMap Event.blocks

def content (es : List Event) : Bytes := (blocks es).flatten

theorem readLoop_eq {results : List (Option Bytes)} {nl nl' : Int} {bread bread' : Nat}
    (h : readLoop nl bread results = some (nl', bread')) :
    nl' = nl + (((results.filterMap id).map lineEnds).sum : Nat) ∧
      bread' = bread + (results.filterMap id).flatten.length := by
  induction results generalizing nl bread with
  | nil => cases h
  | cons r results ih =>
    cases r with
    | none =>
      simp only [readLoop] at h
      split at h
      case isTrue hlast =>
        cases h
        simp [hlast]
      case isFalse => cases h
    | some s =>
      simp only [readLoop] at h
      rw [List.filterMap_cons_some (rfl : id (some s) = some s), List.map_cons, List.sum_cons,
        List.flatten_cons, List.length_append]
      split at h
      · obtain ⟨hnl, hbread⟩ := ih h
        constructor
        · rw [hnl]
          push_cast
          omega
        · rw [hbread]
          omega
      · split at h
        case isTrue hlast =>
          cases h
          simp [hlast.2]
        case isFalse => cases h

/-- **Step lemma**: a step counts its blocks, each by itself. -/
theorem step_nl {c c' : LogCountConn} {e : Event} (h : c.step e = some c') :
    c'.nl = c.nl + ((e.blocks.map lineEnds).sum : Nat) := by
  cases e with
  | poll st_size =>
    obtain rfl := Option.some.inj h
    unfold LogCountConn.poll
    split <;> simp [Event.blocks]
  | read results =>
    obtain ⟨⟨c₁, bread⟩, hread, rfl⟩ := Option.map_eq_some_iff.mp h
    obtain ⟨⟨nl, bread'⟩, hloop, hr⟩ := Option.map_eq_some_iff.mp hread
    obtain ⟨rfl, rfl⟩ := Prod.mk.inj hr
    exact (readLoop_eq hloop).1

/-- **Run lemma**: so does a run. -/
theorem run_nl {es : List Event} {c c' : LogCountConn} (h : Lib.run step c es = some c') :
    c'.nl = c.nl + (((blocks es).map lineEnds).sum : Nat) := by
  induction es generalizing c with
  | nil =>
    obtain rfl := Option.some.inj h
    simp [blocks]
  | cons e es ih =>
    obtain ⟨c₁, hstep, hrun⟩ := Option.bind_eq_some_iff.mp h
    rw [ih hrun, step_nl hstep, blocks, blocks, List.flatMap_cons, List.map_append,
      List.sum_append]
    push_cast
    omega

/-- What `MPfilelen` is told between two calls of `measure` is what its connection counts. -/
theorem counted_plcc {m : MPfilelen} {env : Outside} {es : List Event} {c c' : LogCountConn}
    (h : Lib.run step c es = some c') (hm : m.plcc = some c.nl)
    (henv : env.newlines = ((blocks es).map lineEnds).sum) :
    (m.counted env).plcc = some c'.nl := by
  rw [run_nl h, ← henv]
  show m.plcc.map _ = _
  rw [hm]
  rfl

/-- **When what is counted does not depend on how a log is read**: behind every cut that falls
behind a line end without partner, an even number of bytes pair with the one before. -/
theorem counted_iff {es : List Event} {fname : Bytes} {c : LogCountConn}
    (h : Lib.run step (make fname) es = some c) :
    c.nl = lineEnds (content es) ↔ eols.EvenCuts none (blocks es) := by
  rw [run_nl h, ← Lib.Ends.sum_count_eq_iff]
  show (0 : Int) + _ = _ ↔ _
  rw [Int.zero_add]
  exact Int.ofNat_inj

theorem counted_iff_whole : ∃ c, Lib.run step (make (str "log"))
    [.poll 3, .read [some [97, 13, 10]]] = some c ∧ c.nl = lineEnds [97, 13, 10] := by
  have hrun : Lib.run step (make (str "log")) [.poll 3, .read [some [97, 13, 10]]]
      = some ⟨1, str "log", 3, false⟩ := by decide +kernel
  refine ⟨_, hrun, (counted_iff hrun).mpr ((Lib.Ends.cuts_eq_zero_iff _ _).mp ?_)⟩
  decide +kernel

/-- A pair whose bytes are appended one after the other is counted twice. -/
theorem pair_counted_twice : ¬ ∀ (fname : Bytes) (es : List Event) (c : LogCountConn),
    Lib.run step (make fname) es = some c → c.nl = lineEnds (content es) := by
  intro h
  have hnl := h (str "log") [.poll 2, .read [some [97, 13]], .poll 3, .read [some [10]]]
    ⟨2, str "log", 3, false⟩ (by decide +kernel)
  exact absurd hnl (by decide +kernel)

end LogCountConn

end Qigong.Measure
