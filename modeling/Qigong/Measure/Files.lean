import Qigong.Lib.Fields
import Qigong.Lib.OrdMap
import Qigong.Measure.Outside

/-!
# Measure points that read files (qimeasure.cpp:93–208, 422–576 and 1043–1112)

`measure` is given the text `result` holds, and gives what it holds then and what is
returned. What is only printed on the standard error is left out.
-/

namespace Qigong.Measure

variable (R : Readers) (env : Outside)

/-- The strings that the loops over a file read; of a file that cannot be opened, none. -/
def strings (path : Bytes) : List Bytes :=
  match env.file path with
  | some content => (R.getstrings content).1
  | none => []

/-- The string that one call of `getstring` reads of a file that is open. -/
def firstString (content : Bytes) : Bytes :=
  (R.getstrings content).1.headD (R.getstrings content).2

/-- A loop over strings, up to the one that decides. -/
def whileStrings {β : Type} (look : Bytes → Except Exn (Option β)) :
    List Bytes → Except Exn (Option β)
  | [] => .ok none
  | s :: ss =>
    match look s with
    | .ok none => whileStrings look ss
    | .ok (some b) => .ok (some b)
    | .error e => .error e

/-- The value that was found is the result; else `result` is left as it is. -/
def foundOr (result : Bytes) (found : Option (Option Bytes)) : Bytes × Bool :=
  match found with
  | some (some v) => (v, true)
  | some none => (result, false)
  | none => (result, false)

/-! ## `MPdiskstats` -/

structure MPdiskstats where
  diskname : Bytes
  field : Nat
deriving DecidableEq

namespace MPdiskstats

/-- The constructor of `MPdiskstats`. -/
def make (param : Bytes) : MPdiskstats :=
  match findFrom 32 param 0 with
  | none => { diskname := param, field := 7 }
  | some p => { diskname := param.take p, field := toSize (atoi (param.drop p)) }

/-- The position behind two numbers with blanks before each (qimeasure.cpp:116–122). -/
def numbersEnd (s : Bytes) : Nat :=
  let skip (t : Bytes) : Bytes := (t.dropWhile isSpace).dropWhile isDigit
  s.length - (skip (skip s)).length

/-- The position behind as many spaces, `none` being `npos`. -/
def seekField (s : Bytes) : (field p : Nat) → Option Nat
  | 0, p => some p
  | field + 1, p => (findFrom 32 s p).bind fun q => seekField s field (q + 1)

/-- One turn of the loop of `proc_diskstats` (qimeasure.cpp:116–143). -/
def look (m : MPdiskstats) (s : Bytes) : Except Exn (Option (Option Bytes)) :=
  let p := numbersEnd s + 1
  (substr s p).bind fun t =>
    if t.take m.diskname.length = m.diskname then
      match seekField s m.field p with
      | some q => (wordAt s q).map fun v => some (some v)
      | none => .ok (some none)
    else .ok none

/-- `MPdiskstats::proc_diskstats`. -/
def proc_diskstats (m : MPdiskstats) (result : Bytes) : Except Exn (Bytes × Bool) :=
  (whileStrings m.look (strings R env (str "/proc/diskstats"))).map (foundOr result)

def measure (m : MPdiskstats) (result : Bytes) : Except Exn (Bytes × Bool) :=
  m.proc_diskstats R env result

end MPdiskstats

/-! ## `MPnetstats` -/

structure MPnetstats where
  intname : Bytes
  field : Nat
deriving DecidableEq

namespace MPnetstats

/-- The constructor of `MPnetstats`. -/
def make (param : Bytes) : MPnetstats :=
  match findFrom 32 param 0 with
  | none => { intname := param ++ str ":", field := 7 }
  | some p => { intname := param.take p ++ str ":", field := toSize (atoi (param.drop p)) }

/-- The position behind as many integers, each with the blanks behind it. -/
def seekField (s : Bytes) : (field p : Nat) → Nat
  | 0, p => p
  | field + 1, p =>
    let q := (R.getinteger s p).2
    if q = npos then npos
    else
      let q := R.seekspace s q
      if q = npos then npos else seekField s field q

/-- One turn of the loop of `proc_net_dev` (qimeasure.cpp:177–203). -/
def look (m : MPnetstats) (s : Bytes) : Except Exn (Option (Option Bytes)) :=
  match findWord m.intname s with
  | none => .ok none
  | some p =>
    let q := seekField R s m.field (R.seekspace s (p + m.intname.length))
    if q = npos then .ok (some none) else (wordAt s q).map fun v => some (some v)

/-- `MPnetstats::proc_net_dev`. -/
def proc_net_dev (m : MPnetstats) (result : Bytes) : Except Exn (Bytes × Bool) :=
  (whileStrings (m.look R) (strings R env (str "/proc/net/dev"))).map (foundOr result)

def measure (m : MPnetstats) (result : Bytes) : Except Exn (Bytes × Bool) :=
  m.proc_net_dev R env result

end MPnetstats

/-! ## `MPloadavg` and `MPconncount` -/

/-- The first word of the first string of a file (qimeasure.cpp:434–449 and 1093–1108). -/
def firstWord (path : Bytes) : Bytes × Bool :=
  match env.file path with
  | none => (unknown, true)
  | some content =>
    let s := firstString R content
    match findFrom 32 s 0 with
    | none => (unknown, true)
    | some p => (s.take p, true)

def MPloadavg.measure : Bytes × Bool := firstWord R env (str "/proc/loadavg")

def MPconncount.measure : Bytes × Bool := firstWord R env (str "/proc/loadavg")

/-! ## `MPfilevalue` -/

structure MPfilevalue where
  filemeasure : Bytes

def MPfilevalue.measure (m : MPfilevalue) : Bytes × Bool :=
  match env.file m.filemeasure with
  | none => (unknown, true)
  | some content =>
    let digits := (firstString R content).takeWhile isDigit
    if digits.length = 0 then (unknown, true) else (digits, true)

/-! ## `MPmeminfo` -/

/-- A difference of two `long long`, as the machine computes it. -/
def subLong (a b : Int) : Int := (a - b).bmod (2 ^ 64)

structure MPmeminfo where
  mss : Lib.OrdMap Bytes Int

namespace MPmeminfo

/-- The constructor of `MPmeminfo`. -/
def make : MPmeminfo where
  mss := [str "MemTotal:", str "MemFree:", str "Buffers:", str "SwapTotal:", str "SwapFree:",
    str "Cached:"].foldl (fun mss tag => mss.insert tag 0) .empty

/-- One turn of the loop of `measure` (qimeasure.cpp:513–529). The matches are counted
from 0 in each turn, so that the loop goes on to the end of the file. -/
def look (mss : Lib.OrdMap Bytes Int) (s : Bytes) : Lib.OrdMap Bytes Int :=
  let p := findFrom 32 s 0
  let tag :=
    match p with
    | some p => s.take p
    | none => s
  if mss.contains tag then
    mss.insert tag (R.getinteger s (R.seekspace s (p.getD npos))).1
  else mss

/-- `mss [tag]`. -/
def value (m : MPmeminfo) (tag : Bytes) : Int := (m.mss.find? tag).getD 0

/-- The six numbers, in the order they are printed. -/
def values (m : MPmeminfo) : List Int :=
  [m.value (str "MemFree:"),
   m.value (str "Buffers:"),
   m.value (str "Cached:"),
   subLong (subLong (subLong (m.value (str "MemTotal:")) (m.value (str "Buffers:")))
    (m.value (str "MemFree:"))) (m.value (str "Cached:")),
   subLong (m.value (str "SwapTotal:")) (m.value (str "SwapFree:")),
   m.value (str "SwapFree:")]

def measure (m : MPmeminfo) : MPmeminfo × Bytes × Bool :=
  match env.file (str "/proc/meminfo") with
  | none => (m, str "U:U:U:U:U", true)
  | some content =>
    let all := (R.getstrings content).1 ++ [(R.getstrings content).2]
    let m : MPmeminfo := { mss := all.foldl (look R) m.mss }
    (m, Lib.joined 58 (m.values.map decimal), true)

def get_nbpoints : Nat := 6

def get_tagsub (i : Int) : Bytes :=
  if 0 ≤ i ∧ i < 6 then
    [str "free", str "buffers", str "cached", str "used", str "sw_used", str "sw_free"].getD
      i.toNat []
  else []

end MPmeminfo

/-! ## `MPfreespace` -/

structure MPfreespace where
  fname : Bytes

/-- The product is one of `unsigned long`. -/
def MPfreespace.measure (m : MPfreespace) : Bytes × Bool :=
  match env.statvfs m.fname with
  | some (f_frsize, f_bavail) => (decimal ((f_frsize * f_bavail) % 2 ^ 64 : Nat), true)
  | none => (unknown, true)

end Qigong.Measure
