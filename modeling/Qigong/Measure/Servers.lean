import Qigong.Lib.Fields
import Qigong.Lib.OrdMap
import Qigong.Measure.Outside

/-!
# Measure points that ask servers (qimeasure.cpp:577–1041)

`measure` writes behind the text that `result` holds. What tells a server from another
(its name, its port, a user and a password) is left out, as is what is only printed on
the standard error.
-/

namespace Qigong.Measure

variable (env : Outside)

/-- A difference of two `size_t`. -/
def subSize (a b : Nat) : Nat := (a + 2 ^ 64 - b) % 2 ^ 64

/-- The entries that a loop over a map of `size ()` entries gives by number. -/
def nth (m : Lib.OrdMap Bytes Bytes) (n : Int) : Bytes :=
  if 0 ≤ n then ((m.entries.map Prod.snd)[n.toNat]?).getD [] else []

/-! ## `MMemcached` -/

structure MMemcached where
  source_type : Bytes
  mss : Lib.OrdMap Bytes Bytes

namespace MMemcached

/-- What is asked, each with the suffix of its tag (qimeasure.cpp:616–629). -/
def asked : List (Bytes × Bytes) :=
  [(str "curr_items", str "curr_items"),
   (str "total_items", str "total_items"),
   (str "bytes", str "bytes"),
   (str "curr_connections", str "curr_cxs"),
   (str "total_connections", str "total_cxs"),
   (str "connection_structures", str "cx_structures"),
   (str "cmd_get", str "cmd_get"),
   (str "cmd_set", str "cmd_set"),
   (str "get_hits", str "get_hits"),
   (str "get_misses", str "get_misses"),
   (str "evictions", str "evictions"),
   (str "bytes_read", str "bytes_read"),
   (str "bytes_written", str "bytes_written"),
   (str "threads", str "threads")]

/-- The constructor of `MMemcached`. The type is behind the first comma; it would end
before the position it begins at, and so at the end of the parameter. -/
def make (param : Bytes) : MMemcached where
  source_type :=
    match findFrom 44 param 0 with
    | some q => (param.drop (q + 1)).take (subSize q (q + 1))
    | none => str "DERIVE"
  mss := asked.foldl (fun mss kv => mss.insert kv.1 kv.2) .empty

/-- What is written for a name. -/
def value (name : Bytes) : Bytes :=
  match env.memcached_stat with
  | none => unknown
  | some stat => (stat name).getD unknown

/-- `MMemcached::measure`. -/
def measure (m : MMemcached) (result : Bytes) : Bytes × Bool :=
  (result ++ Lib.joined 58 (m.mss.keys.map (value env)), true)

def get_nbpoints (m : MMemcached) : Nat := m.mss.entries.length

def get_tagsub (m : MMemcached) (n : Int) : Bytes := nth m.mss n

def get_source_typeAt (m : MMemcached) (_ : Int) : Bytes := m.source_type

end MMemcached

/-! ## `MMySQLGStatus` -/

/-- `gvar` and `source_type` are maps by the name of a variable. -/
structure MMySQLGStatus where
  gvar : Lib.OrdMap Bytes Bytes
  source_type : Lib.OrdMap Bytes Bytes
  fetch_slave_state : Bool

namespace MMySQLGStatus

def tosupress : Bytes := str "_-aeiouAEIOU"

/-- The characters that are kept, from the last one on (qimeasure.cpp:718–733): while
fewer than `sup` are suppressed, a vowel is, unless it is the first character. -/
def kept (sup : Int) : (nbsup : Int) → (reversed : Bytes) → Bytes
  | _, [] => []
  | nbsup, c :: cs =>
    if nbsup < sup ∧ cs ≠ [] ∧ c ∈ tosupress then kept sup (nbsup + 1) cs
    else c :: kept sup nbsup cs

/-- `MMySQLGStatus::maigreconsomne`. A name that is taken as a variable gets the first
digit with which it is not. -/
def maigreconsomne (gvar : Lib.OrdMap Bytes Bytes) (s : Bytes) : Bytes :=
  let r := (kept (s.length - 12) 0 s.reverse).reverse
  let rr := r.take 12
  if gvar.contains rr then
    match (str "0123456789").find? fun d => ! gvar.contains (rr ++ [d]) with
    | some d => rr ++ [d]
    | none => rr
  else rr

/-- The variable that is asked of the slave. -/
def secondsBehindMaster : Bytes := str "Seconds_Behind_Master"

/-- The words that give the type of the variables behind them. -/
def stypes : List Bytes := [str "GAUGE", str "COUNTER", str "DERIVE", str "ABSOLUTE"]

/-- The words of the parameter: behind its first comma, which ends what tells the
server, or all of it. -/
def words (param : Bytes) : List Bytes :=
  let q :=
    match findFrom 44 param 0 with
    | some q => q + 1
    | none => 0
  (param.drop q).splitOn 44

/-- One turn of the loop over the words (qimeasure.cpp:800–818); the type in force goes
along. -/
def read (m : MMySQLGStatus × Bytes) (ident : Bytes) : MMySQLGStatus × Bytes :=
  if ident ∈ stypes then (m.1, ident)
  else
    ({ gvar := m.1.gvar.insert ident (maigreconsomne m.1.gvar ident)
       source_type := m.1.source_type.insert ident m.2
       fetch_slave_state := m.1.fetch_slave_state || ident == secondsBehindMaster }, m.2)

/-- The constructor of `MMySQLGStatus`. -/
def make (param : Bytes) : MMySQLGStatus :=
  ((words param).foldl read
    ({ gvar := .empty, source_type := .empty, fetch_slave_state := false }, str "DERIVE")).1

/-- The rows that `mysql_fetch_row` gives one after the other. -/
def fetched (res : Option MysqlRes) : List (Bytes × Bytes) :=
  match res with
  | some res => res.rows
  | none => env.rows_of_null

/-- What is told of the slave (qimeasure.cpp:861–887). The rows are fetched from `res`,
which holds no result yet, and not from `resslave`. -/
def slavestatus : Bytes :=
  let res : Option MysqlRes := none
  match env.slave_status with
  | none => unknown
  | some _ =>
    match (fetched env res).find? fun row => startsWith secondsBehindMaster row.1 with
    | some row => row.2
    | none => []

/-- One turn of the loop over the rows (qimeasure.cpp:919–924). -/
def readrow (gvar : Lib.OrdMap Bytes Bytes) (row : Bytes × Bytes) : Lib.OrdMap Bytes Bytes :=
  if gvar.contains row.1 then gvar.insert row.1 row.2 else gvar

/-- The variables once the rows are read (qimeasure.cpp:909–926). -/
def readrows (gvar : Lib.OrdMap Bytes Bytes) (res : MysqlRes) : Lib.OrdMap Bytes Bytes :=
  let gvar := gvar.mapVals fun _ _ => unknown
  if res.num_fields < 2 then gvar else res.rows.foldl readrow gvar

/-- What is written for a variable when there is no result. -/
def unanswered (m : MMySQLGStatus) (name : Bytes) : Bytes :=
  if m.fetch_slave_state = true ∧ name = secondsBehindMaster then slavestatus env ++ unknown
  else unknown

/-- `MMySQLGStatus::measure`. -/
def measure (m : MMySQLGStatus) (result : Bytes) : MMySQLGStatus × Bytes × Bool :=
  match env.global_status with
  | none => (m, result ++ Lib.joined 58 (m.gvar.keys.map (m.unanswered env)), true)
  | some res =>
    let gvar := readrows m.gvar res
    let gvar :=
      if m.fetch_slave_state then gvar.insert secondsBehindMaster (slavestatus env)
      else gvar
    ({ m with gvar := gvar }, result ++ Lib.joined 58 (gvar.entries.map Prod.snd), true)

def get_nbpoints (m : MMySQLGStatus) : Nat := m.gvar.entries.length

def get_tagsub (m : MMySQLGStatus) (n : Int) : Bytes := nth m.gvar n

def get_source_typeAt (m : MMySQLGStatus) (n : Int) : Bytes := nth m.source_type n

end MMySQLGStatus

end Qigong.Measure
