import Qigong.Qiconn
import Qigong.Lib.OrdMap

/-!
# Record sets (qigong.h:36–69, qigong.cpp:15–192 and 380–393)

The state of a qigong: its record sets, the connections it is collected from, and the
globals that lead to both. Pointers are numbers: an object is found by its number as long
as it lives, and no number is used twice. Using a pointer to an object that is gone, or
an iterator that does not point at an entry, is undefined and ends the run
(`Exn.dangling`).

Outside the repository, and so parameters: qiconn's scanners, the clock, and what the
measure functions read (`Env`). Which measure functions there are is decided when the
program is compiled (`MmpCreators`). What is only printed on the standard error is left
out.
-/

namespace Qigong.Probe

/-- `endl`. -/
def endl : Bytes := [10]

/-- A text between double quotes. -/
def quoted (text : Bytes) : Bytes := [34] ++ text ++ [34]

/-! ## The objects -/

/-- A `RecordSet *`. -/
abbrev SetId := Nat

/-- A `CollectedConn *`. -/
abbrev ConnId := Nat

/-- A `MeasurePoint`, by what it prints (qimeasure.h:41–54). -/
structure MeasurePoint where
  name : Bytes
  param : Bytes

/-- `MeasurePoint::getname`. -/
def MeasurePoint.getname (m : MeasurePoint) : Bytes := m.name ++ str "(" ++ m.param ++ str ")"

/-- What makes the measure points of one function, or `NULL`. -/
abbrev MPCreator := Bytes → Option MeasurePoint

/-- `mmpcreators`, by the name of the function. -/
abbrev MmpCreators := Lib.OrdMap Bytes MPCreator

/-- A `RecordSet`. -/
structure RecordSet where
  lmp : List MeasurePoint
  interval : Int
  name : Bytes
  channels : Lib.OrdMap ConnId Int

/-- What the program adds to a `CryptConnection`, and the text its `out` holds. -/
structure CollectedConn where
  nbp : Nat
  subs : Lib.OrdMap SetId Int
  out : Bytes

/-- An entry of `schedule`. -/
abbrev Entry := Int × SetId

/-- The globals, the objects that live, and the texts flushed so far, each with the
connection it went to. -/
structure Globals where
  recordsets : Lib.OrdMap SetId RecordSet
  nextset : SetId
  conns : Lib.OrdMap ConnId CollectedConn
  mrecordsets : Lib.OrdMap Bytes SetId
  schedule : List Entry
  hostname : Bytes
  prompt : Bytes
  sent : List (ConnId × Bytes)

/-- The clock, and what the measure functions give for a record: by the number of texts
flushed before it and the place of the point in its set. -/
structure Env where
  now : Int
  measured : Nat → Nat → Bytes

namespace Globals

/-- `*out << text`. -/
def write (g : Globals) (pcc : ConnId) (text : Bytes) : Globals :=
  { g with conns := g.conns.modify pcc fun c => { c with out := c.out ++ text } }

/-- `flush ()`. -/
def flush (g : Globals) (pcc : ConnId) : Globals :=
  match g.conns.find? pcc with
  | some c => { g with conns := g.conns.modify pcc fun c => { c with out := [] },
                       sent := g.sent ++ [(pcc, c.out)] }
  | none => g

end Globals

/-! ## `createrecordset` -/

/-- The parameter behind a measure function, and the position behind it; `none` where
its parenthesis is not closed (qigong.cpp:103–116). At `npos` there is no parenthesis. -/
def getparam (s : Bytes) (p : Nat) : Option (Bytes × Nat) :=
  if p ≠ npos ∧ s[p]? = some 40 then
    (findFrom 41 s (p + 1)).map fun q => ((s.drop (p + 1)).take (q - (p + 1)), q + 1)
  else some ([], p)

/-- The text of an error of `createrecordset`. -/
def creationError (text : Bytes) : Bytes := str "error: createrecordset: " ++ text ++ endl

/-- The point of a measure function, or the error (qigong.cpp:118–130). -/
def createpoint (mmpcreators : MmpCreators) (ident param : Bytes) : Except Bytes MeasurePoint :=
  match mmpcreators.find? ident with
  | none => .error (creationError (str "unknown ident : " ++ quoted ident ++ str " ..."))
  | some mpc =>
    match mpc param with
    | none => .error (creationError (str "could not allocate MeasurePoint [" ++ ident ++ str ", " ++
        param ++ str "] ..."))
    | some pmp => .ok pmp

/-- The loop over the measure points (qigong.cpp:96–131): the points made, and the errors
written. -/
def readpoints (S : Scanners) (mmpcreators : MmpCreators) (s : Bytes) :
    (fuel p : Nat) → List MeasurePoint × Bytes → Except Exn (List MeasurePoint × Bytes)
  | 0, p, r => if p = npos then .ok r else .error .endless
  | fuel + 1, p, r =>
    if p = npos then .ok r
    else
      let i := S.getidentifier s p
      if i.1 = [] then
        if i.2 = npos then .ok r
        else .ok (r.1, r.2 ++ creationError (str "measure-point identifier is 0 bytes long."))
      else
        match getparam s i.2 with
        | none => .ok (r.1, r.2 ++ creationError (str "unmatched parenthesis in param."))
        | some (param, next) =>
          match createpoint mmpcreators i.1 param with
          | .error text => readpoints S mmpcreators s fuel next (r.1, r.2 ++ text)
          | .ok pmp => readpoints S mmpcreators s fuel next (r.1 ++ [pmp], r.2)

/-- `createrecordset` (qigong.cpp:61–143): the errors written, and the set. -/
def createrecordset (S : Scanners) (mmpcreators : MmpCreators) (mrecordsets : Lib.OrdMap Bytes SetId)
    (s : Bytes) : Except Exn (Bytes × Option RecordSet) :=
  let i := S.getidentifier s 0
  if i.1 = [] then .ok (creationError (str "name is zero bytes long."), none)
  else if i.2 = npos then .ok (creationError (str "missing interval field."), none)
  else if mrecordsets.contains i.1 then
    .ok (creationError (quoted i.1 ++ str " is already registered as a RecordSet."), none)
  else
    let t := S.getinteger s i.2
    if t.1 = 0 then .ok (creationError (str "null interval given ???"), none)
    else
      (readpoints S mmpcreators s (s.length + 1) t.2 ([], [])).map fun r =>
        if r.1 = [] then
          (r.2 ++ creationError (str "no MeasurePoint could be set, discarding the " ++
            quoted i.1 ++ str " RecordSet"), none)
        else (r.2, some ⟨r.1, t.1, i.1, .empty⟩)

/-- `RecordSet::dump` (qigong.cpp:46–54). -/
def RecordSet.dump (rs : RecordSet) : Bytes :=
  str "RecordSet: " ++ quoted rs.name ++ str ":" ++ endl ++
    (str "    RefreshInterval: " ++ decimal rs.interval ++ str "s" ++ endl) ++
    (str "    MeasurePoint:" ++ endl) ++
    rs.lmp.flatMap fun m => str "        " ++ m.getname ++ endl

namespace Globals

/-- `new RecordSet` and `mrecordsets [name] = prs`. -/
def register (g : Globals) (rs : RecordSet) : Globals :=
  { g with recordsets := g.recordsets.insert g.nextset rs, nextset := g.nextset + 1,
           mrecordsets := g.mrecordsets.insert rs.name g.nextset }

/-! ## `RecordSet::measure` -/

/-- A sum of two `time_t`. -/
def timeAdd (a b : Int) : Except Exn Int :=
  if -2 ^ 63 ≤ a + b ∧ a + b < 2 ^ 63 then .ok (a + b) else .error .overflow

/-- The record of a set (qigong.cpp:30–38). -/
def sample (g : Globals) (env : Env) (rs : RecordSet) : Bytes :=
  str "-->" ++ rs.name ++ str " " ++ decimal env.now ++
    ((List.range rs.lmp.length).flatMap fun i => str ":" ++ env.measured g.sent.length i) ++ endl

/-- A text to connections, each flushed (qigong.cpp:40–44). -/
def tell (text : Bytes) : List ConnId → Globals → Except Exn Globals
  | [], g => .ok g
  | pcc :: pccs, g =>
    if g.conns.contains pcc then tell text pccs ((g.write pcc (endl ++ text)).flush pcc)
    else .error .dangling

/-- `RecordSet::measure` (qigong.cpp:27–45), and the entry for `schedule`: it is inserted
by the caller, who knows where its iterator stands. -/
def measure (g : Globals) (env : Env) (t : Int) (prs : SetId) : Except Exn (Entry × Globals) :=
  match g.recordsets.find? prs with
  | none => .error .dangling
  | some rs =>
    (timeAdd t rs.interval).bind fun next =>
      (g.tell (g.sample env rs) rs.channels.keys).map fun g => ((next, prs), g)

/-- `schedule.insert`: behind the entries of the same time. -/
def insertEntry (e : Entry) : List Entry → List Entry
  | [] => [e]
  | x :: xs => if e.1 < x.1 then e :: x :: xs else x :: insertEntry e xs

/-- `activaterecordset` (qigong.cpp:183–192): was the set activated? -/
def activaterecordset (g : Globals) (env : Env) (pcc : ConnId) (ident : Bytes) :
    Except Exn (Globals × Bool) :=
  match g.mrecordsets.find? ident with
  | none => .ok (g.write pcc (str "unknown recordset " ++ quoted ident ++ endl), false)
  | some prs =>
    (g.measure env env.now prs).map fun r =>
      ({ r.2 with schedule := insertEntry r.1 r.2.schedule }, true)

/-! ## `suppressrecordset` -/

/-- The texts of a deletion. -/
def deletionTexts : Bytes :=
  str "deleting scheduled entries" ++ endl ++ (str "deleting recordset entries" ++ endl) ++
    (str "unsubscribing channels" ++ endl) ++ (str "deleting recordset object" ++ endl)

/-- `suppressrecordset` (qigong.cpp:151–181): was the set deleted? A channel cannot be
unsubscribed: `remove_subs` erases the entry of `channels` the loop stands on. -/
def suppressrecordset (g : Globals) (pcc : ConnId) (ident : Bytes) :
    Except Exn (Globals × Bool) :=
  match g.mrecordsets.find? ident with
  | none => .ok (g.write pcc (str "unknown recordset " ++ quoted ident ++ endl), false)
  | some prs =>
    match g.recordsets.find? prs with
    | none => .error .dangling
    | some rs =>
      if rs.channels.keys = [] then
        .ok (({ g with schedule := g.schedule.filter fun e => e.2 ≠ prs,
                       mrecordsets := g.mrecordsets.erase ident,
                       recordsets := g.recordsets.erase prs }).write pcc deletionTexts, true)
      else .error .dangling

/-! ## Channels and subscriptions -/

/-- `RecordSet::add_channel` (qigong.cpp:15–17). -/
def add_channel (g : Globals) (prs : SetId) (pcc : ConnId) : Except Exn Globals :=
  if g.recordsets.contains prs then
    .ok { g with recordsets :=
            g.recordsets.modify prs fun rs => { rs with channels := rs.channels.insert pcc 1 } }
  else .error .dangling

/-- `RecordSet::remove_channel` (qigong.cpp:18–25). -/
def remove_channel (g : Globals) (prs : SetId) (pcc : ConnId) : Except Exn Globals :=
  if g.recordsets.contains prs then
    .ok { g with recordsets :=
            g.recordsets.modify prs fun rs => { rs with channels := rs.channels.erase pcc } }
  else .error .dangling

/-- `CollectedConn::add_subs` (qigong.cpp:223–226). -/
def add_subs (g : Globals) (pcc : ConnId) (prs : SetId) : Except Exn Globals :=
  ({ g with conns := g.conns.modify pcc fun c => { c with subs := c.subs.insert prs 1 } }).add_channel
    prs pcc

/-- `CollectedConn::remove_subs` (qigong.cpp:228–231): it erases what it finds. -/
def remove_subs (g : Globals) (pcc : ConnId) (prs : SetId) : Except Exn Globals :=
  if (g.conns.find? pcc).any fun c => c.subs.contains prs then
    ({ g with conns := g.conns.modify pcc fun c => { c with subs := c.subs.erase prs } }).remove_channel
      prs pcc
  else .error .dangling

/-! ## `MeasurePool::select_poll` -/

/-- The loop over `schedule` (qigong.cpp:385–388): `kept` are the entries inserted before
the iterator, `schedule` those from it on. The entries measured, which are erased behind
the loop, are not in either. -/
def pollSchedule (env : Env) : (fuel : Nat) → (kept : List Entry) → Globals → Except Exn Globals
  | 0, _, _ => .error .endless
  | fuel + 1, kept, g =>
    match g.schedule with
    | [] => .ok { g with schedule := kept }
    | e :: es =>
      if e.1 < env.now then
        ({ g with schedule := es }.measure env e.1 e.2).bind fun r =>
          if r.1.1 < e.1 then pollSchedule env fuel (insertEntry r.1 kept) r.2
          else pollSchedule env fuel kept { r.2 with schedule := insertEntry r.1 r.2.schedule }
      else .ok { g with schedule := kept ++ e :: es }

/-- `MeasurePool::select_poll` (qigong.cpp:380–393), behind that of the pool. An entry is
at most as often measured as it is seconds late. -/
def select_poll (g : Globals) (env : Env) : Except Exn Globals :=
  g.pollSchedule env ((g.schedule.map fun e => (env.now - e.1).toNat).sum + 1) []

end Globals

end Qigong.Probe
