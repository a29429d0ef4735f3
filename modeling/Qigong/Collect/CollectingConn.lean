import Qigong.Crypt.Session
import Qigong.Qiconn

/-!
# `CollectingConn` (qicollect.h:203–263, qicollect.cpp:57–407)

The application of the supplicant's side: it sets its collection sets up on a qigong,
one command at a time, and records the measures it is sent. One definition for each
function of the source; each returns the connection and what it has done outside it, in
order (`Effect`).

Outside the repository, and so parameters: qiconn's scanners and the outcome of its
`init_connect` (`PollEnv`), the clock, and `rand`. The map `mpcs` holds the sets
themselves in place of pointers to them, and `waiting_pcs` the full key of a set. What
the source only prints (`lastlatency`, the counters of errors) is left out.
-/

namespace Qigong.Collect

open Crypt

/-! ## Collection sets -/

/-- `CSState` (qicollect.h:80–89). -/
inductive CSState where
  | unmatched
  | del_remote
  | del_remote_for_create
  | create_remote
  | sub_remote
  | activate_remote
  | unsub_remote
  | collect
deriving DecidableEq, Repr

/-- What a `TaggedMeasuredPoint` asks of the qigong: a measure function and its
parameters. -/
structure TaggedMeasuredPoint where
  fn : Bytes
  params : Bytes

/-- `TaggedMeasuredPoint::getremote_def` (qicollect.cpp:443–448). -/
def TaggedMeasuredPoint.getremote_def (t : TaggedMeasuredPoint) : Bytes :=
  if t.params = [] then t.fn else t.fn ++ str "(" ++ t.params ++ str ")"

/-- The part of a `CollectionSet` (qicollect.h:91–162) the connection works with. -/
structure CollectionSet where
  key : Bytes
  fullkey : Bytes
  base_interval : Int
  lptagmp : List TaggedMeasuredPoint
  state : CSState

/-- The commands of the setup. -/
inductive Command where
  | delete
  | create
  | activate
  | sub
deriving DecidableEq, Repr

namespace Command

/-- The line that asks for the command (qicollect.cpp:541–566). -/
def text (s : CollectionSet) : Command → Bytes
  | delete => str "delete " ++ s.fullkey ++ eos
  | create => str "create " ++ s.fullkey ++ str " " ++ decimal s.base_interval ++
      (s.lptagmp.flatMap fun t => str " " ++ t.getremote_def) ++ eos
  | activate => str "activate " ++ s.fullkey ++ eos
  | sub => str "sub " ++ s.fullkey ++ eos

/-- The `wait_string` set for it (qicollect.cpp:285–320). -/
def wait_string : Command → Bytes
  | delete => str "delete:"
  | create => str "creation done."
  | activate => str "activate:"
  | sub => str "subscribed"

/-- The state the set takes once it is answered. -/
def nextstate : Command → CSState
  | delete => .create_remote
  | create => .activate_remote
  | activate => .sub_remote
  | sub => .collect

end Command

/-- The command `poll` sends for a set in this state. -/
def CSState.command : CSState → Option Command
  | .del_remote_for_create => some .delete
  | .create_remote => some .create
  | .activate_remote => some .activate
  | .sub_remote => some .sub
  | .collect | .unmatched | .del_remote | .unsub_remote => none

/-- `MpCS`, by full key. -/
abbrev MpCS := Lib.OrdMap Bytes CollectionSet

/-- The loop of `poll` over the sets: the first one that has a command left, in the order
of the keys. -/
def nextToSend : List (Bytes × CollectionSet) → Option (Bytes × CollectionSet × Command)
  | [] => none
  | (k, s) :: rest =>
    match s.state.command with
    | some cmd => some (k, s, cmd)
    | none => nextToSend rest

/-! ## The connection -/

/-- `CollectingConn::ConnStat` (qicollect.h:210–218). -/
inductive ConnStat where
  | needtoconnect
  | challenging
  | welcome
  | verify
  | ready
  | waiting
  | timeout
deriving DecidableEq, Repr

/-- A `CollectingConn`. -/
structure CollectingConn (P : Platform) where
  crypt : CryptConnection P
  fd : Int
  lastattempt : Int
  delay_reconnect : Int
  state : ConnStat
  nbtest : Nat
  mpcs : MpCS
  pending : Bool
  is_collecting : Bool
  wait_string : Bytes
  waiting_pcs : Option Bytes
  waiting_pcs_nextstate : CSState
  lastlineread : Int
  nbwakeattempt : Nat
  rrdlastupdate : Lib.OrdMap Bytes Int

/-- What a function does outside the connection, and the lines it is given: the
application flushes `out`, the connection being as it was before; a command goes out for
the set of a key; a session starts; `lineread` is called; `rrd_update` is called. -/
inductive Effect (P : Platform) where
  | flushed (before : CryptConnection P)
  | command (key : Bytes) (cmd : Command)
  | session
  | received (bufin : Bytes) (now : Int) (collecting : Bool)
  | rrd_update (rrd_name : Bytes) (trecord : Int) (data : Bytes)

/-- The outcomes of the calls `poll` may make: the clock, `init_connect`, the salt of
`opencrypt`, and `rand`. -/
structure PollEnv where
  now : Int
  newfd : Int
  urandom : Urandom
  rand : Nat

namespace CollectingConn

variable {P : Platform}

/-- The constructor (qicollect.cpp:62–77), on the connection its base class has made. -/
def construct (now : Int) (crypt : CryptConnection P) : CollectingConn P where
  crypt := { crypt with maxpendsize := some 4096 }
  fd := -1
  lastattempt := 0
  delay_reconnect := 1
  state := .needtoconnect
  nbtest := 0
  mpcs := .empty
  pending := false
  is_collecting := false
  wait_string := []
  waiting_pcs := none
  waiting_pcs_nextstate := .collect
  lastlineread := now
  nbwakeattempt := 0
  rrdlastupdate := .empty

/-- `CollectingConn::assign` (qicollect.cpp:79–84). -/
def assign (c : CollectingConn P) (s : CollectionSet) : CollectingConn P :=
  { c with mpcs := c.mpcs.insert s.fullkey { s with state := .del_remote_for_create },
           pending := true }

/-- `(*out) << text` and `flush ()`. -/
def flushText (c : CollectingConn P) (text : Bytes) : CollectingConn P × List (Effect P) :=
  ({ c with crypt := (c.crypt.write text).flush }, [.flushed (c.crypt.write text)])

/-- `CollectingConn::firstprompt` (qicollect.cpp:399–404). -/
def firstprompt (c : CollectingConn P) : CollectingConn P × List (Effect P) :=
  let r := c.flushText (str "qiging ?" ++ eos)
  ({ r.1 with state := .welcome }, r.2)

/-! ### `lineread` -/

/-- The rrd a measure line is for: the key of the set that has the line's name as its
full key, else that name (qicollect.cpp:97–101). -/
def rrdName (mpcs : MpCS) (rrd_name : Bytes) : Bytes :=
  match mpcs.find? rrd_name with
  | some s => s.key
  | none => rrd_name

/-- The time stamp that is recorded: the clock in place of one more than 30 s ahead of it
(qicollect.cpp:104–121). -/
def correct (trecord now : Int) : Int := if 30 < trecord - now then now else trecord

/-- The rrd, the corrected stamp and the position behind it, of a measure line. -/
def parseMeasure (S : Scanners) (mpcs : MpCS) (now : Int) (bufin : Bytes) : Bytes × Int × Nat :=
  let i := S.getidentifier bufin 3
  let t := S.getinteger bufin (addSize i.2 1)
  (rrdName mpcs i.1, correct t.1 now, t.2)

/-- A difference of two `time_t`. -/
def timeDiff (a b : Int) : Except Exn Int :=
  if -2 ^ 63 ≤ a - b ∧ a - b < 2 ^ 63 then .ok (a - b) else .error .overflow

/-- `mustrecorddata`, against the memory of the rrd (qicollect.cpp:140–155). -/
def mustrecorddata (last : Option Int) (trecord : Int) : Except Exn Bool :=
  match last with
  | none => .ok true
  | some last => (timeDiff trecord last).map fun d => if d < 2 then decide (0 < d) else true

/-- The measure lines in `lineread` (qicollect.cpp:92–186). -/
def measureLine (S : Scanners) (now : Int) (bufin : Bytes) (c : CollectingConn P) :
    Except Exn (CollectingConn P × List (Effect P)) :=
  let m := parseMeasure S c.mpcs now bufin
  (mustrecorddata (c.rrdlastupdate.find? m.1) m.2.1).bind fun mustrecord =>
    let c := { c with rrdlastupdate := c.rrdlastupdate.insert m.1 m.2.1 }
    if mustrecord then
      (substr bufin (addSize m.2.2 1)).map fun data => (c, [.rrd_update m.1 m.2.1 data])
    else .ok (c, [])

/-- Is the line a measure line (qicollect.cpp:92)? -/
def isMeasure (bufin : Bytes) : Bool := startsWith (str "-->") bufin

/-- `CC__MAXRETRY`. -/
def maxRetry : Nat := 7

/-- The set waited for takes its next state (qicollect.cpp:221–224). -/
def settleWaiting (c : CollectingConn P) : CollectingConn P :=
  match c.waiting_pcs with
  | some k =>
    { c with mpcs := c.mpcs.modify k fun s => { s with state := c.waiting_pcs_nextstate },
             waiting_pcs := none }
  | none => c

/-- The `switch` of `lineread` (qicollect.cpp:188–236). -/
def onLine (bufin : Bytes) (c : CollectingConn P) : CollectingConn P × List (Effect P) :=
  match c.state with
  | .welcome =>
    if bufin.take 7 = str "qigong[" then
      { c with state := .verify, nbtest := 0 }.flushText (str "qiging ?" ++ eos)
    else c.flushText eos
  | .verify =>
    if bufin.take 7 = str "qigong." then
      ({ c with state := .ready, is_collecting := true }, [])
    else
      let c := { c with nbtest := c.nbtest + 1 }
      let c := if maxRetry ≤ c.nbtest then { c with state := .timeout } else c
      c.flushText (str "qiging ?" ++ eos)
  | .waiting =>
    if startsWith c.wait_string bufin then
      ({ c.settleWaiting with state := .ready }, [])
    else (c, [])
  | .ready | .timeout | .needtoconnect | .challenging => (c, [])

/-- `CollectingConn::lineread` (qicollect.cpp:88–237), on the line in `bufin`. -/
def lineread (S : Scanners) (now : Int) (bufin : Bytes) (c : CollectingConn P) :
    Except Exn (CollectingConn P × List (Effect P)) :=
  let c := { c with lastlineread := now }
  (if c.is_collecting && isMeasure bufin then c.measureLine S now bufin else .ok (c, [])).map
    fun r =>
      let s := r.1.onLine bufin
      (s.1, .received bufin now c.is_collecting :: (r.2 ++ s.2))

/-! ### `poll` and reconnecting -/

/-- `CollectingConn::failconnect_treat` (qicollect.cpp:377–397). -/
def failconnect_treat (now : Int) (rand : Nat) (straightfail : Bool) (c : CollectingConn P) :
    CollectingConn P :=
  let d := c.delay_reconnect
  let delay :=
    if straightfail then
      if d < 2 then 2 else if d < 120 then d * 2 + (rand % 5 : Nat) else 120 + (rand % 10 : Nat)
    else
      if d < 10 then 10 else if d < 3600 then d * 2 + (rand % 10 : Nat) else 3600 + (rand % 100 : Nat)
  { c with lastattempt := now, delay_reconnect := delay }

/-- `CollectingConn::reconnect_hook` (qicollect.cpp:239–263). -/
def reconnect_hook (now : Int) (rand : Nat) (c : CollectingConn P) : CollectingConn P :=
  let c := { c with crypt := c.crypt.closecrypt, fd := -1 }
  let c := if c.state = .challenging then c.failconnect_treat now rand false
    else { c with delay_reconnect := 1 }
  { c with is_collecting := false, nbwakeattempt := 0, state := .needtoconnect }

/-- A silent qigong is woken up, or given up (qicollect.cpp:267–277). -/
def wake (env : PollEnv) (c : CollectingConn P) : CollectingConn P × List (Effect P) :=
  if 0 ≤ c.fd ∧ c.is_collecting = true ∧ 45 < env.now - c.lastlineread then
    let c := { c with lastlineread := env.now }
    if c.nbwakeattempt < 4 then
      { c with nbwakeattempt := c.nbwakeattempt + 1 }.flushText (str "qiging" ++ eosAddress)
    else (c.reconnect_hook env.now env.rand, [])
  else (c, [])

/-- `poll` in state `ready` (qicollect.cpp:279–333). -/
def pollReady (c : CollectingConn P) : CollectingConn P × List (Effect P) :=
  if c.pending then
    match nextToSend c.mpcs.entries with
    | none => ({ c with pending := false }, [])
    | some (k, s, cmd) =>
      let r := c.flushText (cmd.text s)
      ({ r.1 with state := .waiting, wait_string := cmd.wait_string, waiting_pcs := some k,
                  waiting_pcs_nextstate := cmd.nextstate, pending := true },
        .command k cmd :: r.2)
  else (c, [])

/-- `poll` in state `needtoconnect` (qicollect.cpp:334–368). -/
def pollConnect (env : PollEnv) (c : CollectingConn P) : CollectingConn P × List (Effect P) :=
  if c.delay_reconnect < env.now - c.lastattempt then
    if 0 ≤ env.newfd then
      ({ c with fd := env.newfd, crypt := c.crypt.opencrypt env.urandom,
                mpcs := c.mpcs.mapVals fun _ s => { s with state := .del_remote_for_create },
                pending := true, state := .challenging },
        [.session])
    else (c.failconnect_treat env.now env.rand (env.newfd ≠ -2), [])
  else (c, [])

/-- `CollectingConn::poll` (qicollect.cpp:265–372). -/
def poll (env : PollEnv) (c : CollectingConn P) : CollectingConn P × List (Effect P) :=
  let w := c.wake env
  let r := match w.1.state with
    | .ready => w.1.pollReady
    | .needtoconnect => w.1.pollConnect env
    | _ => (w.1, [])
  (r.1, w.2 ++ r.2)

end CollectingConn

end Qigong.Collect
