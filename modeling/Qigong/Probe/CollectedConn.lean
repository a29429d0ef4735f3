import Qigong.Probe.RecordSets
import Qigong.Lib.Machine

/-!
# `CollectedConn` (qigong.h:86–103, qigong.cpp:200–374)

What a connection is answered: one definition for each command of `lineread`, over one
loop for the identifiers of a command. A qigong runs on events: connections come and go,
lines arrive on them, and the schedule is polled.

`quit` and `turnoff` act through qiconn, outside the repository: the destruction of a
connection is an event of its own. Indexing a string at `npos` reads no parenthesis.
-/

namespace Qigong.Probe

/-- What is compiled in. -/
structure Build where
  mmpcreators : MmpCreators
  version : Bytes

namespace Globals

/-! ## The commands -/

/-- The loop over the identifiers of a command (qigong.cpp:285–297 and its likes): what
`body` does with each, and the number of times it succeeds. -/
def overIdents (S : Scanners) (pcc : ConnId) (bufin : Bytes)
    (body : Globals → Bytes → Except Exn (Globals × Bool)) :
    (fuel p : Nat) → Globals × Nat → Except Exn (Globals × Nat)
  | 0, p, r => if p = npos then .ok r else .error .endless
  | fuel + 1, p, r =>
    if p = npos then .ok r
    else
      let i := S.getidentifier bufin p
      if i.1 = [] then .ok (r.1.write pcc (str "error: missing identifier" ++ endl), r.2)
      else
        (body r.1 i.1).bind fun x =>
          overIdents S pcc bufin body fuel i.2 (x.1, if x.2 then r.2 + 1 else r.2)

/-- The line that ends a command: how often it was performed. -/
def performed (command unit : Bytes) (n : Nat) : Bytes :=
  command ++ str ": " ++ decimal n ++ str " " ++ unit ++ (if n = 1 then [] else str "s") ++
    str " performed." ++ endl

/-- A command over identifiers. -/
def forIdents (S : Scanners) (pcc : ConnId) (bufin : Bytes) (p : Nat) (command unit : Bytes)
    (body : Globals → Bytes → Except Exn (Globals × Bool)) (g : Globals) : Except Exn Globals :=
  (overIdents S pcc bufin body (bufin.length + 1) p (g, 0)).map fun r =>
    r.1.write pcc (performed command unit r.2)

/-- One identifier of `delete` (qigong.cpp:291–294). -/
def deleteOne (pcc : ConnId) (g : Globals) (ident : Bytes) : Except Exn (Globals × Bool) :=
  (g.suppressrecordset pcc ident).map fun r =>
    if r.2 then r
    else (r.1.write pcc (str "deletion of " ++ quoted ident ++ str "failed." ++ endl), false)

/-- One identifier of `activate` (qigong.cpp:309–313). -/
def activateOne (env : Env) (pcc : ConnId) (g : Globals) (ident : Bytes) :
    Except Exn (Globals × Bool) :=
  (g.activaterecordset env pcc ident).map fun r =>
    if r.2 then
      (r.1.write pcc (str "RecordSet: " ++ quoted ident ++ str " activated." ++ endl), true)
    else (r.1.write pcc (str "activation of " ++ quoted ident ++ str "failed." ++ endl), false)

/-- One identifier of `subscribe` or `unsubscribe` (qigong.cpp:328–335 and 350–357): `act`
is `add_subs` or `remove_subs`, `told` what is answered. -/
def subsOne (act : Globals → ConnId → SetId → Except Exn Globals) (told : Bytes) (pcc : ConnId)
    (g : Globals) (ident : Bytes) : Except Exn (Globals × Bool) :=
  match g.mrecordsets.find? ident with
  | none =>
    .ok (g.write pcc (str "RecordSet: " ++ quoted ident ++ str " doesn't exist." ++ endl), false)
  | some prs =>
    (act g pcc prs).map fun g => (g.write pcc (told ++ quoted ident ++ str "." ++ endl), true)

/-- `create` (qigong.cpp:265–273). -/
def createCommand (S : Scanners) (B : Build) (pcc : ConnId) (bufin : Bytes) (p : Nat)
    (g : Globals) : Except Exn Globals :=
  (substr bufin p).bind fun s =>
    (createrecordset S B.mmpcreators g.mrecordsets s).map fun r =>
      match r.2 with
      | none => g.write pcc (r.1 ++ (str "creation failed" ++ endl))
      | some rs =>
        (g.register rs).write pcc (r.1 ++ (rs.dump ++ endl) ++ (str "creation done." ++ endl))

/-- The answer to `help` (qigong.cpp:242–251). -/
def helpText : Bytes :=
  [str "  help    this help",
   str "  create RecordSetIdent Interval MeasurePointName(Params ) [ MP(params) ... ]",
   str "  list",
   str "  delete RecordSetIdent",
   str "  activate RecordSetIdent",
   str "  subscribe|sub RecordSetIdent",
   str "  unsubscribe|unsub RecordSetIdent",
   str "  turnoff",
   str "  quit",
   []].flatMap (· ++ endl)

/-- The answer to `list` (qigong.cpp:275–280). A registered set that is gone would be
undefined. -/
def listText (g : Globals) : Except Exn Bytes :=
  g.mrecordsets.entries.foldlM
    (fun text e =>
      match g.recordsets.find? e.2 with
      | none => .error .dangling
      | some rs => .ok (text ++ rs.dump ++ endl))
    endl

/-- The commands of `lineread` (qigong.cpp:239–369). -/
def command (S : Scanners) (B : Build) (env : Env) (pcc : ConnId) (bufin : Bytes) (g : Globals) :
    Except Exn Globals :=
  let i := S.getidentifier bufin 0
  if i.1 = [] then .ok g
  else if i.1 = str "help" then .ok (g.write pcc helpText)
  else if i.1 = str "quit" then .ok (g.write pcc (str "ending connection" ++ endl))
  else if i.1 = str "turnoff" then .ok (g.write pcc (str "entering turnoff" ++ endl))
  else if i.1 = str "create" then g.createCommand S B pcc bufin i.2
  else if i.1 = str "list" then g.listText.map (g.write pcc)
  else if i.1 = str "delete" then
    g.forIdents S pcc bufin i.2 (str "delete") (str "deletion") (deleteOne pcc)
  else if i.1 = str "activate" then
    g.forIdents S pcc bufin i.2 (str "activate") (str "activation") (activateOne env pcc)
  else if i.1 = str "subscribe" ∨ i.1 = str "sub" then
    g.forIdents S pcc bufin i.2 (str "subscribe") (str "subsription")
      (subsOne add_subs (str "subscribed to  ") pcc)
  else if i.1 = str "unsubscribe" ∨ i.1 = str "unsub" then
    g.forIdents S pcc bufin i.2 (str "unsubscribe") (str "unsubsription")
      (subsOne remove_subs (str "unsubscribed to  ") pcc)
  else if i.1 = str "qiging" then
    .ok { g.write pcc (eos ++ str "qigong." ++ eos) with prompt := [] }
  else .ok (g.write pcc (str "unknown command : " ++ quoted i.1 ++ endl))

/-! ## `lineread` -/

/-- `*out << prompt << nbp++ << " : " << eos ()`. -/
def writePrompt (g : Globals) (pcc : ConnId) : Globals :=
  { g with conns := g.conns.modify pcc fun c =>
      { c with nbp := c.nbp + 1, out := c.out ++ (g.prompt ++ decimal c.nbp ++ str " : " ++ eos) } }

/-- The end of `lineread` (qigong.cpp:370–373). -/
def endLine (g : Globals) (pcc : ConnId) : Globals :=
  (if g.prompt = [] then g else g.writePrompt pcc).flush pcc

/-- `CollectedConn::lineread` (qigong.cpp:233–374), on the line in `bufin`. -/
def lineread (S : Scanners) (B : Build) (env : Env) (pcc : ConnId) (bufin : Bytes) (g : Globals) :
    Except Exn Globals :=
  (g.command S B env pcc bufin).map fun g => g.endLine pcc

/-! ## Connections come and go -/

/-- What `gethostname` may give. -/
structure Hostname where
  name : Bytes
  noEol : NoEol name

/-- The constructor (qigong.cpp:200–210). -/
def connect (g : Globals) (pcc : ConnId) (gethostname : Option Hostname) : Globals :=
  { g with conns := g.conns.insert pcc ⟨0, .empty, []⟩,
           hostname := match gethostname with
             | some h => h.name
             | none => g.hostname }

/-- `CollectedConn::firstprompt` (qigong.cpp:212–217). -/
def firstprompt (B : Build) (g : Globals) (pcc : ConnId) : Globals :=
  let g := g.write pcc (B.version ++ str " - host:" ++ g.hostname ++ endl ++ endl)
  let g := { g with prompt := str "qigong[" ++ g.hostname ++ str "] : " }
  (g.writePrompt pcc).flush pcc

/-- The destructor (qigong.cpp:218–222). -/
def destroy (g : Globals) (pcc : ConnId) : Except Exn Globals :=
  match g.conns.find? pcc with
  | none => .error .dangling
  | some c =>
    (c.subs.keys.foldlM (fun (g : Globals) prs => g.remove_channel prs pcc) g).map fun g =>
      { g with conns := g.conns.erase pcc }

end Globals

/-! ## Events -/

/-- What happens to a qigong. A connection that is made is not one that lives, and one
that is spoken of lives. -/
inductive Event where
  | connected (pcc : ConnId) (gethostname : Option Globals.Hostname)
  | firstprompt (pcc : ConnId)
  | line (pcc : ConnId) (env : Env) (bufin : Bytes)
  | destroyed (pcc : ConnId)
  | select_poll (env : Env)

/-- What an event does. -/
def react (S : Scanners) (B : Build) (g : Globals) : Event → Except Exn Globals
  | .connected pcc gethostname => .ok (g.connect pcc gethostname)
  | .firstprompt pcc => .ok (g.firstprompt B pcc)
  | .line pcc env bufin => g.lineread S B env pcc bufin
  | .destroyed pcc => g.destroy pcc
  | .select_poll env => g.select_poll env

/-- Can the event happen? -/
def Globals.possible (g : Globals) : Event → Bool
  | .connected pcc _ => !g.conns.contains pcc
  | .firstprompt pcc | .line pcc _ _ | .destroyed pcc => g.conns.contains pcc
  | .select_poll _ => true

/-- One event, `none` when it cannot happen or ends the run. -/
def step (S : Scanners) (B : Build) (g : Globals) (e : Event) : Option Globals :=
  if g.possible e then (react S B g e).toOption else none

/-- The state a qigong starts in (qigong.h:78–80). -/
def boot : Globals where
  recordsets := .empty
  nextset := 0
  conns := .empty
  mrecordsets := .empty
  schedule := []
  hostname := str "unknown_host"
  prompt := str "qigong[unknown_host] : "
  sent := []

/-! ## A qigong to compute with -/

/-- A qigong that knows the function `load`. -/
def sampleBuild : Build where
  mmpcreators := Lib.OrdMap.empty.insert (str "load") fun param => some ⟨str "load", param⟩
  version := str "Qigong"

theorem noEol_probe : NoEol (str "probe") := by decide

/-- A collector connects, and is prompted. -/
def sampleGreeting : List Event :=
  [.connected 0 (some ⟨str "probe", noEol_probe⟩), .firstprompt 0]

def sampleEnv : Env := ⟨1000, fun _ _ => str "0.5"⟩

/-- It has a set created. -/
def sampleCreation : List Event :=
  sampleGreeting ++ [.line 0 sampleEnv (str "create web 60 load")]

end Qigong.Probe
