import Qigong.Conf.CollectionsConf
import Qigong.Lib.Loop
import Qigong.Qiconn

/-!
# `ReadConf::readconf` (qicollect.cpp:605–1067)

The reader of the configuration: an outer loop over the lines and an inner one that moves
a position along the line, by what the reader is looking for (`RCState`). The two loops
are one (`turn`): a turn is one of the inner loop while the position is in the line, and
else goes to the next line.

Outside the repository, and so parameters (`ConfEnv`): qiconn's scanners. Which measure
functions are compiled in, and what is read for the first interval of an empty list, are
parameters too. The keyring, the line numbers and the texts of the errors are left out;
an error returns -1.
-/

namespace Qigong.Conf

/-- qiconn's scanners for a configuration: `seekspace` gives the position of the first
character that is no blank, `getfqdn` reads the name or the address of a machine. -/
structure ConfScanners extends Scanners where
  seekspace : (s : Bytes) → (p : Nat) → Nat
  getfqdn : (s : Bytes) → (p : Nat) → Bytes × Nat

/-- What the reader works with. -/
structure ConfEnv extends ConfScanners where
  known : Bytes → Bool
  beyond : Int

/-! ## Lines -/

/-- The lines of a text (qicollect.cpp:696–700), `cur` being read of the first one: each
ends at a line feed or a carriage return, the two together end one, and the end of the
text ends the last one. -/
def linesFrom (cur : Bytes) : Bytes → List Bytes
  | [] => [cur]
  | [c] => if c = 10 ∨ c = 13 then [cur, []] else [cur ++ [c]]
  | c :: d :: t =>
    if c = 10 ∨ c = 13 then
      if isEolPair c d then cur :: linesFrom [] t else cur :: linesFrom [] (d :: t)
    else linesFrom (cur ++ [c]) (d :: t)

def lines (text : Bytes) : List Bytes := linesFrom [] text

/-! ## The reader -/

/-- What is looked for (qicollect.cpp:623–640). -/
inductive RCState where
  | seekdeclare
  | seekhostname
  | seekserverkey
  | seekhostbegin
  | seekcollect
  | seekcollectname
  | seekconnection
  | seekcolentry
  | seekrddtabledef
  | seekmultiplier
  | seekrddtable2nd
  | seekrddenpar
  | seektagorend
  | seektagname
  | seekequal
  | seekcollectfn
  | seekendparam
deriving DecidableEq, Repr

/-- `ReadConf` (qicollect.cpp:642–675). -/
structure ReadConf where
  state : RCState
  serverkey : Bytes
  metaname : Bytes
  tagmp_tagname : Bytes
  tagmp_fn : Bytes
  tagmp_params : Bytes
  curcs_name : Bytes
  curcs_fqdn : Bytes
  curcs_port : Int
  pcurcs : Option CollectionSet
  freq : CollectFreqDuration

/-- A reader that has read nothing. -/
def ReadConf.fresh : ReadConf where
  state := .seekdeclare
  serverkey := []
  metaname := []
  tagmp_tagname := []
  tagmp_fn := []
  tagmp_params := []
  curcs_name := []
  curcs_fqdn := []
  curcs_port := 0
  pcurcs := none
  freq := ⟨-1, -1⟩

/-- What a turn of the inner loop changes. -/
structure Cursor where
  r : ReadConf
  conf : CollectionsConf
  p : Nat

/-- How `readconf` is left. -/
inductive Stop where
  | returns (code : Int)
  | throws (e : Exn)
deriving DecidableEq, Repr

abbrev Outcome := Except Stop Cursor

/-- An error of the configuration. -/
def failed : Outcome := .error (.returns (-1))

namespace ReadConf

/-- The point made of what was read for it goes to the set. -/
def push_point (r : ReadConf) : Option ReadConf :=
  r.pcurcs.map fun cs =>
    { r with pcurcs := some (cs.push_point ⟨r.tagmp_tagname, r.tagmp_fn, r.tagmp_params⟩) }

/-- The entry made of what was read for it goes to the set. -/
def push_freq (r : ReadConf) : Option ReadConf :=
  r.pcurcs.map fun cs => { r with pcurcs := some (cs.push_freq r.freq) }

end ReadConf

/-- The seconds of a unit of time. -/
def unitOf (c : UInt8) : Option Int :=
  if c = 115 then some 1
  else if c = 109 then some 60
  else if c = 104 then some (60 * 60)
  else if c = 68 ∨ c = 100 then some (60 * 60 * 24)
  else if c = 87 ∨ c = 119 then some (60 * 60 * 24 * 7)
  else if c = 89 ∨ c = 121 then some (60 * 60 * 24 * 366)
  else none

/-- A product of two `long`, as the machine computes it. -/
def mulLong (a b : Int) : Int := (a * b).bmod (2 ^ 64)

section turns

variable (E : ConfEnv) (s : Bytes) (x : Cursor)

/-- A character that must come next, behind blanks. -/
def expect (c : UInt8) (found : ReadConf → Option ReadConf) : Outcome :=
  let p := E.seekspace s x.p
  if p = npos then .ok { x with p := npos }
  else if s[p]? = some c then
    match found x.r with
    | some r => .ok { x with r := r, p := p + 1 }
    | none => failed
  else failed

/-- A word that must come next, as a scanner reads it. -/
def readword (i : Bytes × Nat) (found : Bytes → Nat → Outcome) : Outcome :=
  if i.1 = [] then
    if i.2 = npos then .ok { x with p := npos } else failed
  else found i.1 i.2

/-- A time that must come next. The complaint about a missing one quotes the rest of the
line, which throws when there is no such position. -/
def readtime (found : Int → ReadConf) : Outcome :=
  let v := E.getinteger s x.p
  if v.1 = 0 then
    if v.2 = npos then .ok { x with p := npos }
    else if s.length < v.2 then .error (.throws .out_of_range)
    else failed
  else if v.2 = npos then failed
  else
    match s[v.2]?.bind unitOf with
    | some u => .ok { x with r := found (mulLong v.1 u), p := v.2 + 1 }
    | none => failed

/-- The end of a set (qicollect.cpp:785–797 and 809–821): it is checked and put in the
configuration. -/
def close (p : Nat) (next : ReadConf → ReadConf) : Outcome :=
  match x.r.pcurcs with
  | none => failed
  | some cs =>
    match cs.validate_freqs E.beyond with
    | none => .error (.throws .overflow)
    | some (cs, nbw) =>
      if nbw ≠ 0 then failed
      else
        match x.conf.push_back cs with
        | none => failed
        | some conf => .ok { r := next { x.r with pcurcs := none }, conf := conf, p := p }

/-- A point that has been read, and the position behind it. -/
def endpoint (r : ReadConf) (p : Nat) : Outcome :=
  match r.push_point with
  | none => failed
  | some r => .ok { x with r := { r with state := .seektagorend }, p := p }

/-- The set of a collect (qicollect.cpp:954–977). -/
def newset (r : ReadConf) (port : Int) (p : Nat) : Outcome :=
  if r.metaname = [] then failed
  else
    let cs := CollectionSet.make r.serverkey r.curcs_name r.metaname r.curcs_fqdn port
    .ok { x with r := { r with pcurcs := some cs, state := .seekcolentry }, p := p }

/-- One turn of the inner loop (qicollect.cpp:708–1058). -/
def readstate : Outcome :=
  match x.r.state with
  | .seekendparam =>
    match findFrom 41 s 0 with
    | none => failed
    | some q =>
      let params := (s.drop x.p).take ((findFrom 41 s x.p).getD npos - x.p)
      -- the search starts over, from the beginning of the line
      endpoint x { x.r with tagmp_params := params } (q + 1)
  | .seekcollectfn =>
    readword x (E.getidentifier s x.p) fun ident p =>
      if E.known ident then
        let r := { x.r with tagmp_fn := ident }
        if p ≠ npos ∧ s[p]? = some 40 then
          .ok { x with r := { r with state := .seekendparam }, p := p + 1 }
        else endpoint x { r with tagmp_params := [] } p
      else failed
  | .seekequal => expect E s x 61 fun r => some { r with state := .seekcollectfn }
  | .seektagorend =>
    -- what `seekspace` gives is not used here
    if s[x.p]? = some 125 then
      close E x (x.p + 1) fun r => { r with metaname := [], state := .seekdeclare }
    else .ok { x with r := { x.r with state := .seektagname } }
  | .seektagname =>
    readword x (E.getidentifier s x.p) fun ident p =>
      if ident = str "collect" then close E x p fun r => { r with state := .seekcollectname }
      else .ok { x with r := { x.r with tagmp_tagname := ident, state := .seekequal }, p := p }
  | .seekrddenpar =>
    expect E s x 41 fun r => r.push_freq.map fun r => { r with state := .seekcolentry }
  | .seekrddtable2nd =>
    readtime E s x fun v =>
      { x.r with freq := { x.r.freq with duration := v }, state := .seekrddenpar }
  | .seekmultiplier => expect E s x 120 fun r => some { r with state := .seekrddtable2nd }
  | .seekrddtabledef =>
    readtime E s x fun v =>
      { x.r with freq := { x.r.freq with interval := v }, state := .seekmultiplier }
  | .seekcolentry =>
    let p := E.seekspace s x.p
    if p = npos then .ok { x with p := npos }
    else if s[p]? = some 40 then
      .ok { x with r := { x.r with state := .seekrddtabledef }, p := p + 1 }
    else .ok { x with r := { x.r with state := .seektagname }, p := p }
  | .seekconnection =>
    readword x (E.getfqdn s x.p) fun ident p =>
      let r := { x.r with curcs_fqdn := ident }
      if p ≠ npos ∧ s[p]? = some 58 then
        let v := E.getinteger s (p + 1)
        let port := v.1.bmod (2 ^ 32)
        if v.1 = 0 then failed else newset x { r with curcs_port := port } port v.2
      else newset x r defaultPort p
  | .seekcollect =>
    readword x (E.getidentifier s x.p) fun ident p =>
      if ident = str "collect" then .ok { x with r := { x.r with state := .seekcollectname }, p := p }
      else failed
  | .seekcollectname =>
    readword x (E.getidentifier s x.p) fun ident p =>
      .ok { x with r := { x.r with curcs_name := ident, state := .seekconnection }, p := p }
  | .seekdeclare =>
    readword x (E.getidentifier s x.p) fun ident p =>
      if ident = str "host" then .ok { x with r := { x.r with state := .seekhostname }, p := p }
      else if ident = str "serverkey" then
        .ok { x with r := { x.r with state := .seekserverkey }, p := p }
      else failed
  | .seekhostname =>
    readword x (E.getidentifier s x.p) fun ident p =>
      .ok { x with r := { x.r with metaname := ident, state := .seekhostbegin }, p := p }
  | .seekserverkey =>
    readword x (E.getidentifier s x.p) fun ident p =>
      .ok { x with r := { x.r with serverkey := ident, state := .seekdeclare }, p := p }
  | .seekhostbegin => expect E s x 123 fun r => some { r with state := .seekcollect }

end turns

/-! ## The loops -/

/-- The variables of `readconf`: the line that is read, and those to be read. -/
structure Reading extends Cursor where
  s : Bytes
  rest : List Bytes

/-- The position in a line that has just been read: none is looked at in an empty line or
in a comment. -/
def beginning (E : ConfEnv) (s : Bytes) : Nat :=
  let p := E.seekspace s 0
  if p = npos ∨ s[p]? = some 35 then npos else p

/-- The inner loop is not over. -/
def Reading.InLine (y : Reading) : Prop := y.p ≠ npos ∧ y.p < y.s.length

instance (y : Reading) : Decidable y.InLine := inferInstanceAs (Decidable (_ ∧ _))

/-- One turn of the loops of `readconf`. -/
def turn (E : ConfEnv) (y : Reading) : Reading ⊕ (Stop × CollectionsConf) :=
  if y.InLine then
    match readstate E y.s y.toCursor with
    | .ok x => .inl { y with toCursor := x }
    | .error e => .inr (e, y.conf)
  else
    match y.rest with
    | s :: rest => .inl { y with p := beginning E s, s := s, rest := rest }
    | [] => .inr (.returns (if y.r.state = .seekdeclare then 0 else -1), y.conf)

/-- Where `readconf` begins. -/
def begin (text : Bytes) : Reading where
  r := .fresh
  conf := .empty
  p := npos
  s := []
  rest := lines text

/-- `readconf (text, conf)` is left so, with this configuration. -/
def Reads (E : ConfEnv) (text : Bytes) (how : Stop) (conf : CollectionsConf) : Prop :=
  Lib.Returns (turn E) (begin text) (how, conf)

/-- `readconf (text, conf)` comes here. -/
def Comes (E : ConfEnv) (text : Bytes) (y : Reading) : Prop := Lib.Turns (turn E) (begin text) y

/-! ## Scanners to compute with -/

def isFqdn (c : UInt8) : Bool := isIdent c || c == 45 || c == 46

/-- A reader for a qigong that has these measure functions. -/
def sampleEnv (fns : List Bytes) : ConfEnv where
  toScanners := sampleScanners
  seekspace := seek isBlank
  getfqdn := scan isBlank isFqdn
  known fn := fns.contains fn
  beyond := 0

end Qigong.Conf
