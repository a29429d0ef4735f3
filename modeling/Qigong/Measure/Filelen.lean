import Qigong.Measure.Outside

/-!
# `MPfilelen` and `MPlastmatchfilelen` (qimeasure.cpp:34–90 and 208–420)

A file is followed by a `LogCountConn`, of which only the count of the line ends it has
read is kept: the pool has it read between the calls of `measure`. `init_mmpcreators`
sets the pool, so it is there. `reopen` is virtual, and a parameter of what calls it; the
argument of `reopen` is `true` wherever it is called.
-/

namespace Qigong.Measure

variable (env : Outside)

/-! ## `MPfilelen` -/

/-- `plcc` is the count of the `LogCountConn`; `curstat` is set wherever there is one. -/
structure MPfilelen where
  oldnl : Int
  tlast_nonzero : Int
  zltimeout : Int
  fname : Bytes
  plcc : Option Int
  curstat : FileId

namespace MPfilelen

/-- `MPfilelen::reopen`. -/
def reopen (m : MPfilelen) : MPfilelen :=
  match env.opened m.fname with
  | some (some curstat) => { m with curstat := curstat, tlast_nonzero := env.now, plcc := some 0 }
  | some none => { m with plcc := none }
  | none => { m with plcc := none }

/-- The constructor of `MPfilelen`; what it calls of a class derived from it is its own. -/
def make (param : Bytes) (zltimeout : Int) : MPfilelen :=
  reopen env
    { oldnl := 0, tlast_nonzero := env.now, zltimeout := zltimeout, fname := param, plcc := none,
      curstat := ⟨0, 0⟩ }

/-- The count of line ends goes on between the calls of `measure`. -/
def counted (m : MPfilelen) : MPfilelen := { m with plcc := m.plcc.map (· + env.newlines) }

/-- The time of a count that has changed. -/
def touched (m : MPfilelen) : MPfilelen :=
  if m.zltimeout ≠ 0 then { m with tlast_nonzero := env.now } else m

/-- The count is the result, if there is one (qimeasure.cpp:338–346 and 356–363). -/
def answer (m : MPfilelen) : MPfilelen × Bytes :=
  match m.plcc with
  | none => (m, unknown)
  | some nl => ({ m with oldnl := nl }, decimal nl)

/-- The file is not the one that was opened, or nothing was counted for too long. -/
def stale (m : MPfilelen) : Prop :=
  (m.zltimeout ≠ 0 ∧ m.zltimeout < env.now - m.tlast_nonzero) ∨
    (env.lstat m.fname).st_dev ≠ m.curstat.st_dev ∨ (env.lstat m.fname).st_ino ≠ m.curstat.st_ino

instance (m : MPfilelen) : Decidable (m.stale env) := inferInstanceAs (Decidable (_ ∨ _))

/-- `MPfilelen::measure`, with the `reopen` of the class of the object. -/
def measureWith (reopen : MPfilelen → MPfilelen) (m : MPfilelen) : MPfilelen × Bytes × Bool :=
  let m := m.counted env
  match m.plcc with
  | none =>
    let m := reopen m
    let r := if m.plcc = none then m.answer else (m.touched env).answer
    (r.1, r.2, true)
  | some nl =>
    if m.oldnl = nl then
      if m.stale env then
        let r := (reopen { m with plcc := none }).answer
        (r.1, r.2, true)
      else (m, decimal m.oldnl, true)
    else
      let r := (m.touched env).answer
      (r.1, r.2, true)

def measure (m : MPfilelen) : MPfilelen × Bytes × Bool := m.measureWith env (reopen env)

end MPfilelen

/-! ## `MPlastmatchfilelen` -/

/-- `MatchBeginEnd`. -/
structure MatchBeginEnd where
  dirname : Bytes
  fname_begin : Bytes
  fname_end : Bytes

namespace MatchBeginEnd

/-- `MatchBeginEnd::matchentry`. -/
def matchentry (g : MatchBeginEnd) (fname : Bytes) (fst : DirStat) : Bool :=
  fst.isReg && findWord g.fname_begin fname == some 0 &&
    (g.fname_end.isEmpty ||
      rfindWord g.fname_end fname == some (fname.length - g.fname_end.length))

/-- One turn of the loop of `getlast` (qimeasure.cpp:59–74): the newest match so far. -/
def look (g : MatchBeginEnd) (last : Option (Bytes × Int)) (entry : Bytes × Option DirStat) :
    Option (Bytes × Int) :=
  match entry.2 with
  | none => last
  | some fst =>
    let tlast := (last.map (·.2)).getD 0
    if g.matchentry entry.1 fst = true ∧ tlast ≤ fst.st_mtime then
      some (g.dirname ++ str "/" ++ entry.1, fst.st_mtime)
    else last

/-- `GetMostRecent::getlast`. -/
def getlast (g : MatchBeginEnd) : Option Bytes :=
  (env.readdir g.dirname).bind fun entries => (entries.foldl g.look none).map (·.1)

/-- The parameter cut at its commas (qimeasure.cpp:389–402). -/
def make (param : Bytes) : MatchBeginEnd :=
  match findFrom 44 param 0 with
  | none => { dirname := param, fname_begin := [], fname_end := [] }
  | some p =>
    match findFrom 44 param (p + 1) with
    -- what stands behind the first comma is not used without a second one
    | none => { dirname := param.take p, fname_begin := [], fname_end := [] }
    | some q =>
      let fname_end :=
        match findFrom 44 param (q + 1) with
        | none => param.drop (q + 1)
        | some r => (param.drop (q + 1)).take (r - (q + 1))
      { dirname := param.take p, fname_begin := (param.drop (p + 1)).take (q - (p + 1)),
        fname_end := fname_end }

end MatchBeginEnd

structure MPlastmatchfilelen extends MPfilelen where
  getmostrecent : MatchBeginEnd

namespace MPlastmatchfilelen

/-- `MPlastmatchfilelen::reopen`. Without a match, `plcc` is left as it is. -/
def reopen (getmostrecent : MatchBeginEnd) (m : MPfilelen) : MPfilelen :=
  match getmostrecent.getlast env with
  | none => { m with fname := [] }
  | some fname => { m with fname := fname }.reopen env

/-- The constructor of `MPlastmatchfilelen`. -/
def make (param : Bytes) : MPlastmatchfilelen :=
  let getmostrecent := MatchBeginEnd.make param
  { toMPfilelen := reopen env getmostrecent (MPfilelen.make env [] 30)
    getmostrecent := getmostrecent }

def measure (m : MPlastmatchfilelen) : MPlastmatchfilelen × Bytes × Bool :=
  let r := m.toMPfilelen.measureWith env (reopen env m.getmostrecent)
  ({ m with toMPfilelen := r.1 }, r.2)

end MPlastmatchfilelen

end Qigong.Measure
