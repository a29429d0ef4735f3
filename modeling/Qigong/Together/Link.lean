import Qigong.Collect.Setup
import Qigong.Together.Served

/-!
# A collector and a qigong, and what is in flight between them

A session of the collector is one connection of the qigong. The lines one side has sent
and the other has not read yet are in flight, in the order they were sent in: of two
connections that have shaken hands the crypt layers lose no line, and put in none but
empty ones. Either side may take a step at any time, and so may the other connections of
the qigong and its schedule. A session that ends takes what is in flight with it.

- `readFrom`: what is read of the lines in flight, and what is left (`readFrom_filter`).
- `step`: one step of the two.
- `step_sides`: the steps of either side are steps of its own model.
-/

namespace Qigong.Together

open Crypt Probe Probe.Globals
open Crypt.CryptConnection (splitRecord)
open Collect (CollectionSet CollectingConn Effect Traced PollEnv)

variable {P : Platform} {S : Scanners} {B : Build}

/-! ## Lines in flight -/

/-- The lines in flight behind some that are read, where these are the next ones, and empty
ones. -/
def readFrom : (flight lines : List Bytes) → Option (List Bytes)
  | flight, [] => some flight
  | [], l :: lines => if l = [] then readFrom [] lines else none
  | m :: flight, l :: lines =>
    if l = m then readFrom flight lines
    else if l = [] then readFrom (m :: flight) lines
    else none

/-- **Of the lines that are not empty none is lost and none is added.** -/
theorem readFrom_filter {p : Bytes → Bool} (hp : p [] = false) {flight lines rest : List Bytes}
    (h : readFrom flight lines = some rest) : flight.filter p = lines.filter p ++ rest.filter p := by
  induction lines generalizing flight with
  | nil =>
    rw [readFrom] at h
    obtain rfl := Option.some.inj h
    rfl
  | cons l lines ih =>
    have hblank : ∀ flight, l = [] → readFrom flight lines = some rest →
        flight.filter p = (l :: lines).filter p ++ rest.filter p := by
      intro flight hl hrest
      rw [List.filter_cons_of_neg (by rw [hl, hp]; exact Bool.false_ne_true)]
      exact ih hrest
    cases flight with
    | nil =>
      rw [readFrom] at h
      split at h
      case isTrue hl => exact hblank [] hl h
      case isFalse => cases h
    | cons m flight =>
      rw [readFrom] at h
      split at h
      case isTrue hl =>
        show ([m] ++ flight).filter p = ([l] ++ lines).filter p ++ rest.filter p
        rw [List.filter_append, List.filter_append, ih h, hl, List.append_assoc]
      case isFalse =>
        split at h
        case isTrue hl => exact hblank (m :: flight) hl h
        case isFalse => cases h

/-- What is left in flight was in flight. -/
theorem readFrom_subset {flight lines rest : List Bytes} (h : readFrom flight lines = some rest) :
    rest ⊆ flight := by
  induction lines generalizing flight with
  | nil =>
    rw [readFrom] at h
    obtain rfl := Option.some.inj h
    exact List.Subset.refl _
  | cons l lines ih =>
    cases flight with
    | nil =>
      rw [readFrom] at h
      split at h
      · exact ih h
      · cases h
    | cons m flight =>
      rw [readFrom] at h
      split at h
      · exact List.Subset.trans (ih h) (List.subset_cons_self m flight)
      · split at h
        · exact ih h
        · cases h

/-- One line is the next one, or an empty one. -/
theorem mem_of_readFrom {flight rest : List Bytes} {l : Bytes} (h : readFrom flight [l] = some rest) :
    l = [] ∨ l ∈ flight := by
  cases flight with
  | nil =>
    rw [readFrom] at h
    split at h
    case isTrue hl => exact .inl hl
    case isFalse => cases h
  | cons m flight =>
    rw [readFrom] at h
    split at h
    case isTrue hl => exact .inr (hl ▸ List.mem_cons_self)
    case isFalse =>
      split at h
      case isTrue hl => exact .inl hl
      case isFalse => cases h

/-- Lines are read one after the other. -/
theorem readFrom_cons {flight rest : List Bytes} {l : Bytes} {lines : List Bytes}
    (h : readFrom flight (l :: lines) = some rest) :
    ∃ mid, readFrom flight [l] = some mid ∧ readFrom mid lines = some rest := by
  cases flight with
  | nil =>
    rw [readFrom] at h
    split at h
    case isTrue hl => exact ⟨[], by rw [readFrom, if_pos hl, readFrom], h⟩
    case isFalse => cases h
  | cons m flight =>
    rw [readFrom] at h
    split at h
    case isTrue hl => exact ⟨flight, by rw [readFrom, if_pos hl, readFrom], h⟩
    case isFalse hm =>
      split at h
      case isTrue hl => exact ⟨m :: flight, by rw [readFrom, if_neg hm, if_pos hl, readFrom], h⟩
      case isFalse => cases h

/-! ## The two sides -/

/-- What the collector's session is on the qigong: no connection yet, one, or one that the
qigong has destroyed. -/
inductive Link where
  | unlinked
  | linked (pcc : ConnId)
  | lost
deriving DecidableEq, Repr

/-- The connection the session has. -/
def Link.conn : Link → Option ConnId
  | .linked pcc => some pcc
  | .unlinked | .lost => none

/-- A collector and a qigong, and the lines in flight: `up` to the qigong, `down` to the
collector. -/
structure State (P : Platform) where
  collector : Traced P
  probe : Globals
  link : Link
  up : List Bytes
  down : List Bytes

/-- What happens to the two: something happens to the collector; the qigong accepts the
connection of its session, prompts it, serves a line of it, destroys it; or something else
happens to the qigong. -/
inductive Event where
  | collector (e : Collect.Event)
  | accepted (pcc : ConnId) (gethostname : Option Globals.Hostname)
  | prompted
  | served (env : Env) (bufin : Bytes)
  | dropped
  | other (e : Probe.Event)

/-- What the collector's crypt layer calls on it in an event. -/
def calls (c : CollectingConn P) : Collect.Event → List Call
  | .line _ env bytes => (c.crypt.receive env bytes).toOption.elim [] Prod.snd
  | .poll _ | .reconnect_hook _ _ => []

/-- The lines among calls. -/
def linesOf (cs : List Call) : List Bytes :=
  cs.filterMap fun
    | .lineread bufin => some bufin
    | .firstprompt => none

/-- The lines that effects put in flight. -/
def said (effs : List (Effect P)) : List Bytes :=
  effs.flatMap fun
    | .flushed b => splitRecord [] b.out
    | _ => []

/-- Do effects start a session? -/
def restarts (effs : List (Effect P)) : Bool :=
  effs.any fun
    | .session => true
    | _ => false

namespace State

/-- The qigong has taken a step, and tells the session's connection what it tells it. -/
def tells (s : State P) (pcc : ConnId) (g : Globals) : State P :=
  { s with probe := g, down := s.down ++ told pcc s.probe g }

/-- The collector has taken a step, `down` being what it has left in flight. -/
def moves (s : State P) (c : Traced P) (down : List Bytes) : State P :=
  let effs := c.log.drop s.collector.log.length
  if c.conn.state = .needtoconnect ∨ restarts effs = true then
    { s with collector := c, link := .unlinked, up := [], down := [] }
  else { s with collector := c, up := s.up ++ said effs, down := down }

end State

/-- One step of the two. The handshake of a session ends where it has a connection. -/
def step (S : Scanners) (B : Build) (s : State P) : Event → Option (State P)
  | .collector e =>
    if .firstprompt ∈ calls s.collector.conn e ∧ s.link.conn = none then none
    else
      (readFrom s.down (linesOf (calls s.collector.conn e))).bind fun down =>
        (Collect.step S s.collector e).map fun c => s.moves c down
  | .accepted pcc gethostname =>
    if s.link = .unlinked ∧ s.collector.conn.state = .challenging then
      (Probe.step S B s.probe (.connected pcc gethostname)).map fun g =>
        { s with probe := g, link := .linked pcc }
    else none
  | .prompted =>
    s.link.conn.bind fun pcc => (Probe.step S B s.probe (.firstprompt pcc)).map (s.tells pcc)
  | .served env bufin =>
    s.link.conn.bind fun pcc => (readFrom s.up [bufin]).bind fun up =>
      (Probe.step S B s.probe (.line pcc env bufin)).map fun g => { s.tells pcc g with up := up }
  | .dropped =>
    s.link.conn.bind fun pcc =>
      (Probe.step S B s.probe (.destroyed pcc)).map fun g => { s with probe := g, link := .lost }
  | .other e =>
    match s.link.conn with
    | some pcc =>
      if connOf e = some pcc then none else (Probe.step S B s.probe e).map (s.tells pcc)
    | none => (Probe.step S B s.probe e).map fun g => { s with probe := g }

/-- A collector just constructed, and a qigong. -/
def begin (c : Traced P) (g : Globals) : State P := ⟨c, g, .unlinked, [], []⟩

/-! ## What a step does -/

/-- A line calls what its bytes make the crypt layer call. -/
theorem calls_line {c : CollectingConn P} {d : CryptConnection P} {now : Int} {env : LineEnv}
    {bytes : Bytes} {cs : List Call} (h : c.crypt.receive env bytes = .ok (d, cs)) :
    calls c (.line now env bytes) = cs := by
  show (c.crypt.receive env bytes).toOption.elim [] Prod.snd = cs
  rw [h]
  rfl

theorem Link.conn_eq_some_iff {l : Link} {pcc : ConnId} : l.conn = some pcc ↔ l = .linked pcc := by
  cases l with
  | linked pcc' => simp [Link.conn]
  | unlinked | lost => exact ⟨nofun, nofun⟩

/-- What an event does, by what it is. -/
def StepSpec (S : Scanners) (B : Build) (s s' : State P) : Event → Prop
  | .collector e => ∃ down c, (.firstprompt ∈ calls s.collector.conn e → ∃ pcc, s.link = .linked pcc) ∧
      readFrom s.down (linesOf (calls s.collector.conn e)) = some down ∧
      Collect.step S s.collector e = some c ∧ s' = s.moves c down
  | .accepted pcc gethostname => s.link = .unlinked ∧ s.collector.conn.state = .challenging ∧
      ∃ g, Probe.step S B s.probe (.connected pcc gethostname) = some g ∧
        s' = { s with probe := g, link := .linked pcc }
  | .prompted => ∃ pcc g, s.link = .linked pcc ∧
      Probe.step S B s.probe (.firstprompt pcc) = some g ∧ s' = s.tells pcc g
  | .served env bufin => ∃ pcc up g, s.link = .linked pcc ∧ readFrom s.up [bufin] = some up ∧
      Probe.step S B s.probe (.line pcc env bufin) = some g ∧ s' = { s.tells pcc g with up := up }
  | .dropped => ∃ pcc g, s.link = .linked pcc ∧ Probe.step S B s.probe (.destroyed pcc) = some g ∧
      s' = { s with probe := g, link := .lost }
  | .other e =>
      (∃ pcc g, s.link = .linked pcc ∧ connOf e ≠ some pcc ∧ Probe.step S B s.probe e = some g ∧
        s' = s.tells pcc g) ∨
      ((∀ pcc, s.link ≠ .linked pcc) ∧ ∃ g, Probe.step S B s.probe e = some g ∧
        s' = { s with probe := g })

theorem step_spec {s s' : State P} {e : Event} (h : step S B s e = some s') :
    StepSpec S B s s' e := by
  have hconn : ∀ {f : ConnId → Option (State P)}, s.link.conn.bind f = some s' →
      ∃ pcc, s.link = .linked pcc ∧ f pcc = some s' := by
    intro f hf
    obtain ⟨pcc, hpcc, hf⟩ := Option.bind_eq_some_iff.mp hf
    exact ⟨pcc, Link.conn_eq_some_iff.mp hpcc, hf⟩
  cases e with
  | collector e =>
    simp only [step, Option.ite_none_left_eq_some] at h
    obtain ⟨hprompt, h⟩ := h
    obtain ⟨down, hdown, h⟩ := Option.bind_eq_some_iff.mp h
    obtain ⟨c, hc, rfl⟩ := Option.map_eq_some_iff.mp h
    refine ⟨down, c, fun hcall => ?_, hdown, hc, rfl⟩
    obtain ⟨pcc, hpcc⟩ := Option.ne_none_iff_exists'.mp fun hnone => hprompt ⟨hcall, hnone⟩
    exact ⟨pcc, Link.conn_eq_some_iff.mp hpcc⟩
  | accepted pcc gethostname =>
    simp only [step, Option.ite_none_right_eq_some] at h
    obtain ⟨⟨hl, hstate⟩, h⟩ := h
    obtain ⟨g, hg, rfl⟩ := Option.map_eq_some_iff.mp h
    exact ⟨hl, hstate, g, hg, rfl⟩
  | prompted =>
    obtain ⟨pcc, hpcc, h⟩ := hconn h
    obtain ⟨g, hg, rfl⟩ := Option.map_eq_some_iff.mp h
    exact ⟨pcc, g, hpcc, hg, rfl⟩
  | served env bufin =>
    obtain ⟨pcc, hpcc, h⟩ := hconn h
    obtain ⟨up, hup, h⟩ := Option.bind_eq_some_iff.mp h
    obtain ⟨g, hg, rfl⟩ := Option.map_eq_some_iff.mp h
    exact ⟨pcc, up, g, hpcc, hup, hg, rfl⟩
  | dropped =>
    obtain ⟨pcc, hpcc, h⟩ := hconn h
    obtain ⟨g, hg, rfl⟩ := Option.map_eq_some_iff.mp h
    exact ⟨pcc, g, hpcc, hg, rfl⟩
  | other e =>
    unfold step at h
    cases hl : s.link.conn with
    | some pcc =>
      rw [hl] at h
      dsimp only at h
      split at h
      case isTrue => cases h
      case isFalse hne =>
        obtain ⟨g, hg, rfl⟩ := Option.map_eq_some_iff.mp h
        exact .inl ⟨pcc, g, Link.conn_eq_some_iff.mp hl, hne, hg, rfl⟩
    | none =>
      rw [hl] at h
      obtain ⟨g, hg, rfl⟩ := Option.map_eq_some_iff.mp h
      refine .inr ⟨fun pcc hpcc => ?_, g, hg, rfl⟩
      rw [hpcc] at hl
      cases hl

/-- A move of the collector is one of the collector only. -/
theorem State.moves_sides (s : State P) (c : Traced P) (down : List Bytes) :
    (s.moves c down).collector = c ∧ (s.moves c down).probe = s.probe := by
  unfold State.moves
  dsimp only
  split <;> exact ⟨rfl, rfl⟩

/-- **Either side takes steps of its own model**, one at a time. -/
theorem step_sides {s s' : State P} {e : Event} (h : step S B s e = some s') :
    (s'.probe = s.probe ∧ ∃ e', Collect.step S s.collector e' = some s'.collector) ∨
    (s'.collector = s.collector ∧ ∃ e', Probe.step S B s.probe e' = some s'.probe) := by
  have hspec := step_spec h
  cases e with
  | collector e =>
    obtain ⟨down, c, -, -, hc, rfl⟩ := hspec
    obtain ⟨hcoll, hprobe⟩ := s.moves_sides c down
    exact .inl ⟨hprobe, e, hc.trans (congrArg some hcoll.symm)⟩
  | accepted pcc gethostname =>
    obtain ⟨-, -, g, hg, rfl⟩ := hspec
    exact .inr ⟨rfl, _, hg⟩
  | prompted =>
    obtain ⟨pcc, g, -, hg, rfl⟩ := hspec
    exact .inr ⟨rfl, _, hg⟩
  | served env bufin =>
    obtain ⟨pcc, up, g, -, -, hg, rfl⟩ := hspec
    exact .inr ⟨rfl, _, hg⟩
  | dropped =>
    obtain ⟨pcc, g, -, hg, rfl⟩ := hspec
    exact .inr ⟨rfl, _, hg⟩
  | other e =>
    rcases hspec with ⟨pcc, g, -, -, hg, rfl⟩ | ⟨-, g, hg, rfl⟩
    · exact .inr ⟨rfl, _, hg⟩
    · exact .inr ⟨rfl, _, hg⟩

/-- So what the steps of both sides keep holds along the runs of the two. -/
theorem run_sides {I : Traced P → Prop} {J : Globals → Prop}
    (hI : ∀ c e c', I c → Collect.step S c e = some c' → I c')
    (hJ : ∀ g e g', J g → Probe.step S B g e = some g' → J g') (s : State P) (e : Event)
    (s' : State P) (hs : I s.collector ∧ J s.probe) (h : step S B s e = some s') :
    I s'.collector ∧ J s'.probe := by
  rcases step_sides h with ⟨hprobe, e', he'⟩ | ⟨hcoll, e', he'⟩
  · exact ⟨hI _ _ _ hs.1 he', hprobe ▸ hs.2⟩
  · exact ⟨hcoll ▸ hs.1, hJ _ _ _ hs.2 he'⟩

end Qigong.Together
