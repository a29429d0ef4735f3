import Qigong.Lib.Lists
import Qigong.Together.Collected
import Qigong.Together.Samples

/-!
# What is recorded is what was measured

The collector makes its updates of the lines it is given, and a line of the session is a
line its connection is told. So every update of an rrd comes from a record that a qigong
has made of one of its sets, and no record is used twice, over all the sessions of a run
(`recorded_as_measured`).
-/

namespace Qigong.Together

open Crypt Probe Probe.Globals
open List (SublistForall₂)
open Collect (CollectingConn Effect Traced Op opStep MpCS SameNames Keeps)
open Collect.CollectingConn (isMeasure rrdName parseMeasure correct)

variable {P : Platform} {S : Scanners} {B : Build} {blank ident : UInt8 → Bool}

/-! ## The collector's log -/

/-- The lines received, and when. -/
def heard (log : List (Effect P)) : List (Bytes × Int) :=
  log.filterMap fun
    | .received bufin now _ => some (bufin, now)
    | _ => none

/-- The updates of rrds: the rrd, the stamp and the data. -/
def recordings (log : List (Effect P)) : List (Bytes × Int × Bytes) :=
  log.filterMap fun
    | .rrd_update rrd_name trecord data => some (rrd_name, trecord, data)
    | _ => none

theorem heard_append (log effs : List (Effect P)) : heard (log ++ effs) = heard log ++ heard effs :=
  List.filterMap_append ..

theorem recordings_append (log effs : List (Effect P)) :
    recordings (log ++ effs) = recordings log ++ recordings effs := List.filterMap_append ..

/-- In silence nothing is heard. -/
theorem heard_silent {effs : List (Effect P)} (h : Collect.Silent effs) : heard effs = [] := by
  refine List.filterMap_eq_nil_iff.mpr fun x hx => ?_
  cases x with
  | received b n c => exact absurd rfl ((h _ hx).1 b n c)
  | flushed | command | session | rrd_update => rfl

/-- Nor is anything recorded. -/
theorem recordings_silent {effs : List (Effect P)} (h : Collect.Silent effs) : recordings effs = [] := by
  refine List.filterMap_eq_nil_iff.mpr fun x hx => ?_
  cases x with
  | rrd_update n t d => exact absurd rfl ((h _ hx).2 n t d)
  | flushed | command | session | received => rfl

/-- The measure lines received, and when. -/
def measuresHeard (log : List (Effect P)) : List (Bytes × Int) := (heard log).filter fun x => isMeasure x.1

/-- The update is made of the line, read at the time. -/
def MadeOf (S : Scanners) (mpcs : MpCS) (u : Bytes × Int × Bytes) (x : Bytes × Int) : Prop :=
  ∃ p, parseMeasure S mpcs x.2 x.1 = (u.1, u.2.1, p) ∧ substr x.1 (addSize p 1) = .ok u.2.2

/-- **The updates are made of lines received**, each of one, and in their order. -/
structure Recording (S : Scanners) (mpcs : MpCS) (w : Traced P) : Prop where
  names : SameNames mpcs w.conn.mpcs
  made : SublistForall₂ (MadeOf S mpcs) (recordings w.log) (measuresHeard w.log)

theorem Recording.keeps {mpcs : MpCS} {w w' : Traced P} {effs : List (Effect P)}
    (hw : Recording S mpcs w) (h : Keeps w.conn w'.conn effs) (hlog : w'.log = w.log ++ effs) :
    Recording S mpcs w' where
  names n := (h.names n).trans (hw.names n)
  made := by
    rw [hlog, recordings_append, measuresHeard, heard_append, recordings_silent h.silent,
      heard_silent h.silent, List.append_nil, List.append_nil]
    exact hw.made

/-- What a line adds: itself to the lines received, and an update that is made of it, if
any. -/
theorem lineread_adds {c c' : CollectingConn P} {now : Int} {l : Bytes} {effs : List (Effect P)}
    (h : c.lineread S now l = .ok (c', effs)) :
    SameNames c.mpcs c'.mpcs ∧ heard effs = [(l, now)] ∧
      SublistForall₂ (MadeOf S c.mpcs) (recordings effs) (measuresHeard effs) := by
  obtain ⟨d, measured, rfl, rfl, hd⟩ := Collect.lineread_eq h
  have hkeeps := Collect.onLine_keeps l d
  have hheard : heard measured = [] → heard (.received l now c.is_collecting ::
      (measured ++ (d.onLine l).2)) = [(l, now)] := by
    intro hnone
    show (l, now) :: heard (measured ++ (d.onLine l).2) = [(l, now)]
    rw [heard_append, hnone, heard_silent hkeeps.silent]
    rfl
  have hrecordings : recordings (.received l now c.is_collecting :: (measured ++ (d.onLine l).2))
      = recordings measured := by
    show recordings (measured ++ (d.onLine l).2) = _
    rw [recordings_append, recordings_silent hkeeps.silent, List.append_nil]
  rw [hrecordings]
  rcases hd with ⟨-, hmeasure, hm⟩ | ⟨-, rfl, rfl⟩
  · unfold CollectingConn.measureLine at hm
    dsimp only at hm
    obtain ⟨record, -, hm⟩ := bind_eq_ok.mp hm
    cases record with
    | false =>
      obtain ⟨rfl, rfl⟩ := Prod.mk.inj (Except.ok.inj hm)
      exact ⟨hkeeps.names, hheard rfl, .nil⟩
    | true =>
      obtain ⟨data, hdata, heq⟩ := map_eq_ok.mp hm
      obtain ⟨rfl, rfl⟩ := Prod.mk.inj heq
      refine ⟨hkeeps.names, hheard rfl, ?_⟩
      have hone : [(l, now)].filter (fun x => isMeasure x.1) = [(l, now)] := by simp [hmeasure]
      rw [measuresHeard, hheard rfl, hone]
      exact .cons ⟨_, rfl, hdata⟩ .nil
  · exact ⟨hkeeps.names, hheard rfl, .nil⟩

/-- What is recorded of a line depends on the sets by their rrds only. -/
theorem MadeOf.of_names {mpcs mpcs' : MpCS} (h : SameNames mpcs mpcs') {u : Bytes × Int × Bytes}
    {x : Bytes × Int} (hu : MadeOf S mpcs' u x) : MadeOf S mpcs u x := by
  obtain ⟨p, hparse, hdata⟩ := hu
  exact ⟨p, (h.parse S x.2 x.1).symm.trans hparse, hdata⟩

/-- **Step lemma**: every operation keeps the updates drawn from the lines. -/
theorem opStep_recording {mpcs : MpCS} (w : Traced P) (op : Op P) (w' : Traced P)
    (hw : Recording S mpcs w) (h : opStep S w op = some w') : Recording S mpcs w' := by
  obtain ⟨effs, happ, hlog⟩ := Collect.opStep_eq_some_iff.mp h
  cases op with
  | poll env =>
    obtain ⟨hc, rfl⟩ := Prod.mk.inj (Except.ok.inj happ)
    exact hw.keeps (hc ▸ Collect.poll_keeps env w.conn) hlog
  | reconnect_hook now rand =>
    obtain ⟨hc, rfl⟩ := Prod.mk.inj (Except.ok.inj happ)
    exact hw.keeps (hc ▸ Collect.reconnect_hook_keeps now rand w.conn) hlog
  | firstprompt =>
    obtain ⟨hc, rfl⟩ := Prod.mk.inj (Except.ok.inj happ)
    exact hw.keeps (hc ▸ .of_flush rfl rfl) hlog
  | beneath d =>
    obtain ⟨hc, rfl⟩ := Prod.mk.inj (Except.ok.inj happ)
    exact hw.keeps (hc ▸ .of_eq rfl rfl) hlog
  | lineread now l =>
    obtain ⟨hnames, -, hmade⟩ := lineread_adds happ
    refine ⟨fun n => (hnames n).trans (hw.names n), ?_⟩
    rw [hlog, recordings_append, measuresHeard, heard_append, List.filter_append]
    exact Lib.drawn_append hw.made
      (Lib.drawn_imp hmade fun u x _ hu => MadeOf.of_names hw.names hu)

theorem step_recording {mpcs : MpCS} (w : Traced P) (e : Collect.Event) (w' : Traced P)
    (hw : Recording S mpcs w) (h : Collect.step S w e = some w') : Recording S mpcs w' := by
  obtain ⟨l, -, hrun⟩ := Collect.step_eq_some_iff.mp h
  exact Lib.run_invariant opStep_recording hw hrun

/-- The lines of calls are the lines received. -/
theorem calls_heard {now : Int} {cs : List Call} {w w' : Traced P}
    (h : Lib.run (opStep S) w (cs.map (Collect.callOp now)) = some w') :
    (heard w'.log).map Prod.fst = (heard w.log).map Prod.fst ++ linesOf cs := by
  induction cs generalizing w with
  | nil =>
    obtain rfl := Option.some.inj h
    exact (List.append_nil _).symm
  | cons call cs ih =>
    rw [List.map_cons, Lib.run_cons] at h
    obtain ⟨u, hu, hrest⟩ := Option.bind_eq_some_iff.mp h
    obtain ⟨effs, happ, hlog⟩ := Collect.opStep_eq_some_iff.mp hu
    have hone : (heard effs).map Prod.fst = linesOf [call] := by
      cases call with
      | firstprompt =>
        obtain ⟨-, rfl⟩ := Prod.mk.inj (Except.ok.inj happ)
        rfl
      | lineread l =>
        rw [(lineread_adds happ).2.1]
        rfl
    rw [ih hrest, hlog, heard_append, List.map_append, hone, List.append_assoc]
    exact congrArg _ (List.filterMap_append (l := [call])).symm

/-- **Of an event the collector receives the lines its crypt layer calls it with.** -/
theorem step_heard {w w' : Traced P} {e : Collect.Event} (h : Collect.step S w e = some w') :
    (heard w'.log).map Prod.fst = (heard w.log).map Prod.fst ++ linesOf (calls w.conn e) := by
  obtain ⟨l, hl, hrun⟩ := Collect.step_eq_some_iff.mp h
  cases e with
  | poll env =>
    obtain rfl := Except.ok.inj hl
    obtain rfl := Option.some.inj hrun
    show (heard (w.log ++ (w.conn.poll env).2)).map Prod.fst = _
    rw [heard_append, heard_silent (Collect.poll_keeps env w.conn).silent, List.map_append]
    rfl
  | reconnect_hook now rand =>
    obtain rfl := Except.ok.inj hl
    obtain rfl := Option.some.inj hrun
    show (heard (w.log ++ [])).map Prod.fst = _
    rw [heard_append, List.map_append]
    rfl
  | line now env bytes =>
    obtain ⟨d, cs, hr, rfl⟩ := Collect.ops_line hl
    rw [Lib.run_cons] at hrun
    obtain ⟨u, hu, hrest⟩ := Option.bind_eq_some_iff.mp hrun
    obtain ⟨-, hlog⟩ := Collect.opStep_beneath hu
    rw [calls_heard hrest, hlog, calls_line hr]

/-! ## The lines told -/

/-- What an event is to the qigong. -/
def probeEvent (s : State P) : Event → Option Probe.Event
  | .collector _ => none
  | .accepted pcc gethostname => some (.connected pcc gethostname)
  | .prompted => s.link.conn.map .firstprompt
  | .served env bufin => s.link.conn.map fun pcc => .line pcc env bufin
  | .dropped => s.link.conn.map .destroyed
  | .other e => some e

/-- A step of the two is a step of the qigong, or none. -/
theorem probe_steps {s s' : State P} {e : Event} (h : step S B s e = some s') :
    (probeEvent s e = none ∧ s'.probe = s.probe) ∨
    ∃ e', probeEvent s e = some e' ∧ Probe.step S B s.probe e' = some s'.probe := by
  have hspec := step_spec h
  have hconn : ∀ {pcc : ConnId} (f : ConnId → Probe.Event), s.link = .linked pcc →
      s.link.conn.map f = some (f pcc) := fun f hl => by rw [hl]; rfl
  cases e with
  | collector e =>
    obtain ⟨down, c, -, -, -, rfl⟩ := hspec
    exact .inl ⟨rfl, (s.moves_sides c down).2⟩
  | accepted pcc gethostname =>
    obtain ⟨-, -, g, hg, rfl⟩ := hspec
    exact .inr ⟨_, rfl, hg⟩
  | prompted =>
    obtain ⟨pcc, g, hl, hg, rfl⟩ := hspec
    exact .inr ⟨_, hconn .firstprompt hl, hg⟩
  | served env bufin =>
    obtain ⟨pcc, up, g, hl, -, hg, rfl⟩ := hspec
    exact .inr ⟨_, hconn (fun pcc => .line pcc env bufin) hl, hg⟩
  | dropped =>
    obtain ⟨pcc, g, hl, hg, rfl⟩ := hspec
    exact .inr ⟨_, hconn .destroyed hl, hg⟩
  | other e =>
    rcases hspec with ⟨pcc, g, -, -, hg, rfl⟩ | ⟨-, g, hg, rfl⟩
    · exact .inr ⟨_, rfl, hg⟩
    · exact .inr ⟨_, rfl, hg⟩

/-- The lines the connection of the session is told in a step. -/
def toldIn (x : State P × Event × State P) : List Bytes :=
  x.2.2.link.conn.elim [] fun pcc => told pcc x.1.probe x.2.2.probe

/-- The lines received and the lines in flight to the collector. -/
def arrived (s : State P) : List Bytes := (heard s.collector.log).map Prod.fst ++ s.down

/-- **No line arrives that was not told**, empty lines apart. -/
theorem step_arrived {p : Bytes → Bool} (hp : p [] = false) {s s' : State P} {e : Event}
    (h : step S B s e = some s') :
    ((arrived s').filter p).Sublist ((arrived s ++ toldIn (s, e, s')).filter p) := by
  have hspec := step_spec h
  have hsame : ∀ {s' : State P}, arrived s' = arrived s →
      ((arrived s').filter p).Sublist ((arrived s ++ toldIn (s, e, s')).filter p) := fun heq => by
    rw [heq, List.filter_append]
    exact List.sublist_append_left _ _
  have htells : ∀ {s' : State P} {pcc : ConnId}, s'.link = .linked pcc →
      s'.collector = s.collector → s'.down = s.down ++ told pcc s.probe s'.probe →
      ((arrived s').filter p).Sublist ((arrived s ++ toldIn (s, e, s')).filter p) := by
    intro s' pcc hl hcoll hdown
    have heq : arrived s' = arrived s ++ toldIn (s, e, s') := by
      rw [arrived, arrived, hcoll, hdown, toldIn, hl, List.append_assoc]
      rfl
    rw [heq]
  cases e with
  | collector e =>
    obtain ⟨down, c, -, hread, hc, rfl⟩ := hspec
    have hheard := step_heard hc
    have hfilter := readFrom_filter hp hread
    obtain ⟨hcoll, -⟩ := s.moves_sides c down
    have hdown : ((s.moves c down).down.filter p).Sublist (down.filter p) := by
      unfold State.moves
      dsimp only
      split
      · exact List.nil_sublist _
      · exact List.Sublist.refl _
    rw [arrived, arrived, hcoll, hheard, List.append_assoc, List.append_assoc, List.filter_append,
      List.filter_append, List.filter_append, List.filter_append, hfilter, List.append_assoc]
    refine ((List.Sublist.refl _).append ((List.Sublist.refl _).append ?_))
    exact hdown.trans (List.sublist_append_left _ _)
  | accepted pcc gethostname =>
    obtain ⟨-, -, g, -, rfl⟩ := hspec
    exact hsame rfl
  | prompted =>
    obtain ⟨pcc, g, hl, -, rfl⟩ := hspec
    exact htells hl rfl rfl
  | served env bufin =>
    obtain ⟨pcc, up, g, hl, -, -, rfl⟩ := hspec
    exact htells hl rfl rfl
  | dropped =>
    obtain ⟨pcc, g, -, -, rfl⟩ := hspec
    exact hsame rfl
  | other e =>
    rcases hspec with ⟨pcc, g, hl, -, -, rfl⟩ | ⟨-, g, -, rfl⟩
    · exact htells hl rfl rfl
    · exact hsame rfl

/-! ## From the measure to the rrd -/

/-- The clock is one, and no record is longer than a string can be. -/
structure Feasible (env : Env) (g : Globals) : Prop where
  clock : 0 ≤ env.now ∧ env.now < 2 ^ 63
  size : ∀ prs rs n, g.recordsets.find? prs = some rs →
    (measureText rs.name env.now ((List.range rs.lmp.length).map (env.measured n))).length < 2 ^ 64

/-- What the qigong is given in an event is what it can be given. -/
def Natural (s : State P) (e : Event) : Prop :=
  ∀ e', probeEvent s e = some e' → Unbroken e' ∧ MeasuredIn e' ∧
    ∀ env, envOf e' = some env → Feasible env s.probe

/-- The measure lines the session is told, each with the step it is told in. -/
def measuresIn (xs : List (State P × Event × State P)) : List ((State P × Event × State P) × Bytes) :=
  xs.flatMap fun x => ((toldIn x).filter isMeasure).map (Prod.mk x)

/-- The measures told in a run, without the events they are told in. -/
theorem map_measuresIn (xs : List (State P × Event × State P)) :
    (measuresIn xs).map Prod.snd = (xs.flatMap toldIn).filter isMeasure := by
  rw [measuresIn, List.map_flatMap, List.filter_flatMap]
  simp only [List.map_map, Function.comp_def, List.map_id']

/-- The line is the record made in a step of a set that the session's connection is a
channel of, and the update is its name's, with its time, or the collector's where that is
30 s behind, and its values. -/
def RecordOf (s : State P) (u : Bytes × Int × Bytes) (x : (State P × Event × State P) × Bytes) : Prop :=
  ∃ env pcc prs rs n now, (probeEvent x.1.1 x.1.2.1).bind envOf = some env ∧
    x.1.2.2.link = .linked pcc ∧ x.1.1.probe.recordsets.find? prs = some rs ∧
    rs.channels.contains pcc = true ∧
    x.2 = measureText rs.name env.now ((List.range rs.lmp.length).map (env.measured n)) ∧
    (x.2, now) ∈ heard s.collector.log ∧
    u = (rrdName s.collector.conn.mpcs rs.name, correct env.now now,
      List.intercalate (str ":") ((List.range rs.lmp.length).map (env.measured n)))

/-- **What a measure line is read as**, whatever the time. -/
theorem parseMeasure_at (hS : S.Documented blank ident) (hD : S.ReadsDigits blank) {n : Bytes}
    (hn : Identifier blank ident n) (mpcs : MpCS) {stamp : Int} (hstamp : 0 ≤ stamp ∧ stamp < 2 ^ 63)
    {vs : List Bytes} (hvs : vs ≠ []) (hsize : (measureText n stamp vs).length < 2 ^ 64) (now : Int) :
    ∃ p, parseMeasure S mpcs now (measureText n stamp vs) = (rrdName mpcs n, correct stamp now, p) ∧
      substr (measureText n stamp vs) (addSize p 1) = .ok (List.intercalate (str ":") vs) := by
  obtain ⟨k, rfl⟩ := Int.eq_ofNat_of_zero_le hstamp.1
  have hk : k < 2 ^ 63 := by omega
  -- read at the end of time the stamp is taken as it stands
  have hend : (k : Int) ≤ 2 ^ 64 + 10 := by omega
  obtain ⟨p, hparse, hdata⟩ := parseMeasure_measureText hS hD hn mpcs hvs hk hend hsize
  refine ⟨p, ?_, hdata⟩
  unfold parseMeasure at hparse ⊢
  obtain ⟨hname, hrest⟩ := Prod.mk.inj hparse
  obtain ⟨ht, hp⟩ := Prod.mk.inj hrest
  have hstamp' : (S.getinteger (measureText n k vs)
      (addSize (S.getidentifier (measureText n k vs) 3).2 1)).1 = (k : Int) := by
    unfold correct at ht
    split at ht
    · omega
    · exact ht
  dsimp only at hname hp ⊢
  rw [hname, hp, hstamp']

/-- What the steps of the qigong keep. -/
def Sampling (blank ident : UInt8 → Bool) (g : Globals) : Prop :=
  Serving blank ident g ∧ Legible g

/-- What the sampling rests on is kept. -/
theorem step_sampling (hS : S.Documented blank ident) (hB : Printable B.mmpcreators) {g g' : Globals}
    {e : Probe.Event} (hg : Sampling blank ident g) (he : Unbroken e)
    (h : Probe.step S B g e = some g') : Sampling blank ident g' :=
  ⟨step_serving hS g e g' hg.1 h, step_legible hS hB hg.1.1 hg.2 he h⟩

/-- **Step lemma**: a measure line the session is told in a step is a record. -/
theorem toldIn_sampled (hS : S.Documented blank ident) (hB : Printable B.mmpcreators)
    (hgreet : Greeting B.version) {x : State P × Event × State P}
    (hg : Sampling blank ident x.1.probe) (hx : Natural x.1 x.2.1)
    (h : step S B x.1 x.2.1 = some x.2.2) {l : Bytes} (hl : l ∈ (toldIn x).filter isMeasure) :
    ∃ env pcc, (probeEvent x.1 x.2.1).bind envOf = some env ∧ x.2.2.link = .linked pcc ∧
      Feasible env x.1.probe ∧ Sampled pcc env x.1.probe l := by
  unfold toldIn at hl
  cases hconn : x.2.2.link.conn with
  | none =>
    rw [hconn] at hl
    cases hl
  | some pcc =>
    rw [hconn, Option.elim_some] at hl
    rcases probe_steps h with ⟨-, heq⟩ | ⟨e', he', hprobe⟩
    · have hnone : told pcc x.1.probe x.2.2.probe = [] := by
        rw [heq, told, flushedTo, List.drop_length]
        rfl
      rw [hnone] at hl
      cases hl
    · obtain ⟨hun, hmeasured, hfeasible⟩ := hx e' he'
      obtain ⟨env, henv, hsampled⟩ :=
        step_sampled hS hB hgreet hg.1.1 hg.2 hun hmeasured hprobe pcc l hl
      refine ⟨env, pcc, ?_, Link.conn_eq_some_iff.mp hconn, hfeasible env henv, hsampled⟩
      rw [he']
      exact henv

/-- An update that is made of a record has its name, its time and its values. -/
theorem MadeOf.eq (hS : S.Documented blank ident) (hD : S.ReadsDigits blank) {mpcs : MpCS} {n : Bytes}
    (hn : Identifier blank ident n) {stamp now : Int} (hstamp : 0 ≤ stamp ∧ stamp < 2 ^ 63)
    {vs : List Bytes} (hvs : vs ≠ []) (hsize : (measureText n stamp vs).length < 2 ^ 64)
    {u : Bytes × Int × Bytes} (h : MadeOf S mpcs u (measureText n stamp vs, now)) :
    u = (rrdName mpcs n, correct stamp now, List.intercalate (str ":") vs) := by
  obtain ⟨p, hparse, hdata⟩ := h
  obtain ⟨p', hparse', hdata'⟩ := parseMeasure_at hS hD hn mpcs hstamp hvs hsize now
  obtain ⟨hname, hrest⟩ := Prod.mk.inj (hparse.symm.trans hparse')
  obtain ⟨htime, rfl⟩ := Prod.mk.inj hrest
  have hvalues := Except.ok.inj (hdata.symm.trans hdata')
  rw [← hname, ← htime, ← hvalues]

/-- **Every update is a measure.** In every run of a collector and a qigong, with whatever
other connections and in any interleaving, in which no measured value holds a line end: the
updates of rrds that the collector makes, over all its sessions, are drawn from the records
that the qigong makes of its sets in steps of the run and tells the session of then, in
their order, each at most once; and an update is of the rrd of the set that is measured, and
has all the values of its record. -/
theorem recorded_as_measured (hS : S.Documented blank ident) (hD : S.ReadsDigits blank)
    (hB : Printable B.mmpcreators) (hgreet : Greeting B.version) {c : CollectingConn P}
    {g₀ : Globals} {boots : List Probe.Event} (hg₀ : Lib.run (Probe.step S B) boot boots = some g₀)
    (hboots : ∀ e ∈ boots, Unbroken e) {es : List Event} {s : State P}
    (h : Lib.run (step S B) (begin ⟨c, []⟩ g₀) es = some s)
    (hes : Lib.StepsMeet (step S B) Natural (begin ⟨c, []⟩ g₀) es) :
    SublistForall₂ (RecordOf s) (recordings s.collector.log)
      (measuresIn (Lib.steps (step S B) (begin ⟨c, []⟩ g₀) es)) := by
  have hg : Sampling blank ident g₀ :=
    Lib.Reaches.invariant (P := fun _ e => Unbroken e) (I := Sampling blank ident)
      (fun g e g' hI he hs => step_sampling hS hB hI he hs)
      ⟨⟨⟨linked_boot, hushed_boot⟩, named_boot⟩, legible_boot⟩
      (Lib.stepsMeet_of_mem (fun e he _ => hboots e he) boot) (.of_run hg₀)
  have hsampling : ∀ (hist : List (State P × Event × State P)) (s : State P) (e : Event)
      (s' : State P), Sampling blank ident s.probe → Natural s e → step S B s e = some s' →
        Sampling blank ident s'.probe := by
    intro hist s e s' hI he hs
    rcases probe_steps hs with ⟨-, heq⟩ | ⟨e', he', hprobe⟩
    · rwa [heq]
    · exact step_sampling hS hB hI (he e' he').1 hprobe
  -- the lines received are lines told
  have harrived : ((arrived s).filter isMeasure).Sublist
      (((Lib.steps (step S B) (begin ⟨c, []⟩ g₀) es).flatMap toldIn).filter isMeasure) := by
    refine Lib.run_history (P := Natural)
      (I := fun hist s => ((arrived s).filter isMeasure).Sublist ((hist.flatMap toldIn).filter isMeasure))
      (fun hist s e s' hI _ hs => ?_) (List.Sublist.refl _) hes h
    refine (step_arrived rfl hs).trans ?_
    rw [List.filter_append, List.flatMap_append, List.filter_append, List.flatMap_singleton]
    exact hI.append (List.Sublist.refl _)
  have hheard : ((measuresHeard s.collector.log).map Prod.fst).Sublist
      ((measuresIn (Lib.steps (step S B) (begin ⟨c, []⟩ g₀) es)).map Prod.snd) := by
    rw [map_measuresIn]
    refine List.Sublist.trans ?_ harrived
    rw [arrived, List.filter_append, List.filter_map]
    exact List.sublist_append_left _ _
  -- the updates are made of lines received
  have hrecording : Recording S c.mpcs s.collector := by
    have hrun := Lib.run_invariant (I := fun s : State P => Recording S c.mpcs s.collector ∧ True)
      (run_sides (fun w e w' hw hs => step_recording w e w' hw hs) (fun _ _ _ _ _ => trivial))
      ⟨⟨fun _ => rfl, .nil⟩, trivial⟩ h
    exact hrun.1
  have hdrawn : SublistForall₂
      (fun u l => ∃ now, (l, now) ∈ heard s.collector.log ∧ MadeOf S c.mpcs u (l, now))
      (recordings s.collector.log) ((measuresHeard s.collector.log).map Prod.fst) := by
    rw [List.sublistForall₂_map_right_iff]
    exact Lib.drawn_imp hrecording.made fun u x hx hu => ⟨x.2, (List.mem_filter.mp hx).1, hu⟩
  have hall := Lib.drawn_of_sublist hdrawn hheard
  rw [List.sublistForall₂_map_right_iff] at hall
  refine Lib.drawn_imp hall fun u x hx hu => ?_
  obtain ⟨now, hnow, hmade⟩ := hu
  obtain ⟨y, hy, hx⟩ := List.mem_flatMap.mp hx
  obtain ⟨l, hl, rfl⟩ := List.mem_map.mp hx
  obtain ⟨pre, post, hsplit⟩ := List.append_of_mem hy
  obtain ⟨hI, hnatural, hs⟩ := @Lib.steps_history _ _ _ Natural
    (fun _ s => Sampling blank ident s.probe) hsampling es [] pre post _ y hg hes hsplit
  obtain ⟨env, pcc, henv, hlink, hfeasible, prs, rs, n, hr, hc, rfl⟩ :=
    toldIn_sampled hS hB hgreet hI hnatural hs hl
  obtain ⟨hid, hlmp⟩ := hI.1.2 prs rs hr
  have hvs : (List.range rs.lmp.length).map (env.measured n) ≠ [] := by
    rw [Ne, List.map_eq_nil_iff, List.range_eq_nil, List.length_eq_zero_iff]
    exact hlmp
  refine ⟨env, pcc, prs, rs, n, now, henv, hlink, hr, hc, rfl, hnow, ?_⟩
  rw [hrecording.names rs.name]
  exact hmade.eq hS hD hid hfeasible.clock hvs (hfeasible.size prs rs n hr)

/-! ## A measure to compute with -/

/-- The clock behind the first interval. -/
def lateEnv : Env := ⟨1011, fun _ _ => str "0.5"⟩

/-- The set that is set up is measured, and the collector hears of it. -/
def sampleCollection : List Event :=
  sampleRun ++ [.other (.select_poll lateEnv), hears ["", "-->h_c 1011:0.5:0.5"], polls]

/-- The lines served in events. -/
def servedLines (es : List Event) : List Bytes :=
  es.filterMap fun
    | .served _ bufin => some bufin
    | _ => none

/-- The sample environments, for sets that are small. -/
theorem feasible_sample {env : Env} (henv : env = sampleEnv ∨ env = lateEnv) {g : Globals}
    (hg : ∀ x ∈ g.recordsets.entries, x.2.name.length < 100 ∧ x.2.lmp.length < 100) :
    Feasible env g := by
  have hnow : (0 ≤ env.now ∧ env.now < 2 ^ 63) ∧ (decimal env.now).length = 4 := by
    rcases henv with rfl | rfl <;> exact ⟨by decide, by decide⟩
  have hvalue : ∀ n i, (env.measured n i).length = 3 := by
    intro n i
    rcases henv with rfl | rfl <;> rfl
  refine ⟨hnow.1, fun prs rs n hr => ?_⟩
  obtain ⟨hname, hlmp⟩ : rs.name.length < 100 ∧ rs.lmp.length < 100 :=
    hg _ (Lib.OrdMap.find?_eq_some_iff.mp hr)
  have hvalues : (((List.range rs.lmp.length).map (env.measured n)).flatMap
      fun v => str ":" ++ v).length = 4 * rs.lmp.length := by
    rw [List.flatMap_map, List.length_flatMap]
    have hfour : ∀ i, (str ":" ++ env.measured n i).length = 4 := by
      intro i
      rw [List.length_append, hvalue]
      rfl
    simp only [hfour, List.map_const', List.length_range, List.sum_replicate_nat, Nat.mul_comm]
  rw [measureText, List.length_append, hvalues]
  simp only [List.length_append, hnow.2]
  show 3 + rs.name.length + 1 + 4 + 4 * rs.lmp.length < 2 ^ 64
  omega

/-- The sample run makes the one update. -/
theorem recorded_as_measured_loads :
    ∃ s, Lib.run (step sampleScanners sampleBuild)
        (begin (Collect.start 1000 Collect.plainSupplicant [Conf.loadsSet.collecting]) boot)
        sampleCollection = some s ∧
      recordings s.collector.log = [(str "h_c", 1011, str "0.5:0.5")] ∧
      SublistForall₂ (RecordOf s) (recordings s.collector.log)
        (measuresIn (Lib.steps (step sampleScanners sampleBuild)
          (begin (Collect.start 1000 Collect.plainSupplicant [Conf.loadsSet.collecting]) boot)
          sampleCollection)) := by
  have hany : (Lib.run (step sampleScanners sampleBuild)
      (begin (Collect.start 1000 Collect.plainSupplicant [Conf.loadsSet.collecting]) boot)
      sampleCollection).any (fun s =>
        decide (recordings s.collector.log = [(str "h_c", 1011, str "0.5:0.5")])) = true := by
    decide +kernel
  obtain ⟨s, h, hs⟩ := (Option.any_eq_true _ _).mp hany
  have hsmall : Lib.StepsMeet (step sampleScanners sampleBuild)
      (fun s _ => ∀ x ∈ s.probe.recordsets.entries, x.2.name.length < 100 ∧ x.2.lmp.length < 100)
      (begin (Collect.start 1000 Collect.plainSupplicant [Conf.loadsSet.collecting]) boot)
      sampleCollection := by
    decide +kernel
  have hlines : ∀ l ∈ servedLines sampleCollection, NoEol l := by decide +kernel
  have hes : Lib.StepsMeet (step sampleScanners sampleBuild) Natural
      (begin (Collect.start 1000 Collect.plainSupplicant [Conf.loadsSet.collecting]) boot)
      sampleCollection := by
    refine Lib.StepsMeet.imp (I := fun _ => True) (P := fun e => e ∈ sampleCollection)
      (fun _ _ _ _ _ _ => trivial) (fun s e _ he hsmall e' he' => ?_) (fun e he => he) trivial hsmall
    have hall : ∀ e ∈ sampleCollection, (∀ env l, e = .served env l → env = sampleEnv) ∧
        ∀ e', e = .other e' → e' = .select_poll lateEnv := by
      simp [sampleCollection, sampleRun, sampleHandshake, hears, serves, polls]
    have hquiet : ∀ e', envOf e' = none → Unbroken e' → Unbroken e' ∧ MeasuredIn e' ∧
        ∀ env, envOf e' = some env → Feasible env s.probe := by
      intro e' hnone hun
      refine ⟨hun, fun env henv => ?_, fun env henv => ?_⟩ <;> rw [hnone] at henv <;> cases henv
    have hloud : ∀ e' env, envOf e' = some env → env = sampleEnv ∨ env = lateEnv → Unbroken e' →
        Unbroken e' ∧ MeasuredIn e' ∧ ∀ env, envOf e' = some env → Feasible env s.probe := by
      intro e' env henv hsample hun
      refine ⟨hun, fun env' henv' => ?_, fun env' henv' => ?_⟩ <;>
        obtain rfl := Option.some.inj (henv.symm.trans henv')
      · rcases hsample with rfl | rfl <;> exact measured_sample
      · exact feasible_sample hsample hsmall
    obtain ⟨hserved, hother⟩ := hall e he
    cases e with
    | collector e => cases he'
    | accepted pcc gethostname =>
      obtain rfl := Option.some.inj he'
      exact hquiet _ rfl trivial
    | prompted =>
      obtain ⟨pcc, -, rfl⟩ := Option.map_eq_some_iff.mp he'
      exact hquiet _ rfl trivial
    | served env l =>
      obtain ⟨pcc, -, rfl⟩ := Option.map_eq_some_iff.mp he'
      have hline : NoEol l := hlines l (List.mem_filterMap.mpr ⟨_, he, rfl⟩)
      exact hloud _ env rfl (.inl (hserved env l rfl)) hline
    | dropped =>
      obtain ⟨pcc, -, rfl⟩ := Option.map_eq_some_iff.mp he'
      exact hquiet _ rfl trivial
    | other e =>
      obtain rfl := Option.some.inj he'
      obtain rfl := hother e rfl
      exact hloud _ lateEnv rfl (.inr rfl) trivial
  have hboot : Lib.run (Probe.step sampleScanners sampleBuild) boot [] = some boot := rfl
  exact ⟨s, h, of_decide_eq_true hs, recorded_as_measured sampleScanners_documented
    sampleScanners_readsDigits printable_sample ⟨by decide, 81, rfl, by decide⟩ hboot
    (fun e he => absurd he List.not_mem_nil) h hes⟩

end Qigong.Together
