import Qigong.Collect.CollectingConn

/-!
# Runs of a `CollectingConn`

A run is made of what happens to the connection (`Event`): it is polled, reconnected,
or receives a line. What a line does to the crypt layer and then calls on the
application is taken apart into the application's own operations (`Op`, `ops`), so that
a property of runs is proved one operation at a time, and holds of whatever sequence of
operations is allowed (`Allowed`, `allowed_ops`).

The two layers' states are tied by `Gated`: the application is past its `challenging`
only where the handshake is `Accepted`. It follows that nothing the application flushes
leaves in clear (`nothing_before_authentication`).
-/

namespace Qigong.Collect

open Crypt CollectingConn
open Crypt.ChallengeState

variable {P : Platform}

/-! ## Operations and events -/

/-- The operations of the application, and what the crypt layer beneath it does between
them. -/
inductive Op (P : Platform) where
  | poll (env : PollEnv)
  | reconnect_hook (now : Int) (rand : Nat)
  | firstprompt
  | lineread (now : Int) (bufin : Bytes)
  | beneath (crypt : CryptConnection P)

/-- What an operation does to the connection, and outside it. -/
def Op.apply (S : Scanners) (c : CollectingConn P) :
    Op P → Except Exn (CollectingConn P × List (Effect P))
  | .poll env => .ok (c.poll env)
  | .reconnect_hook now rand => .ok (c.reconnect_hook now rand, [])
  | .firstprompt => .ok c.firstprompt
  | .lineread now bufin => c.lineread S now bufin
  | .beneath crypt => .ok ({ c with crypt := crypt }, [])

/-- What happens to the connection. The clock is read once. -/
inductive Event where
  | poll (env : PollEnv)
  | reconnect_hook (now : Int) (rand : Nat)
  | line (now : Int) (env : LineEnv) (bytes : Bytes)

/-- A call of `prelineread` on the application. -/
def callOp (now : Int) : Call → Op P
  | .firstprompt => .firstprompt
  | .lineread bufin => .lineread now bufin

/-- An event as operations. -/
def ops (c : CollectingConn P) : Event → Except Exn (List (Op P))
  | .poll env => .ok [.poll env]
  | .reconnect_hook now rand => .ok [.reconnect_hook now rand]
  | .line now env bytes =>
    (c.crypt.receive env bytes).map fun r => .beneath r.1 :: r.2.map (callOp now)

/-- A connection and what it has done so far. -/
structure Traced (P : Platform) where
  conn : CollectingConn P
  log : List (Effect P)

/-- One operation, `none` when it does not return. -/
def opStep (S : Scanners) (w : Traced P) (op : Op P) : Option (Traced P) :=
  (op.apply S w.conn).toOption.map fun r => ⟨r.1, w.log ++ r.2⟩

/-- One event. -/
def step (S : Scanners) (w : Traced P) (e : Event) : Option (Traced P) :=
  (ops w.conn e).toOption.bind fun l => Lib.run (opStep S) w l

/-- A connection as constructed, with the sets assigned to it. -/
def start (now : Int) (crypt : CryptConnection P) (sets : List CollectionSet) : Traced P :=
  ⟨sets.foldl CollectingConn.assign (.construct now crypt), []⟩

/-- An operation returns with its effects behind the log. -/
theorem opStep_eq_some_iff {S : Scanners} {w w' : Traced P} {op : Op P} :
    opStep S w op = some w' ↔
      ∃ effs, op.apply S w.conn = .ok (w'.conn, effs) ∧ w'.log = w.log ++ effs := by
  unfold opStep
  cases h : op.apply S w.conn with
  | error x => exact ⟨fun hx => (nomatch hx), fun ⟨_, hx, _⟩ => (nomatch hx)⟩
  | ok r =>
    constructor
    · intro hw
      obtain rfl := Option.some.inj hw
      exact ⟨r.2, rfl, rfl⟩
    · rintro ⟨effs, hr, hlog⟩
      obtain rfl := Except.ok.inj hr
      obtain ⟨conn, log⟩ := w'
      exact congrArg some (congrArg (Traced.mk conn) hlog.symm)

/-- An event returns where its operations do, one after the other. -/
theorem step_eq_some_iff {S : Scanners} {w w' : Traced P} {e : Event} :
    step S w e = some w' ↔ ∃ l, ops w.conn e = .ok l ∧ Lib.run (opStep S) w l = some w' := by
  unfold step
  cases h : ops w.conn e with
  | error x => exact ⟨fun hx => (nomatch hx), fun ⟨_, hx, _⟩ => (nomatch hx)⟩
  | ok l =>
    refine ⟨fun hw => ⟨l, rfl, hw⟩, ?_⟩
    rintro ⟨l', hl, hw⟩
    obtain rfl := Except.ok.inj hl
    exact hw

/-- A line is what it does beneath, and then its calls. -/
theorem ops_line {c : CollectingConn P} {now : Int} {env : LineEnv} {bytes : Bytes}
    {l : List (Op P)} (h : ops c (.line now env bytes) = .ok l) :
    ∃ d cs, c.crypt.receive env bytes = .ok (d, cs) ∧ l = .beneath d :: cs.map (callOp now) := by
  simp only [ops] at h
  cases hr : c.crypt.receive env bytes with
  | error x => rw [hr] at h; cases h
  | ok r =>
    rw [hr] at h
    exact ⟨r.1, r.2, rfl, (Except.ok.inj h).symm⟩

/-- What happens beneath changes the crypt layer's state, and nothing else. -/
theorem opStep_beneath {S : Scanners} {w u : Traced P} {d : CryptConnection P}
    (h : opStep S w (.beneath d) = some u) :
    { w.conn with crypt := d } = u.conn ∧ u.log = w.log := by
  obtain ⟨effs, happ, hlog⟩ := opStep_eq_some_iff.mp h
  obtain ⟨hconn, rfl⟩ := Prod.mk.inj (Except.ok.inj happ)
  exact ⟨hconn, hlog.trans (List.append_nil _)⟩

/-- What a line does to the handshake's state, and what it calls. -/
theorem react_line {c d : CryptConnection P} {env : LineEnv} {bytes : Bytes} {cs : List Call}
    (h : c.receive env bytes = .ok (d, cs)) :
    Moves c.challenging d.challenging ∧ CryptConnection.CallsOf c d cs :=
  CryptConnection.react_step (e := .line env bytes) (fun _ h => (nomatch h)) h

/-! ## What `lineread` does -/

section lineread

variable {S : Scanners} {now : Int} {bufin : Bytes} {c c' : CollectingConn P}
  {effs : List (Effect P)}

/-- A measure line changes the memory of its rrd, and may record. -/
theorem measureLine_eq {rrd_name : Bytes} {trecord : Int} {p : Nat}
    (hm : parseMeasure S c.mpcs now bufin = (rrd_name, trecord, p))
    (h : c.measureLine S now bufin = .ok (c', effs)) :
    ∃ record, mustrecorddata (c.rrdlastupdate.find? rrd_name) trecord = .ok record ∧
      c' = { c with rrdlastupdate := c.rrdlastupdate.insert rrd_name trecord } ∧
      if record then ∃ data, effs = [.rrd_update rrd_name trecord data] else effs = [] := by
  unfold CollectingConn.measureLine at h
  rw [hm] at h
  dsimp only at h
  cases hrec : mustrecorddata (c.rrdlastupdate.find? rrd_name) trecord with
  | error x => rw [hrec] at h; cases h
  | ok record =>
    rw [hrec] at h
    refine ⟨record, rfl, ?_⟩
    cases record with
    | false =>
      obtain ⟨rfl, rfl⟩ := Prod.mk.inj (Except.ok.inj h)
      exact ⟨rfl, rfl⟩
    | true =>
      simp only [Except.bind, if_true] at h
      cases hd : substr bufin (addSize p 1) with
      | error x => rw [hd] at h; cases h
      | ok data =>
        rw [hd] at h
        obtain ⟨rfl, rfl⟩ := Prod.mk.inj (Except.ok.inj h)
        exact ⟨rfl, data, rfl⟩

/-- `lineread` is its measure branch and then its `switch`. -/
theorem lineread_eq (h : c.lineread S now bufin = .ok (c', effs)) :
    ∃ d measured, c' = (d.onLine bufin).1 ∧
      effs = .received bufin now c.is_collecting :: (measured ++ (d.onLine bufin).2) ∧
      ((c.is_collecting = true ∧ isMeasure bufin = true ∧
          { c with lastlineread := now }.measureLine S now bufin = .ok (d, measured)) ∨
        (¬ (c.is_collecting = true ∧ isMeasure bufin = true) ∧
          d = { c with lastlineread := now } ∧ measured = [])) := by
  unfold CollectingConn.lineread at h
  dsimp only at h
  by_cases hm : c.is_collecting = true ∧ isMeasure bufin = true
  · rw [if_pos (by rw [hm.1, hm.2]; rfl)] at h
    cases hr : ({ c with lastlineread := now } : CollectingConn P).measureLine S now bufin with
    | error x => rw [hr] at h; cases h
    | ok r =>
      rw [hr] at h
      obtain ⟨rfl, rfl⟩ := Prod.mk.inj (Except.ok.inj h)
      exact ⟨r.1, r.2, rfl, rfl, .inl ⟨hm.1, hm.2, rfl⟩⟩
  · rw [if_neg (by simpa using hm)] at h
    obtain ⟨rfl, rfl⟩ := Prod.mk.inj (Except.ok.inj h)
    exact ⟨_, [], rfl, rfl, .inr ⟨hm, rfl, rfl⟩⟩

/-- **What the `switch` of `lineread` can do**: ask again, with the prompt or without it;
find the qigong ready; find its command answered; or nothing. -/
theorem onLine_cases (bufin : Bytes) (c : CollectingConn P) :
    (∃ text st n, c.onLine bufin = ({ c with crypt := (c.crypt.write text).flush, state := st,
                                             nbtest := n }, [.flushed (c.crypt.write text)]) ∧
      ((c.state = .welcome ∧ (st = .welcome ∨ st = .verify)) ∨
        (c.state = .verify ∧ (st = .verify ∨ st = .timeout)))) ∨
    (c.state = .verify ∧ c.onLine bufin = ({ c with state := .ready, is_collecting := true }, [])) ∨
    (c.state = .waiting ∧ startsWith c.wait_string bufin = true ∧
      ∃ mpcs, c.onLine bufin
          = ({ c with state := .ready, mpcs := mpcs, waiting_pcs := none }, []) ∧
        ((c.waiting_pcs = none ∧ mpcs = c.mpcs) ∨ ∃ k, c.waiting_pcs = some k ∧
          mpcs = c.mpcs.modify k fun s => { s with state := c.waiting_pcs_nextstate })) ∨
    (c.onLine bufin = (c, []) ∧ c.state ≠ .welcome ∧ c.state ≠ .verify ∧
      (c.state = .waiting → startsWith c.wait_string bufin = false)) := by
  unfold onLine
  -- by the state: only a connection that waits looks at its sets
  cases hs : c.state with
  | welcome =>
    dsimp only
    refine .inl ?_
    split
    · exact ⟨_, .verify, 0, rfl, .inl ⟨rfl, .inr rfl⟩⟩
    · exact ⟨eos, .welcome, c.nbtest, by rw [← hs]; rfl, .inl ⟨rfl, .inl rfl⟩⟩
  | verify =>
    dsimp only
    split
    · exact .inr (.inl ⟨rfl, rfl⟩)
    · refine .inl ⟨str "qiging ?" ++ eos, ?_⟩
      split
      · exact ⟨.timeout, c.nbtest + 1, rfl, .inr ⟨rfl, .inr rfl⟩⟩
      · exact ⟨.verify, c.nbtest + 1, by rw [← hs]; rfl, .inr ⟨rfl, .inl rfl⟩⟩
  | waiting =>
    dsimp only
    split
    case isTrue hline =>
      refine .inr (.inr (.inl ⟨rfl, hline, ?_⟩))
      cases hk : c.waiting_pcs with
      | none =>
        have heq : c.settleWaiting = c := by
          unfold settleWaiting
          rw [hk]
        exact ⟨c.mpcs, by rw [heq, ← hk], .inl ⟨rfl, rfl⟩⟩
      | some k =>
        have heq : c.settleWaiting = { c with
            mpcs := c.mpcs.modify k fun s => { s with state := c.waiting_pcs_nextstate },
            waiting_pcs := none } := by
          unfold settleWaiting
          rw [hk]
        exact ⟨_, by rw [heq], .inr ⟨k, rfl, rfl⟩⟩
    case isFalse hline =>
      exact .inr (.inr (.inr ⟨rfl, by decide, by decide, fun _ => Bool.eq_false_iff.mpr hline⟩))
  | ready | timeout | needtoconnect | challenging =>
    exact .inr (.inr (.inr ⟨rfl, by decide, by decide, fun h => (nomatch h)⟩))

end lineread

/-! ## The two layers' states -/

/-- The states of the application behind the handshake. -/
def ConnStat.talking : ConnStat → Bool
  | .welcome | .verify | .ready | .waiting | .timeout => true
  | .needtoconnect | .challenging => false

/-- The application talks only behind the handshake, collects only where it talks, and
leaves nothing unflushed. -/
structure Gated (c : CollectingConn P) : Prop where
  accepted : c.state.talking = true → c.crypt.challenging = Accepted
  talking : c.is_collecting = true → c.state.talking = true
  out : c.crypt.out = []

/-- The crypt layer calls the application only where it has accepted, and does not go
back on it. -/
def Allowed (c : CollectingConn P) : Op P → Prop
  | .firstprompt | .lineread _ _ => c.crypt.challenging = Accepted
  | .beneath d => (c.crypt.challenging = Accepted → d.challenging = Accepted) ∧
      (c.crypt.out = [] → d.out = [])
  | .poll _ | .reconnect_hook _ _ => True

/-- Every flush of these effects is made behind the handshake. -/
def FlushedAccepted (effs : List (Effect P)) : Prop :=
  ∀ b, .flushed b ∈ effs → b.challenging = Accepted

theorem FlushedAccepted.nil : FlushedAccepted ([] : List (Effect P)) := fun _ h => (nomatch h)

theorem FlushedAccepted.append {e f : List (Effect P)} (he : FlushedAccepted e)
    (hf : FlushedAccepted f) : FlushedAccepted (e ++ f) := fun b h =>
  (List.mem_append.mp h).elim (he b) (hf b)

section Gated

variable {c : CollectingConn P}

/-- A flush of a connection that has accepted. -/
theorem flushText_accepted (ha : c.crypt.challenging = Accepted) (text : Bytes) :
    (c.flushText text).1.crypt.challenging = Accepted ∧ (c.flushText text).1.crypt.out = [] ∧
      FlushedAccepted (c.flushText text).2 := by
  refine ⟨(CryptConnection.flush_challenging _).trans ha, CryptConnection.flush_out _,
    fun b hb => ?_⟩
  obtain rfl : b = c.crypt.write text := by simpa [flushText] using hb
  exact ha

theorem firstprompt_gated (ha : c.crypt.challenging = Accepted) :
    Gated c.firstprompt.1 ∧ FlushedAccepted c.firstprompt.2 := by
  obtain ⟨hacc, hout, hf⟩ := flushText_accepted ha (str "qiging ?" ++ eos)
  exact ⟨⟨fun _ => hacc, fun _ => rfl, hout⟩, hf⟩

theorem onLine_gated (hc : Gated c) (ha : c.crypt.challenging = Accepted) (bufin : Bytes) :
    Gated (c.onLine bufin).1 ∧ (c.onLine bufin).1.crypt.challenging = Accepted ∧
      FlushedAccepted (c.onLine bufin).2 := by
  rcases onLine_cases bufin c with
    ⟨text, st, n, h, hst⟩ | ⟨-, h⟩ | ⟨hs, -, mpcs, h, -⟩ | ⟨h, -⟩ <;> rw [h]
  · obtain ⟨hacc, hout, hf⟩ := flushText_accepted ha text
    have htalk : st.talking = true := by
      rcases hst with ⟨-, rfl | rfl⟩ | ⟨-, rfl | rfl⟩ <;> rfl
    exact ⟨⟨fun _ => hacc, fun _ => htalk, hout⟩, hacc, hf⟩
  · exact ⟨⟨fun _ => ha, fun _ => rfl, hc.out⟩, ha, .nil⟩
  · exact ⟨⟨fun _ => ha, fun _ => rfl, hc.out⟩, ha, .nil⟩
  · exact ⟨hc, ha, .nil⟩

/-- A line received behind the handshake flushes behind it. -/
theorem lineread_gated {S : Scanners} {now : Int} {bufin : Bytes} {c' : CollectingConn P}
    {effs : List (Effect P)} (hc : Gated c) (ha : c.crypt.challenging = Accepted)
    (h : c.lineread S now bufin = .ok (c', effs)) :
    Gated c' ∧ c'.crypt.challenging = Accepted ∧ FlushedAccepted effs := by
  obtain ⟨d, measured, rfl, rfl, hd⟩ := lineread_eq h
  obtain ⟨hg, hd', hm⟩ : Gated d ∧ d.crypt.challenging = Accepted ∧ FlushedAccepted measured := by
    rcases hd with ⟨-, -, hm⟩ | ⟨-, rfl, rfl⟩
    · obtain ⟨record, -, rfl, heff⟩ := measureLine_eq rfl hm
      refine ⟨⟨hc.accepted, hc.talking, hc.out⟩, ha, fun b hb => ?_⟩
      cases record with
      | false => rw [show measured = [] from heff] at hb; cases hb
      | true =>
        obtain ⟨data, rfl⟩ : ∃ data, measured = _ := heff
        simp at hb
    · exact ⟨⟨hc.accepted, hc.talking, hc.out⟩, ha, .nil⟩
  obtain ⟨hg', ha', hf⟩ := onLine_gated hg hd' bufin
  refine ⟨hg', ha', fun b hb => ?_⟩
  rcases List.mem_cons.mp hb with hb | hb
  · cases hb
  · exact hm.append hf b hb

theorem reconnect_hook_gated (hc : Gated c) (now : Int) (rand : Nat) :
    Gated (c.reconnect_hook now rand) := by
  refine ⟨fun h => (nomatch h), fun h => (nomatch h), ?_⟩
  unfold reconnect_hook
  dsimp only
  split <;> exact hc.out

/-- The watchdog flushes behind the handshake only. -/
theorem wake_gated (hc : Gated c) (env : PollEnv) :
    Gated (c.wake env).1 ∧ FlushedAccepted (c.wake env).2 := by
  unfold wake
  split
  case isTrue h =>
    have ha := hc.accepted (hc.talking h.2.1)
    dsimp only
    split
    · obtain ⟨hacc, hout, hf⟩ := flushText_accepted (c := { c with
        lastlineread := env.now, nbwakeattempt := c.nbwakeattempt + 1 }) ha
        (str "qiging" ++ eosAddress)
      exact ⟨⟨fun _ => hacc, hc.talking, hout⟩, hf⟩
    · have hc' : Gated { c with lastlineread := env.now } := ⟨hc.accepted, hc.talking, hc.out⟩
      exact ⟨reconnect_hook_gated hc' _ _, .nil⟩
  case isFalse => exact ⟨hc, .nil⟩

theorem pollReady_gated (hc : Gated c) (hs : c.state = .ready) :
    Gated c.pollReady.1 ∧ FlushedAccepted c.pollReady.2 := by
  have ha : c.crypt.challenging = Accepted := hc.accepted (by rw [hs]; rfl)
  unfold pollReady
  split
  · split
    · exact ⟨⟨hc.accepted, hc.talking, hc.out⟩, .nil⟩
    case _ k s cmd _ =>
      obtain ⟨hacc, hout, hf⟩ := flushText_accepted ha (cmd.text s)
      refine ⟨⟨fun _ => hacc, fun _ => rfl, hout⟩, fun b hb => ?_⟩
      rcases List.mem_cons.mp hb with hb | hb
      · cases hb
      · exact hf b hb
  · exact ⟨hc, .nil⟩

theorem pollConnect_gated (hc : Gated c) (hs : c.state = .needtoconnect) (env : PollEnv) :
    Gated (c.pollConnect env).1 ∧ FlushedAccepted (c.pollConnect env).2 := by
  unfold pollConnect
  split
  · split
    · refine ⟨⟨fun h => (nomatch h), fun h => ?_, CryptConnection.flush_out _⟩, ?_⟩
      · have := hc.talking h
        rw [hs] at this
        cases this
      · intro b hb
        simp at hb
    · exact ⟨⟨hc.accepted, hc.talking, hc.out⟩, .nil⟩
  · exact ⟨hc, .nil⟩

/-- And so does `poll`, whatever the state. -/
theorem poll_gated (hc : Gated c) (env : PollEnv) :
    Gated (c.poll env).1 ∧ FlushedAccepted (c.poll env).2 := by
  obtain ⟨hw, hf⟩ := wake_gated hc env
  unfold poll
  dsimp only
  cases hs : (c.wake env).1.state with
  | ready =>
    obtain ⟨hr, hf'⟩ := pollReady_gated hw hs
    exact ⟨hr, hf.append hf'⟩
  | needtoconnect =>
    obtain ⟨hr, hf'⟩ := pollConnect_gated hw hs env
    exact ⟨hr, hf.append hf'⟩
  | challenging | welcome | verify | waiting | timeout => exact ⟨hw, hf.append .nil⟩

/-- **Step lemma**: an allowed operation keeps the two layers' states together, and
flushes behind the handshake only. -/
theorem apply_gated {S : Scanners} {op : Op P} {c' : CollectingConn P} {effs : List (Effect P)}
    (hc : Gated c) (ha : Allowed c op) (h : op.apply S c = .ok (c', effs)) :
    Gated c' ∧ FlushedAccepted effs := by
  cases op with
  | poll env =>
    obtain ⟨rfl, rfl⟩ := Prod.mk.inj (Except.ok.inj h)
    exact poll_gated hc env
  | reconnect_hook now rand =>
    obtain ⟨rfl, rfl⟩ := Prod.mk.inj (Except.ok.inj h)
    exact ⟨reconnect_hook_gated hc now rand, .nil⟩
  | firstprompt =>
    obtain ⟨rfl, rfl⟩ := Prod.mk.inj (Except.ok.inj h)
    exact firstprompt_gated ha
  | lineread now bufin =>
    obtain ⟨hg, -, hf⟩ := lineread_gated hc ha h
    exact ⟨hg, hf⟩
  | beneath d =>
    obtain ⟨rfl, rfl⟩ := Prod.mk.inj (Except.ok.inj h)
    exact ⟨⟨fun ht => ha.1 (hc.accepted ht), hc.talking, ha.2 hc.out⟩, .nil⟩

/-- The lines of a record are read one after the other where the first may be. -/
theorem allowed_lines {S : Scanners} (now : Int) (lines : List Bytes) (w : Traced P)
    (hg : Gated w.conn) (ha : w.conn.crypt.challenging = Accepted) :
    Lib.StepsMeet (opStep S) (fun w op => Allowed w.conn op) w
      ((lines.map Call.lineread).map (callOp now)) := by
  induction lines generalizing w with
  | nil => trivial
  | cons l ls ih =>
    refine ⟨ha, fun w' h => ?_⟩
    obtain ⟨effs, hl, -⟩ := opStep_eq_some_iff.mp h
    obtain ⟨hg', ha', -⟩ := lineread_gated hg ha hl
    exact ih w' hg' ha'

/-- **The crypt layer calls as it is allowed to**, whatever line it receives. -/
theorem allowed_ops {S : Scanners} {w : Traced P} {e : Event} {l : List (Op P)}
    (hg : Gated w.conn) (h : ops w.conn e = .ok l) :
    Lib.StepsMeet (opStep S) (fun w op => Allowed w.conn op) w l := by
  cases e with
  | poll env =>
    obtain rfl := Except.ok.inj h
    exact ⟨trivial, fun _ _ => trivial⟩
  | reconnect_hook now rand =>
    obtain rfl := Except.ok.inj h
    exact ⟨trivial, fun _ _ => trivial⟩
  | line now env bytes =>
    obtain ⟨d, cs, hr, rfl⟩ := ops_line h
    obtain ⟨hmoves, hcalls⟩ := react_line hr
    have hbeneath : Allowed w.conn (.beneath d) :=
      ⟨hmoves.accepted, CryptConnection.receive_out hr⟩
    refine ⟨hbeneath, fun w' hw' => ?_⟩
    obtain ⟨effs, happ, -⟩ := opStep_eq_some_iff.mp hw'
    have hg' : Gated w'.conn := (apply_gated hg hbeneath happ).1
    obtain ⟨hconn, -⟩ := opStep_beneath hw'
    have hd : w'.conn.crypt = d := by rw [← hconn]
    cases hcalls with
    | silent => trivial
    | accepted _ ha =>
      have ha' : w'.conn.crypt.challenging = Accepted := hd ▸ ha
      exact ⟨ha', fun _ _ => trivial⟩
    | record temp _ ha _ => exact allowed_lines now _ w' hg' (hd ▸ ha)

end Gated

/-! ## Runs -/

/-- What holds along a run: the layers' states agree and every flush so far was made
behind the handshake. -/
def Sound (w : Traced P) : Prop := Gated w.conn ∧ FlushedAccepted w.log

/-- **Step lemma**: an operation that the crypt layer allows keeps the log sound. -/
theorem opStep_sound {S : Scanners} (w : Traced P) (op : Op P) (w' : Traced P) (hw : Sound w)
    (ha : Allowed w.conn op) (h : opStep S w op = some w') : Sound w' := by
  obtain ⟨effs, happ, hlog⟩ := opStep_eq_some_iff.mp h
  obtain ⟨hg, hf⟩ := apply_gated hw.1 ha happ
  exact ⟨hg, by rw [hlog]; exact hw.2.append hf⟩

theorem step_sound {S : Scanners} (w : Traced P) (e : Event) (w' : Traced P) (hw : Sound w)
    (h : step S w e = some w') : Sound w' := by
  obtain ⟨l, hl, hrun⟩ := step_eq_some_iff.mp h
  exact Lib.Reaches.invariant opStep_sound hw (allowed_ops hw.1 hl) (.of_run hrun)

/-- The part of it that does not look at the log. -/
theorem step_gated {S : Scanners} {w w' : Traced P} {e : Event} (hw : Gated w.conn)
    (h : step S w e = some w') : Gated w'.conn := by
  obtain ⟨l, hl, hrun⟩ := step_eq_some_iff.mp h
  refine Lib.Reaches.invariant (I := fun w => Gated w.conn) ?_ hw (allowed_ops hw hl)
    (.of_run hrun)
  intro w op w' hw ha hop
  obtain ⟨effs, happ, -⟩ := opStep_eq_some_iff.mp hop
  exact (apply_gated hw ha happ).1

/-- Sets assigned are kept, and are pending. -/
theorem foldl_assign (sets : List CollectionSet) (c : CollectingConn P) :
    ∃ mpcs pending, sets.foldl assign c = { c with mpcs := mpcs, pending := pending } := by
  induction sets generalizing c with
  | nil => exact ⟨_, _, rfl⟩
  | cons s ss ih =>
    obtain ⟨m, p, h⟩ := ih (c.assign s)
    exact ⟨m, p, h⟩

/-- A connection begins with nothing flushed. -/
theorem start_sound {key : Option QiCrKey} {crypt : CryptConnection P}
    (h : CryptConnection.withKey P key = .ok crypt) (now : Int) (sets : List CollectionSet) :
    Sound (start now crypt sets) := by
  obtain ⟨m, p, hconn⟩ := foldl_assign sets (construct now crypt)
  have hout : crypt.out = [] := CryptConnection.withKey_out h
  refine ⟨?_, .nil⟩
  show Gated (sets.foldl assign (construct now crypt))
  rw [hconn]
  exact ⟨fun h => (nomatch h), fun h => (nomatch h), hout⟩

/-- What a flush puts in `bufout` is encrypted under `tdout`, or is nothing. -/
def Sealed (b : CryptConnection P) : Prop :=
  (∃ td, b.tdout = some td ∧ b.flush.bufout = b.bufout ++
      (CryptConnection.cipherRecord td b.out ++ CryptConnection.recordEnd)) ∨
    (b.tdout = none ∧ b.flush.bufout = b.bufout)

theorem sealed_of_accepted {b : CryptConnection P} (h : b.challenging = Accepted) : Sealed b := by
  cases htd : b.tdout with
  | some td => exact .inl ⟨td, htd, by rw [CryptConnection.flush_cipher htd]⟩
  | none =>
    have hclear : ¬ (b.challenging = WaitingRemoteSalt ∨ b.challenging = WaitingHash) := by
      rw [h]
      decide
    exact .inr ⟨htd, by rw [CryptConnection.flush_dropped htd hclear]⟩

/-- **Nothing before authentication and nothing in clear after it.** In a session of a
crypt connection, whatever happens but `opencrypt`, the handshake's state moves forward
and the application is called as `StepDiscipline` says, `firstprompt` once at most; and
in every run of the application over it, its state is one behind the handshake only
where the handshake is accepted, and all it flushes is encrypted or dropped. -/
theorem nothing_before_authentication :
    (∀ (P : Platform) (c : CryptConnection P) (es : List CryptConnection.Event),
      CryptConnection.NoOpen es →
      (∀ x ∈ Lib.steps CryptConnection.step c es, CryptConnection.StepDiscipline x) ∧
      ∀ c', Lib.run CryptConnection.step c es = some c' →
        c.challenging.Forward c'.challenging ∧
        (CryptConnection.runCalls c es).count .firstprompt
          = if c.challenging ≠ Accepted ∧ c'.challenging = Accepted then 1 else 0) ∧
    (∀ (P : Platform) (S : Scanners) (key : Option QiCrKey) (crypt : CryptConnection P) (now : Int)
      (sets : List CollectionSet) (es : List Event) (w : Traced P),
      CryptConnection.withKey P key = .ok crypt →
      Lib.run (step S) (start now crypt sets) es = some w →
      (w.conn.state.talking = true → w.conn.crypt.challenging = Accepted) ∧
      w.conn.crypt.out = [] ∧ ∀ b, .flushed b ∈ w.log → Sealed b) := by
  refine ⟨fun P c es hopen => ⟨fun x hx => ?_, fun c' h => CryptConnection.run_forward hopen h⟩,
    fun P S key crypt now sets es w hcrypt h => ?_⟩
  · exact CryptConnection.discipline_of_mem_steps hopen hx
  · obtain ⟨hg, hf⟩ := Lib.run_invariant step_sound (start_sound hcrypt now sets) h
    exact ⟨hg.accepted, hg.out, fun b hb => sealed_of_accepted (hf b hb)⟩

/-! ## A session to compute with

The key generation is the sample one; the cipher feeds nothing back, so that what is
encrypted can be read. -/

abbrev plainPlatform : Platform := cfbPlatform (fun _ _ => 0) sampleMhash false false

def plainSupplicant : CryptConnection plainPlatform :=
  { CryptConnection.unkeyed plainPlatform with
    issuplicant := true, qicrkey := some sampleKey, keyID := sampleKey.keyID }

def sampleSet : CollectionSet where
  key := str "web_load"
  fullkey := str "web_load"
  base_interval := 60
  lptagmp := [⟨str "load", []⟩]
  state := .unmatched

/-- A record is received. -/
def hears (text : Bytes) : Event :=
  .line 1000 (fairEnv [5, 6, 7, 8] (bytesFrom 0 64)) (base64_encode text)

/-- The connection is polled, a connection attempt giving the descriptor 3. -/
def polls : Event := .poll ⟨1000, 3, some [1, 2, 3, 4], 0⟩

/-- The handshake, and the greeting of the qigong. -/
def sampleHello : List Event :=
  [polls, hears [9, 10, 11, 12], hears (bytesFrom 13 12), hears (bytesFrom 64 64),
    hears (bytesFrom 0 64), hears (str "qigong[probe] : 0 : " ++ eos), hears (str "qigong." ++ eos)]

/-- The setup of the sample set, each command answered. -/
def sampleSession : List Event :=
  sampleHello ++
    ["delete: 0 deletions performed.", "creation done.", "activate: 1 activation performed.",
      "subscribed to  web_load."].flatMap (fun l => [polls, hears (str l)]) ++ [polls]

/-- The sample session goes through, and what it flushes is sealed. -/
theorem nothing_before_authentication_sample :
    ∃ w, Lib.run (step sampleScanners) (start 1000 plainSupplicant [sampleSet]) sampleSession
        = some w ∧
      w.conn.state.talking = true ∧ w.conn.crypt.challenging = Accepted ∧
      w.conn.crypt.out = [] ∧ ∀ b, .flushed b ∈ w.log → Sealed b := by
  obtain ⟨w, h, htalk⟩ : ∃ w, Lib.run (step sampleScanners)
      (start 1000 plainSupplicant [sampleSet]) sampleSession = some w ∧
      w.conn.state.talking = true := by
    refine (Option.any_eq_true (fun w : Traced plainPlatform => w.conn.state.talking) _).mp ?_
    decide +kernel
  obtain ⟨hacc, hout, hsealed⟩ := nothing_before_authentication.2 plainPlatform sampleScanners
    (some sampleKey) plainSupplicant 1000 [sampleSet] sampleSession w rfl h
  exact ⟨w, h, htalk, hacc htalk, hout, hsealed⟩

end Qigong.Collect
