import Qigong.Collect.Watchdog
import Mathlib.Data.List.Chain

/-!
# The times of the calls of `init_connect` (qicollect.cpp:239–396)

`poll` calls `init_connect` more than `delay_reconnect` seconds behind `lastattempt`. A call
that fails, and a handshake that is broken off, write the time into `lastattempt`; a call
that succeeds does not. So a session that is lost behind its handshake leaves the time of an
earlier attempt there, and the second that `reconnect_hook` asks for may be long over
(`redialled_at_once`). The calls are spaced as they are meant to be exactly where no
session that talks is lost within a second of the call that opened it (`spaced_iff`).

The runs here are those of `Runs` with the clock in their states: it never goes back, also
between its readings within one `poll`. What carries the proof is that a time which
`lastattempt` misses is more than a second older in it (`Timed.opened`), and that while the
connection is to be made, the last call is either noted there or long enough ago
(`Paced.held`).
-/

namespace Qigong.Collect

open Crypt CollectingConn

variable {P : Platform} {S : Scanners}

/-! ## Runs with a clock -/

/-- The clock while `poll` runs: at its beginning, where the delay is compared, where
`init_connect` is called, and where `failconnect_treat` reads it. -/
structure PollTimes where
  entry : Int
  test : Int
  call : Int
  failed : Int
  entry_le : entry ≤ test
  test_le : test ≤ call
  call_le : call ≤ failed

/-- The clock that stands still. -/
def PollTimes.at (now : Int) : PollTimes where
  entry := now
  test := now
  call := now
  failed := now
  entry_le := Int.le_refl now
  test_le := Int.le_refl now
  call_le := Int.le_refl now

/-- A call of `init_connect`: its time, and the `delay_reconnect` then in force. -/
structure Attempt where
  time : Int
  delay : Int
deriving DecidableEq, Repr

namespace CollectingConn

/-- `poll` in state `needtoconnect` (qicollect.cpp:334–368), and the call that it makes. -/
def dial (t : PollTimes) (env : PollEnv) (c : CollectingConn P) :
    CollectingConn P × List Attempt :=
  if c.delay_reconnect < t.test - c.lastattempt then
    (if 0 ≤ env.newfd then
        { c with fd := env.newfd, crypt := c.crypt.opencrypt env.urandom,
                 mpcs := c.mpcs.mapVals fun _ s => { s with state := .del_remote_for_create },
                 pending := true, state := .challenging }
      else c.failconnect_treat t.failed env.rand (env.newfd ≠ -2),
      [⟨t.call, c.delay_reconnect⟩])
  else (c, [])

/-- `CollectingConn::poll` (qicollect.cpp:265–372), and the call that it makes. -/
def pollAt (t : PollTimes) (env : PollEnv) (c : CollectingConn P) :
    CollectingConn P × List Attempt :=
  let w := (c.wake { env with now := t.entry }).1
  match w.state with
  | .ready => (w.pollReady.1, [])
  | .needtoconnect => w.dial t env
  | .challenging | .welcome | .verify | .waiting | .timeout => (w, [])

/-- Where the clock stands still it is `poll`. -/
theorem pollAt_at (env : PollEnv) (c : CollectingConn P) :
    (c.pollAt (.at env.now) env).1 = (c.poll env).1 := by
  rw [poll_eq]
  unfold pollAt pollState
  dsimp only [PollTimes.at]
  cases (c.wake env).1.state with
  | needtoconnect =>
    unfold dial pollConnect
    dsimp only
    split
    · split <;> rfl
    · rfl
  | ready | challenging | welcome | verify | waiting | timeout => rfl

end CollectingConn

/-- What happens to the connection, and when. -/
inductive TimedEvent where
  | poll (t : PollTimes) (env : PollEnv)
  | reconnect_hook (now : Int) (rand : Nat)
  | line (now : Int) (env : LineEnv) (bytes : Bytes)

/-- A connection, the clock, and the calls of `init_connect` so far, the last one first. -/
structure Clocked (P : Platform) where
  conn : CollectingConn P
  clock : Int
  attempts : List Attempt

/-- One event, `none` when it does not return or the clock would go back. -/
def timedStep (S : Scanners) (w : Clocked P) : TimedEvent → Option (Clocked P)
  | .poll t env =>
    if w.clock ≤ t.entry then
      some ⟨(w.conn.pollAt t env).1, t.failed, (w.conn.pollAt t env).2 ++ w.attempts⟩
    else none
  | .reconnect_hook now rand =>
    if w.clock ≤ now then some ⟨w.conn.reconnect_hook now rand, now, w.attempts⟩ else none
  | .line now env bytes =>
    if w.clock ≤ now then
      (step S ⟨w.conn, []⟩ (.line now env bytes)).map fun u => ⟨u.conn, now, w.attempts⟩
    else none

/-- A connection as constructed, with the sets assigned to it. -/
def timedStart (now : Int) (crypt : CryptConnection P) (sets : List CollectionSet) : Clocked P :=
  ⟨(start now crypt sets).conn, now, []⟩

/-- Each call is more than the delay then in force behind the call before it. -/
def Spaced (attempts : List Attempt) : Prop :=
  attempts.IsChain fun b a => b.delay < b.time - a.time

/-- A session that talks is lost more than a second behind the call that opened it, which is
not noted in `lastattempt`. -/
def Lasting (w : Clocked P) : TimedEvent → Prop
  | .reconnect_hook now _ => w.conn.state.talking = true →
      ∀ a ∈ w.attempts.head?, w.conn.lastattempt < a.time → 1 < now - a.time
  | .poll _ _ | .line _ _ _ => True

instance (w : Clocked P) : (e : TimedEvent) → Decidable (Lasting w e)
  | .reconnect_hook now _ => inferInstanceAs (Decidable (w.conn.state.talking = true →
      ∀ a ∈ w.attempts.head?, w.conn.lastattempt < a.time → 1 < now - a.time))
  | .poll _ _ | .line _ _ _ => inferInstanceAs (Decidable True)

/-! ## What keeps the delay and the last attempt -/

/-- What is received or sent keeps the delay and the last attempt, does not give the
connection up, and makes it collect only as of now. -/
structure Heard (now : Int) (c c' : CollectingConn P) : Prop where
  delay_reconnect : c'.delay_reconnect = c.delay_reconnect
  lastattempt : c'.lastattempt = c.lastattempt
  state : c'.state = .needtoconnect → c.state = .needtoconnect ∧ c'.is_collecting = c.is_collecting
  lastlineread : c'.is_collecting = true →
    (c.is_collecting = true ∧ c'.lastlineread = c.lastlineread) ∨ c'.lastlineread = now

theorem Heard.refl (now : Int) (c : CollectingConn P) : Heard now c c :=
  ⟨rfl, rfl, fun h => ⟨h, rfl⟩, fun h => .inl ⟨h, rfl⟩⟩

theorem Heard.trans {now : Int} {c d e : CollectingConn P} (h : Heard now c d)
    (h' : Heard now d e) : Heard now c e where
  delay_reconnect := h'.delay_reconnect.trans h.delay_reconnect
  lastattempt := h'.lastattempt.trans h.lastattempt
  state hs := by
    obtain ⟨hd, hcoll⟩ := h'.state hs
    obtain ⟨hc, hcoll'⟩ := h.state hd
    exact ⟨hc, hcoll.trans hcoll'⟩
  lastlineread hs := by
    rcases h'.lastlineread hs with ⟨hd, hline⟩ | hnow
    · rw [hline]
      exact h.lastlineread hd
    · exact .inr hnow

section Heard

variable {now : Int} {c c' : CollectingConn P}

theorem pollReady_heard (now : Int) (c : CollectingConn P) : Heard now c c.pollReady.1 := by
  unfold pollReady
  split
  · split
    · exact ⟨rfl, rfl, fun h => ⟨h, rfl⟩, fun h => .inl ⟨h, rfl⟩⟩
    · exact ⟨rfl, rfl, fun h => (nomatch h), fun h => .inl ⟨h, rfl⟩⟩
  · exact .refl now c

/-- The `switch` of `lineread`, behind a line that was read now. -/
theorem onLine_heard (hnow : c.lastlineread = now) (bufin : Bytes) :
    Heard now c (c.onLine bufin).1 := by
  rcases onLine_cases bufin c with
    ⟨text, st, n, h, hst⟩ | ⟨hs, h⟩ | ⟨hs, -, mpcs, h, -⟩ | ⟨h, -⟩ <;> rw [h]
  · refine ⟨rfl, rfl, fun h => ?_, fun _ => .inr hnow⟩
    -- the state becomes `welcome`, `verify` or `timeout`: nothing is given up
    rcases hst with ⟨-, rfl | rfl⟩ | ⟨-, rfl | rfl⟩ <;> cases h
  · exact ⟨rfl, rfl, fun h => (nomatch h), fun _ => .inr hnow⟩
  · exact ⟨rfl, rfl, fun h => (nomatch h), fun _ => .inr hnow⟩
  · exact .refl now c

theorem lineread_heard {bufin : Bytes} {effs : List (Effect P)}
    (h : c.lineread S now bufin = .ok (c', effs)) : Heard now c c' := by
  obtain ⟨d, measured, rfl, -, hd⟩ := lineread_eq h
  obtain ⟨hkeep, hline⟩ : Heard now c d ∧ d.lastlineread = now := by
    rcases hd with ⟨-, -, hm⟩ | ⟨-, rfl, -⟩
    · obtain ⟨record, -, rfl, -⟩ := measureLine_eq rfl hm
      exact ⟨⟨rfl, rfl, fun h => ⟨h, rfl⟩, fun _ => .inr rfl⟩, rfl⟩
    · exact ⟨⟨rfl, rfl, fun h => ⟨h, rfl⟩, fun _ => .inr rfl⟩, rfl⟩
  exact hkeep.trans (onLine_heard hline bufin)

/-- The operations that a line is made of. -/
def OfLine (now : Int) : Op P → Prop
  | .lineread t _ => t = now
  | .firstprompt | .beneath _ => True
  | .poll _ | .reconnect_hook _ _ => False

/-- Each operation of a line is heard at the time of the line. -/
theorem apply_heard {op : Op P} {effs : List (Effect P)} (ho : OfLine now op)
    (h : op.apply S c = .ok (c', effs)) : Heard now c c' := by
  cases op with
  -- `poll` and `reconnect_hook` are no operations of a line
  | poll env => exact ho.elim
  | reconnect_hook t rand => exact ho.elim
  | firstprompt =>
    obtain ⟨rfl, -⟩ := Prod.mk.inj (Except.ok.inj h)
    exact ⟨rfl, rfl, fun h => (nomatch h), fun h => .inl ⟨h, rfl⟩⟩
  | lineread t bufin =>
    obtain rfl : t = now := ho
    exact lineread_heard h
  | beneath d =>
    obtain ⟨rfl, -⟩ := Prod.mk.inj (Except.ok.inj h)
    exact ⟨rfl, rfl, fun h => ⟨h, rfl⟩, fun h => .inl ⟨h, rfl⟩⟩

theorem ofLine_ops {env : LineEnv} {bytes : Bytes} {l : List (Op P)}
    (h : ops c (.line now env bytes) = .ok l) : ∀ op ∈ l, OfLine now op := by
  obtain ⟨d, cs, -, rfl⟩ := ops_line h
  intro op hop
  rcases List.mem_cons.mp hop with rfl | hop
  · trivial
  · obtain ⟨call, -, rfl⟩ := List.mem_map.mp hop
    cases call with
    | firstprompt => trivial
    | lineread bufin => rfl

/-- A line, whatever it makes of the handshake. -/
theorem line_heard {env : LineEnv} {bytes : Bytes} {w w' : Traced P}
    (h : step S w (.line now env bytes) = some w') : Heard now w.conn w'.conn := by
  obtain ⟨l, hl, hrun⟩ := step_eq_some_iff.mp h
  refine Lib.Reaches.invariant (P := fun _ op => OfLine now op)
    (I := fun u : Traced P => Heard now w.conn u.conn) ?_ (.refl now w.conn)
    (Lib.stepsMeet_of_mem (fun op hop _ => ofLine_ops hl op hop) w) (.of_run hrun)
  intro u op u' hu ho hop
  obtain ⟨effs, happ, -⟩ := opStep_eq_some_iff.mp hop
  exact hu.trans (apply_heard ho happ)

end Heard

/-! ## What the connection keeps of the calls -/

/-- The bounds of `delay_reconnect`. -/
def InRange (delay : Int) : Prop := 1 ≤ delay ∧ delay ≤ 7207

theorem failconnect_treat_inRange {c : CollectingConn P} (h : InRange c.delay_reconnect)
    (now : Int) (rand : Nat) (straightfail : Bool) :
    InRange (c.failconnect_treat now rand straightfail).delay_reconnect := by
  obtain ⟨hlo, hhi⟩ := h
  -- the largest delay is the one doubled last: 2 * 3599 + 9
  have h5 : rand % 5 < 5 := Nat.mod_lt _ (by decide)
  have h10 : rand % 10 < 10 := Nat.mod_lt _ (by decide)
  have h100 : rand % 100 < 100 := Nat.mod_lt _ (by decide)
  unfold failconnect_treat InRange
  dsimp only
  cases straightfail with
  | true =>
    rw [if_pos rfl]
    split_ifs <;> omega
  | false =>
    rw [if_neg Bool.false_ne_true]
    split_ifs <;> omega

/-- What holds along every run. The last call is noted in `lastattempt`, or was made more than
a second behind what is noted there. -/
structure Timed (w : Clocked P) : Prop where
  delay : InRange w.conn.delay_reconnect
  delays : ∀ a ∈ w.attempts, InRange a.delay
  clock : ∀ a ∈ w.attempts.head?, a.time ≤ w.clock
  opened : ∀ a ∈ w.attempts.head?,
    a.time ≤ w.conn.lastattempt ∨ w.conn.lastattempt + 1 < a.time
  collecting : w.conn.is_collecting = true →
    w.conn.state ≠ .needtoconnect ∧ ∀ a ∈ w.attempts.head?, a.time ≤ w.conn.lastlineread

/-- The calls were spaced, and while the connection is to be made the next one will be. -/
structure Paced (w : Clocked P) : Prop where
  spaced : Spaced w.attempts
  held : w.conn.state = .needtoconnect → ∀ a ∈ w.attempts.head?,
    a.time ≤ w.conn.lastattempt ∨ (w.conn.delay_reconnect = 1 ∧ 1 < w.clock - a.time)

section step

variable {w : Clocked P} {now : Int}

/-- Lines that are heard leave the calls and what is noted of them. -/
theorem Timed.heard {c' : CollectingConn P} (h : Timed w) (hnow : w.clock ≤ now)
    (hc : Heard now w.conn c') : Timed ⟨c', now, w.attempts⟩ where
  delay := hc.delay_reconnect ▸ h.delay
  delays := h.delays
  clock a ha := Int.le_trans (h.clock a ha) hnow
  opened := hc.lastattempt ▸ h.opened
  collecting hcoll := by
    refine ⟨fun hs => ?_, fun a ha => ?_⟩
    · obtain ⟨hs', hcoll'⟩ := hc.state hs
      exact (h.collecting (hcoll'.symm.trans hcoll)).1 hs'
    · rcases hc.lastlineread hcoll with ⟨hcoll', hline⟩ | hline
      · exact Int.le_trans ((h.collecting hcoll').2 a ha) (Int.le_of_eq hline.symm)
      · exact Int.le_trans (h.clock a ha) (Int.le_trans hnow (Int.le_of_eq hline.symm))

theorem Paced.heard {c' : CollectingConn P} (h : Paced w) (hnow : w.clock ≤ now)
    (hc : Heard now w.conn c') : Paced ⟨c', now, w.attempts⟩ where
  spaced := h.spaced
  held hs a ha := by
    dsimp only at hs ha ⊢
    rw [hc.lastattempt, hc.delay_reconnect]
    rcases h.held (hc.state hs).1 a ha with hnoted | ⟨hdelay, hlong⟩
    · exact .inl hnoted
    · exact .inr ⟨hdelay, by omega⟩

/-- What `reconnect_hook` does to the delay and the last attempt. -/
theorem reconnect_hook_cases (now : Int) (rand : Nat) (c : CollectingConn P) :
    (c.state = .challenging ∧ (c.reconnect_hook now rand).lastattempt = now ∧
      (c.reconnect_hook now rand).delay_reconnect
        = (c.failconnect_treat now rand false).delay_reconnect) ∨
    (c.state ≠ .challenging ∧ (c.reconnect_hook now rand).lastattempt = c.lastattempt ∧
      (c.reconnect_hook now rand).delay_reconnect = 1) := by
  unfold reconnect_hook
  dsimp only
  split
  case isTrue hs => exact .inl ⟨hs, rfl, rfl⟩
  case isFalse hs => exact .inr ⟨hs, rfl, rfl⟩

theorem Timed.hook (h : Timed w) (hnow : w.clock ≤ now) (rand : Nat) :
    Timed ⟨w.conn.reconnect_hook now rand, now, w.attempts⟩ := by
  rcases reconnect_hook_cases now rand w.conn with ⟨-, hlast, hdelay⟩ | ⟨-, hlast, hdelay⟩
  · refine ⟨?_, h.delays, fun a ha => Int.le_trans (h.clock a ha) hnow, fun a ha => .inl ?_,
      fun hcoll => absurd hcoll Bool.false_ne_true⟩
    · exact hdelay ▸ failconnect_treat_inRange h.delay now rand false
    · exact Int.le_trans (h.clock a ha) (Int.le_trans hnow (Int.le_of_eq hlast.symm))
  · refine ⟨?_, h.delays, fun a ha => Int.le_trans (h.clock a ha) hnow, fun a ha => ?_,
      fun hcoll => absurd hcoll Bool.false_ne_true⟩
    · exact hdelay ▸ ⟨Int.le_refl 1, by decide⟩
    · exact hlast ▸ h.opened a ha

/-- Only a session that talks may be lost too early. -/
theorem Paced.hook (ht : Timed w) (h : Paced w) (hnow : w.clock ≤ now) (rand : Nat)
    (hlast : Lasting w (.reconnect_hook now rand)) :
    Paced ⟨w.conn.reconnect_hook now rand, now, w.attempts⟩ := by
  refine ⟨h.spaced, fun _ a ha => ?_⟩
  rcases reconnect_hook_cases now rand w.conn with ⟨-, hnoted, -⟩ | ⟨hs, hsame, hdelay⟩
  · -- a handshake that is broken off is noted
    exact .inl (Int.le_trans (ht.clock a ha) (Int.le_trans hnow (Int.le_of_eq hnoted.symm)))
  · dsimp only
    rw [hsame, hdelay]
    rcases Int.lt_or_le w.conn.lastattempt a.time with hmissed | hnoted
    · refine .inr ⟨rfl, ?_⟩
      cases htalk : w.conn.state.talking with
      | true => exact hlast htalk a ha hmissed
      | false =>
        -- what is neither in its handshake nor talking is given up already
        have hneed : w.conn.state = .needtoconnect := by
          cases hst : w.conn.state with
          | needtoconnect => rfl
          | challenging => exact absurd hst hs
          | welcome | verify | ready | waiting | timeout => rw [hst] at htalk; cases htalk
        rcases h.held hneed a ha with hnoted | ⟨-, hlong⟩ <;> omega
    · exact .inl hnoted

/-- The watchdog reconnects a session that was silent for 45 s, and so is no young one. -/
theorem Timed.wake (h : Timed w) (env : PollEnv) (hnow : w.clock ≤ env.now) :
    Timed ⟨(w.conn.wake env).1, env.now, w.attempts⟩ ∧
      (Paced w → Paced ⟨(w.conn.wake env).1, env.now, w.attempts⟩) := by
  rcases wake_cases env w.conn with ⟨-, hw⟩ | ⟨hs, -, hw⟩ | ⟨hs, -, hw⟩ <;> rw [hw]
  · exact ⟨h.heard hnow (.refl _ _), fun hp => hp.heard hnow (.refl _ _)⟩
  · have hc : Heard env.now w.conn ({ w.conn with
        lastlineread := env.now, nbwakeattempt := w.conn.nbwakeattempt + 1 }.flushText
          (str "qiging" ++ eosAddress)).1 :=
      ⟨rfl, rfl, fun h => ⟨h, rfl⟩, fun _ => .inr rfl⟩
    exact ⟨h.heard hnow hc, fun hp => hp.heard hnow hc⟩
  · have hc : Heard env.now w.conn { w.conn with lastlineread := env.now } :=
      ⟨rfl, rfl, fun h => ⟨h, rfl⟩, fun _ => .inr rfl⟩
    have ht := h.heard hnow hc
    refine ⟨ht.hook (Int.le_refl env.now) env.rand, fun hp => ?_⟩
    refine Paced.hook ht (hp.heard hnow hc) (Int.le_refl env.now) env.rand fun _ a ha _ => ?_
    -- the call lies before the line that was read last, and that one 45 s back
    have hline := (h.collecting hs.2.1).2 a ha
    have hsilent := hs.2.2
    omega

/-- **What a connection that is to be made can do**: wait; be connected, which keeps the delay
and the last attempt; or fail, which sets both. -/
theorem dial_cases (t : PollTimes) (env : PollEnv) (c : CollectingConn P) :
    c.dial t env = (c, []) ∨
    (c.delay_reconnect < t.test - c.lastattempt ∧ ∃ d,
      c.dial t env = (d, [⟨t.call, c.delay_reconnect⟩]) ∧ d.is_collecting = c.is_collecting ∧
      ((d.state = .challenging ∧ d.lastattempt = c.lastattempt ∧
          d.delay_reconnect = c.delay_reconnect) ∨
        (d.lastattempt = t.failed ∧ ∃ straightfail, d.delay_reconnect
          = (c.failconnect_treat t.failed env.rand straightfail).delay_reconnect))) := by
  unfold CollectingConn.dial
  split
  case isFalse => exact .inl rfl
  case isTrue hdue =>
    refine .inr ⟨hdue, _, rfl, ?_, ?_⟩
    · split <;> rfl
    · split
      · exact .inl ⟨rfl, rfl, rfl⟩
      · exact .inr ⟨rfl, _, rfl⟩

theorem Timed.dial (h : Timed w) {t : PollTimes} (hnow : w.clock ≤ t.test) (env : PollEnv)
    (hs : w.conn.state = .needtoconnect) :
    Timed ⟨(w.conn.dial t env).1, t.failed, (w.conn.dial t env).2 ++ w.attempts⟩ := by
  have htest := t.test_le
  have hcall := t.call_le
  have hlo := h.delay.1
  rcases dial_cases t env w.conn with hd | ⟨hdue, d, hd, hcoll, hout⟩ <;> rw [hd]
  · exact h.heard (by omega) (.refl _ _)
  · -- a connection that is to be made collects nothing
    have hidle : ¬ d.is_collecting = true := fun hc => (h.collecting (hcoll.symm.trans hc)).1 hs
    refine ⟨?_, fun a ha => ?_, ?_, ?_, fun hc => absurd hc hidle⟩
    · rcases hout with ⟨-, -, hdelay⟩ | ⟨-, straightfail, hdelay⟩
      · exact hdelay ▸ h.delay
      · exact hdelay ▸ failconnect_treat_inRange h.delay _ _ _
    · rcases List.mem_cons.mp ha with rfl | ha
      · exact h.delay
      · exact h.delays a ha
    · rintro a ⟨⟩
      exact hcall
    · -- a call that succeeds leaves what the delay was counted from
      rintro a ⟨⟩
      dsimp only
      rcases hout with ⟨-, hlast, -⟩ | ⟨hlast, -⟩ <;> omega

theorem Paced.dial (h : Paced w) {t : PollTimes} (hnow : w.clock ≤ t.test) (env : PollEnv)
    (hs : w.conn.state = .needtoconnect) :
    Paced ⟨(w.conn.dial t env).1, t.failed, (w.conn.dial t env).2 ++ w.attempts⟩ := by
  have htest := t.test_le
  have hcall := t.call_le
  rcases dial_cases t env w.conn with hd | ⟨hdue, d, hd, -, hout⟩ <;> rw [hd]
  · exact h.heard (by omega) (.refl _ _)
  · refine ⟨List.isChain_cons.mpr ⟨fun a ha => ?_, h.spaced⟩, fun hs' => ?_⟩
    · dsimp only
      rcases h.held hs a ha with hnoted | ⟨hdelay, hlong⟩ <;> omega
    · rintro a ⟨⟩
      dsimp only at hs' ⊢
      rcases hout with ⟨hst, -⟩ | ⟨hlast, -⟩
      · rw [hst] at hs'
        cases hs'
      · exact .inl (hlast ▸ hcall)

/-- **What a poll keeps.** -/
theorem Timed.poll (h : Timed w) {t : PollTimes} (hnow : w.clock ≤ t.entry) (env : PollEnv) :
    Timed ⟨(w.conn.pollAt t env).1, t.failed, (w.conn.pollAt t env).2 ++ w.attempts⟩ ∧
      (Paced w →
        Paced ⟨(w.conn.pollAt t env).1, t.failed, (w.conn.pollAt t env).2 ++ w.attempts⟩) := by
  have hentry := t.entry_le
  have hfailed : t.entry ≤ t.failed := Int.le_trans hentry (Int.le_trans t.test_le t.call_le)
  obtain ⟨hw, hp⟩ := h.wake { env with now := t.entry } hnow
  unfold pollAt
  dsimp only
  generalize (w.conn.wake { env with now := t.entry }).1 = d at hw hp
  cases hs : d.state with
  | ready =>
    have hc := pollReady_heard t.failed d
    exact ⟨hw.heard hfailed hc, fun h => (hp h).heard hfailed hc⟩
  | needtoconnect => exact ⟨hw.dial hentry env hs, fun h => (hp h).dial hentry env hs⟩
  | challenging | welcome | verify | waiting | timeout =>
    exact ⟨hw.heard hfailed (.refl _ _), fun h => (hp h).heard hfailed (.refl _ _)⟩

/-- **Step lemma** for every run, and for those whose sessions last. -/
theorem timedStep_kept {w' : Clocked P} {e : TimedEvent} (h : Timed w)
    (he : timedStep S w e = some w') : Timed w' ∧ (Paced w → Lasting w e → Paced w') := by
  cases e with
  | poll t env =>
    obtain ⟨hnow, hw⟩ := Option.ite_none_right_eq_some.mp he
    obtain rfl := Option.some.inj hw
    obtain ⟨ht, hp⟩ := h.poll hnow env
    exact ⟨ht, fun hpaced _ => hp hpaced⟩
  | reconnect_hook now rand =>
    obtain ⟨hnow, hw⟩ := Option.ite_none_right_eq_some.mp he
    obtain rfl := Option.some.inj hw
    exact ⟨h.hook hnow rand, fun hpaced hlast => hpaced.hook h hnow rand hlast⟩
  | line now env bytes =>
    obtain ⟨hnow, hw⟩ := Option.ite_none_right_eq_some.mp he
    obtain ⟨u, hu, rfl⟩ := Option.map_eq_some_iff.mp hw
    have hc := line_heard hu
    exact ⟨h.heard hnow hc, fun hpaced _ => hpaced.heard hnow hc⟩

/-- A connection that is to be made and whose delay is over is dialled. -/
theorem pollAt_due {c : CollectingConn P} (hs : c.state = .needtoconnect)
    (hidle : c.is_collecting = false) (hdue : c.delay_reconnect < now - c.lastattempt)
    (env : PollEnv) : (c.pollAt (.at now) env).2 = [⟨now, c.delay_reconnect⟩] := by
  have hquiet : ¬ c.Silent { env with now := now } := by
    rintro ⟨-, hcoll, -⟩
    rw [hidle] at hcoll
    cases hcoll
  have hwake : c.wake { env with now := now } = (c, []) := if_neg hquiet
  unfold pollAt
  dsimp only [PollTimes.at]
  rw [hwake, hs]
  dsimp only
  rw [CollectingConn.dial, if_pos hdue]

/-- A session that talks and is lost too early is opened again at once. -/
theorem redials (h : Timed w) {rand : Nat} {w' : Clocked P}
    (he : timedStep S w (.reconnect_hook now rand) = some w')
    (hearly : ¬ Lasting w (.reconnect_hook now rand)) (env : PollEnv) :
    ∃ u, timedStep S w' (.poll (.at now) env) = some u ∧ ¬ Spaced u.attempts := by
  obtain ⟨hnow, hw⟩ := Option.ite_none_right_eq_some.mp he
  obtain rfl := Option.some.inj hw
  obtain ⟨htalk, a, ha, hmissed, hshort⟩ : w.conn.state.talking = true ∧
      ∃ a ∈ w.attempts.head?, w.conn.lastattempt < a.time ∧ ¬ 1 < now - a.time := by
    simpa only [Lasting, not_forall, exists_prop] using hearly
  have hs : w.conn.state ≠ .challenging := by
    intro hs
    rw [hs] at htalk
    cases htalk
  obtain ⟨hsame, hdelay⟩ : (w.conn.reconnect_hook now rand).lastattempt = w.conn.lastattempt ∧
      (w.conn.reconnect_hook now rand).delay_reconnect = 1 :=
    (reconnect_hook_cases now rand w.conn).elim (fun h => absurd h.1 hs) fun h => h.2
  have hdue : (w.conn.reconnect_hook now rand).delay_reconnect
      < now - (w.conn.reconnect_hook now rand).lastattempt := by
    have hclock := h.clock a ha
    have hopened := h.opened a ha
    omega
  have hcall := pollAt_due rfl rfl hdue env
  refine ⟨_, if_pos (Int.le_refl now), fun hspaced => hshort ?_⟩
  dsimp only at hspaced
  rw [hcall, hdelay] at hspaced
  exact (List.isChain_cons.mp hspaced).1 a ha

end step

/-! ## Whole runs -/

theorem timedStart_kept (t₀ : Int) (crypt : CryptConnection P) (sets : List CollectionSet) :
    Timed (timedStart t₀ crypt sets) ∧ Paced (timedStart t₀ crypt sets) := by
  obtain ⟨m, p, hconn⟩ := foldl_assign sets (construct t₀ crypt)
  have hstart : (timedStart t₀ crypt sets).conn
      = { construct t₀ crypt with mpcs := m, pending := p } := hconn
  refine ⟨⟨?_, fun a ha => (nomatch ha), fun a ha => (nomatch ha), fun a ha => (nomatch ha),
    fun hcoll => ?_⟩, .nil, fun _ a ha => (nomatch ha)⟩
  · rw [hstart]
    show InRange 1
    exact ⟨Int.le_refl 1, by decide⟩
  · rw [hstart] at hcoll
    cases hcoll

/-- **Run lemma**: the calls of a run whose sessions last are spaced, up to its next poll. -/
theorem spaced_of_lasting {t₀ : Int} {crypt : CryptConnection P} {sets : List CollectionSet}
    {es : List TimedEvent} {u : Clocked P}
    (hlast : Lib.StepsMeet (timedStep S) Lasting (timedStart t₀ crypt sets) es)
    (hu : Lib.Reaches (timedStep S) (timedStart t₀ crypt sets) es u) : Timed u ∧ Paced u := by
  refine Lib.Reaches.invariant (I := fun u => Timed u ∧ Paced u) ?_
    (timedStart_kept t₀ crypt sets) hlast hu
  rintro w e w' ⟨ht, hp⟩ he hstep
  obtain ⟨ht', hp'⟩ := timedStep_kept ht hstep
  exact ⟨ht', hp' hp he⟩

/-- **When reconnections are rate limited**: in every run the delay is between 1 and 7207 s,
at each call of `init_connect` too; and the calls are each more than the delay then in force
behind the one before, up to a poll that may come next, exactly where no session that talks
is lost within a second of the call that opened it. -/
theorem spaced_iff (S : Scanners) (t₀ : Int) (crypt : CryptConnection P)
    (sets : List CollectionSet) (es : List TimedEvent) {w : Clocked P}
    (h : Lib.run (timedStep S) (timedStart t₀ crypt sets) es = some w) :
    (∀ u, Lib.Reaches (timedStep S) (timedStart t₀ crypt sets) es u →
      InRange u.conn.delay_reconnect ∧ ∀ a ∈ u.attempts, InRange a.delay) ∧
    ((∀ u, Lib.Reaches (timedStep S) (timedStart t₀ crypt sets) es u →
        Spaced u.attempts ∧
        ∀ t env u', timedStep S u (.poll t env) = some u' → Spaced u'.attempts) ↔
      Lib.StepsMeet (timedStep S) Lasting (timedStart t₀ crypt sets) es) := by
  have htimed : ∀ (u : Clocked P) e u', Timed u → timedStep S u e = some u' → Timed u' :=
    fun u e u' hu hstep => (timedStep_kept hu hstep).1
  have hstart := timedStart_kept t₀ crypt sets
  refine ⟨fun u hu => ?_, fun hspaced => ?_, fun hlast u hu => ?_⟩
  · have ht : Timed u := Lib.Reaches.invariant (P := fun _ _ => True)
      (fun u e u' hu _ hstep => htimed u e u' hu hstep) hstart.1
      (Lib.stepsMeet_of_forall (fun _ _ => trivial) es _) hu
    exact ⟨ht.delay, ht.delays⟩
  · refine Lib.stepsMeet_of_reaches htimed (fun u e u' hu hstep hnext => ?_) hstart.1 h hspaced
    by_contra hearly
    cases e with
    | poll t env => exact hearly trivial
    | line now env bytes => exact hearly trivial
    | reconnect_hook now rand =>
      obtain ⟨v, hv, hclose⟩ := redials hu hstep hearly ⟨now, -1, none, 0⟩
      exact hclose (hnext.2 _ _ v hv)
  · obtain ⟨ht, hp⟩ := spaced_of_lasting hlast hu
    exact ⟨hp.spaced, fun t env u' hstep => ((timedStep_kept ht hstep).2 hp trivial).spaced⟩

/-! ## A session that is lost in its first second -/

/-- The connection is made at 1000 and the handshake goes through. The session is lost at a
later time, and polled then. -/
def lostAt (now : Int) : List TimedEvent :=
  .poll (.at 1000) ⟨1000, 3, some [1, 2, 3, 4], 0⟩ ::
    ([[9, 10, 11, 12], bytesFrom 13 12, bytesFrom 64 64, bytesFrom 0 64].map fun text =>
      .line 1000 (fairEnv [5, 6, 7, 8] (bytesFrom 0 64)) (base64_encode text)) ++
    [.reconnect_hook now 0, .poll (.at now) ⟨now, 3, some [1, 2, 3, 4], 0⟩]

/-- Lost two seconds behind the call, it is opened again no earlier than it should. -/
theorem spaced_iff_lostAt :
    ∃ w, Lib.run (timedStep sampleScanners) (timedStart 1000 plainSupplicant []) (lostAt 1002)
        = some w ∧ w.attempts = [⟨1002, 1⟩, ⟨1000, 1⟩] ∧ Spaced w.attempts := by
  obtain ⟨w, hrun, hatt⟩ := Option.map_eq_some_iff.mp (show
    (Lib.run (timedStep sampleScanners) (timedStart 1000 plainSupplicant []) (lostAt 1002)).map
      Clocked.attempts = some [⟨1002, 1⟩, ⟨1000, 1⟩] by decide +kernel)
  have hlast : Lib.StepsMeet (timedStep sampleScanners) Lasting
      (timedStart 1000 plainSupplicant []) (lostAt 1002) := by
    decide +kernel
  exact ⟨w, hrun, hatt, ((spaced_iff sampleScanners 1000 plainSupplicant [] (lostAt 1002)
    hrun).2.mpr hlast w (.of_run hrun)).1⟩

/-- **A session that is lost at once is opened again at once.** -/
theorem redialled_at_once :
    ¬ ∀ (P : Platform) (S : Scanners) (key : Option QiCrKey) (crypt : CryptConnection P) (t₀ : Int)
      (sets : List CollectionSet) (es : List TimedEvent) (w : Clocked P),
      CryptConnection.withKey P key = .ok crypt →
      Lib.run (timedStep S) (timedStart t₀ crypt sets) es = some w → Spaced w.attempts := by
  intro hall
  obtain ⟨w, hrun, hatt⟩ := Option.map_eq_some_iff.mp (show
    (Lib.run (timedStep sampleScanners) (timedStart 1000 plainSupplicant []) (lostAt 1000)).map
      Clocked.attempts = some [⟨1000, 1⟩, ⟨1000, 1⟩] by decide +kernel)
  have hcrypt : CryptConnection.withKey plainPlatform (some sampleKey) = .ok plainSupplicant := rfl
  have hspaced := hall _ _ _ _ 1000 [] (lostAt 1000) w hcrypt hrun
  rw [hatt] at hspaced
  revert hspaced
  unfold Spaced
  decide

end Qigong.Collect
