import Qigong.Collect.Runs

/-!
# The watchdog of a collecting connection (qicollect.cpp:265–277)

`poll` wakes up a qigong from which nothing was read for more than 45 s, four times, and
then reconnects. The wake-ups are counted in `nbwakeattempt`, which only `reconnect_hook`
puts back to 0: a line that is received does not. So the fifth silence of a session ends it,
however the wake-ups were answered (`forced_though_answered`), and the watchdog is what it
is meant to be exactly in the runs whose sessions receive nothing between the first and the
fifth of their silences (`watchdog_iff`).

What carries the proof is `Counted`: of the steps since the session began, as many were
silent as `nbwakeattempt` says, and each was a wake-up.
-/

namespace Qigong.Collect

open Crypt CollectingConn
open Crypt.ChallengeState

variable {P : Platform} {S : Scanners} {c c' : CollectingConn P}

/-! ## Silences -/

/-- The test of `poll`: nothing was read for more than 45 s. -/
def CollectingConn.Silent (env : PollEnv) (c : CollectingConn P) : Prop :=
  0 ≤ c.fd ∧ c.is_collecting = true ∧ 45 < env.now - c.lastlineread

instance (env : PollEnv) (c : CollectingConn P) : Decidable (c.Silent env) :=
  inferInstanceAs (Decidable (_ ∧ _))

/-- A step of a run: the connection before it, its event, and the connection behind it. -/
abbrev Taken (P : Platform) := Traced P × Event × Traced P

/-- `poll` finds the connection silent. -/
def silent (x : Taken P) : Bool :=
  match x.2.1 with
  | .poll env => x.1.conn.Silent env
  | .reconnect_hook _ _ | .line _ _ _ => false

/-- `poll` sends a wake-up. -/
def wokenUp (x : Taken P) : Bool := silent x && decide (x.1.conn.nbwakeattempt < 4)

/-- `poll` calls `reconnect_hook`. -/
def forced (x : Taken P) : Bool := silent x && !decide (x.1.conn.nbwakeattempt < 4)

/-- What a step adds to the log. -/
def did (x : Taken P) : List (Effect P) := x.2.2.log.drop x.1.log.length

/-- A line is received. -/
def heard (x : Taken P) : Bool :=
  (did x).any fun
    | .received _ _ _ => true
    | .flushed _ | .command _ _ | .session | .rrd_update _ _ _ => false

/-- The step connects, and begins a session. -/
def beginsSession (x : Taken P) : Bool :=
  (did x).any fun
    | .session => true
    | .flushed _ | .command _ _ | .received _ _ _ | .rrd_update _ _ _ => false

theorem did_eq {w w' : Traced P} {e : Event} {effs : List (Effect P)}
    (h : w'.log = w.log ++ effs) : did (w, e, w') = effs := by
  rw [did, h, List.drop_left]

/-- What `wake` does, by the silence and the count. -/
theorem wake_cases (env : PollEnv) (c : CollectingConn P) :
    (¬ c.Silent env ∧ c.wake env = (c, [])) ∨
    (c.Silent env ∧ c.nbwakeattempt < 4 ∧ c.wake env
      = { c with lastlineread := env.now, nbwakeattempt := c.nbwakeattempt + 1 }.flushText
          (str "qiging" ++ eosAddress)) ∨
    (c.Silent env ∧ ¬ c.nbwakeattempt < 4 ∧ c.wake env
      = (({ c with lastlineread := env.now } : CollectingConn P).reconnect_hook env.now env.rand,
          [])) := by
  by_cases hs : c.Silent env
  · by_cases hn : c.nbwakeattempt < 4
    · exact .inr (.inl ⟨hs, hn, (if_pos hs).trans (if_pos hn)⟩)
    · exact .inr (.inr ⟨hs, hn, (if_pos hs).trans (if_neg hn)⟩)
  · exact .inl ⟨hs, if_neg hs⟩

/-! ## What a step does to the count -/

/-- No session begins among these effects. -/
def SameSession (effs : List (Effect P)) : Prop := .session ∉ effs

theorem SameSession.nil : SameSession ([] : List (Effect P)) := fun h => (nomatch h)

theorem SameSession.append {e f : List (Effect P)} (he : SameSession e) (hf : SameSession f) :
    SameSession (e ++ f) := fun h => (List.mem_append.mp h).elim he hf

theorem SameSession.flushed (b : CryptConnection P) : SameSession [Effect.flushed b] :=
  fun h => (nomatch List.mem_singleton.mp h)

theorem beginsSession_eq_false {x : Taken P} (h : SameSession (did x)) :
    beginsSession x = false := by
  rw [beginsSession, List.any_eq_false]
  intro e he
  cases e with
  | session => exact absurd he h
  | flushed _ | command _ _ | received _ _ _ | rrd_update _ _ _ => exact Bool.false_ne_true

/-- The count, the handshake's state and whether the connection is to be made stay. -/
structure KeepsCount (c c' : CollectingConn P) : Prop where
  nbwakeattempt : c'.nbwakeattempt = c.nbwakeattempt
  challenging : c'.crypt.challenging = c.crypt.challenging
  tdin : c'.crypt.tdin = c.crypt.tdin
  state : c'.state = .needtoconnect ↔ c.state = .needtoconnect

theorem KeepsCount.refl (c : CollectingConn P) : KeepsCount c c := ⟨rfl, rfl, rfl, .rfl⟩

theorem KeepsCount.trans {c d e : CollectingConn P} (h : KeepsCount c d) (h' : KeepsCount d e) :
    KeepsCount c e :=
  ⟨h'.nbwakeattempt.trans h.nbwakeattempt, h'.challenging.trans h.challenging,
    h'.tdin.trans h.tdin, h'.state.trans h.state⟩

theorem onLine_keepsCount (bufin : Bytes) (c : CollectingConn P) :
    KeepsCount c (c.onLine bufin).1 ∧ SameSession (c.onLine bufin).2 := by
  rcases onLine_cases bufin c with
    ⟨text, st, n, h, hst⟩ | ⟨hs, h⟩ | ⟨hs, -, mpcs, h, -⟩ | ⟨h, -⟩ <;> rw [h]
  · refine ⟨⟨rfl, CryptConnection.flush_challenging _, CryptConnection.flush_tdin _, ?_⟩,
      .flushed _⟩
    rcases hst with ⟨hs, rfl | rfl⟩ | ⟨hs, rfl | rfl⟩ <;> simp [hs]
  · exact ⟨⟨rfl, rfl, rfl, by simp [hs]⟩, .nil⟩
  · exact ⟨⟨rfl, rfl, rfl, by simp [hs]⟩, .nil⟩
  · exact ⟨.refl c, .nil⟩

/-- A line that is read does not put the count back. -/
theorem lineread_keepsCount {now : Int} {bufin : Bytes} {effs : List (Effect P)}
    (h : c.lineread S now bufin = .ok (c', effs)) : KeepsCount c c' ∧ SameSession effs := by
  obtain ⟨d, measured, rfl, rfl, hd⟩ := lineread_eq h
  obtain ⟨hkeep, hsame⟩ : KeepsCount c d ∧ SameSession measured := by
    rcases hd with ⟨-, -, hm⟩ | ⟨-, rfl, rfl⟩
    · obtain ⟨record, -, rfl, heff⟩ := measureLine_eq rfl hm
      refine ⟨⟨rfl, rfl, rfl, .rfl⟩, ?_⟩
      cases record with
      | false => rw [show measured = [] from heff]; exact .nil
      | true =>
        obtain ⟨data, rfl⟩ : ∃ data, measured = _ := heff
        exact fun h => (nomatch List.mem_singleton.mp h)
    · exact ⟨⟨rfl, rfl, rfl, .rfl⟩, .nil⟩
  obtain ⟨hkeep', hsame'⟩ := onLine_keepsCount bufin d
  refine ⟨hkeep.trans hkeep', fun h => ?_⟩
  rcases List.mem_cons.mp h with h | h
  · cases h
  · exact hsame.append hsame' h

theorem pollReady_keepsCount (hs : c.state = .ready) :
    KeepsCount c c.pollReady.1 ∧ SameSession c.pollReady.2 := by
  unfold pollReady
  split
  · split
    · exact ⟨⟨rfl, rfl, rfl, .rfl⟩, .nil⟩
    · refine ⟨⟨rfl, CryptConnection.flush_challenging _, CryptConnection.flush_tdin _, ?_⟩,
        fun h => ?_⟩
      · simp [hs]
      · rcases List.mem_cons.mp h with h | h
        · cases h
        · exact SameSession.flushed _ h
  · exact ⟨.refl c, .nil⟩

/-- The second half of `poll`. -/
def pollState (env : PollEnv) (c : CollectingConn P) : CollectingConn P × List (Effect P) :=
  match c.state with
  | .ready => c.pollReady
  | .needtoconnect => c.pollConnect env
  | .challenging | .welcome | .verify | .waiting | .timeout => (c, [])

theorem poll_eq (env : PollEnv) (c : CollectingConn P) :
    c.poll env = ((pollState env (c.wake env).1).1,
      (c.wake env).2 ++ (pollState env (c.wake env).1).2) := by
  unfold CollectingConn.poll pollState
  dsimp only
  cases (c.wake env).1.state <;> rfl

/-- A session begins where there was none, and keeps the count; else all stays. -/
theorem pollState_cases (env : PollEnv) (c : CollectingConn P) :
    (KeepsCount c (pollState env c).1 ∧ SameSession (pollState env c).2) ∨
    (c.state = .needtoconnect ∧ (pollState env c).1.state = .challenging ∧
      (pollState env c).1.nbwakeattempt = c.nbwakeattempt ∧ (pollState env c).2 = [.session]) := by
  unfold pollState
  cases hs : c.state with
  | ready => exact .inl (pollReady_keepsCount hs)
  | needtoconnect =>
    dsimp only [pollConnect]
    split
    · split
      · exact .inr ⟨rfl, rfl, rfl, rfl⟩
      · exact .inl ⟨⟨rfl, rfl, rfl, .rfl⟩, .nil⟩
    · exact .inl ⟨.refl c, .nil⟩
  | challenging | welcome | verify | waiting | timeout => exact .inl ⟨.refl c, .nil⟩

theorem reconnect_hook_count (now : Int) (rand : Nat) (c : CollectingConn P) :
    (c.reconnect_hook now rand).nbwakeattempt = 0 ∧
      (c.reconnect_hook now rand).state = .needtoconnect ∧
      (c.reconnect_hook now rand).crypt = c.crypt.closecrypt := by
  unfold reconnect_hook
  dsimp only
  split <;> exact ⟨rfl, rfl, rfl⟩

/-! ## The steps since a session began -/

/-- What the connection keeps of the steps `recent` since a session began: their number of
silences is counted, while the connection is not given up, and each of these was a wake-up.
They were behind a handshake, which no line can begin anew before the next session. -/
structure Counted (recent : List (Taken P)) (c : CollectingConn P) : Prop where
  gated : Gated c
  le : c.nbwakeattempt ≤ 4
  count : c.state ≠ .needtoconnect →
    recent.countP silent = c.nbwakeattempt ∧ recent.countP wokenUp = c.nbwakeattempt
  givenUp : c.state = .needtoconnect →
    c.nbwakeattempt = 0 ∧ (c.crypt.challenging = Accepted → c.crypt.tdin = none)
  behind : recent.countP silent ≠ 0 → c.crypt.challenging = Accepted

theorem wokenUp_of_not_silent {x : Taken P} (h : silent x = false) : wokenUp x = false := by
  rw [wokenUp, h, Bool.false_and]

theorem wokenUp_le_silent (recent : List (Taken P)) :
    recent.countP wokenUp ≤ recent.countP silent :=
  List.countP_mono_left fun x _ h => by
    rw [wokenUp, Bool.and_eq_true] at h
    exact h.1

section Counted

variable {recent : List (Taken P)}

/-- What keeps the count keeps what is counted. -/
theorem Counted.of_keepsCount (h : Counted recent c) (hg : Gated c') (hk : KeepsCount c c') :
    Counted recent c' where
  gated := hg
  le := hk.nbwakeattempt ▸ h.le
  count hs := by
    rw [hk.nbwakeattempt]
    exact h.count fun hn => hs (hk.state.mpr hn)
  givenUp hs := by
    rw [hk.nbwakeattempt, hk.challenging, hk.tdin]
    exact h.givenUp (hk.state.mp hs)
  behind hn := hk.challenging.trans (h.behind hn)

/-- A step that is no silence is not counted. -/
theorem Counted.snoc {x : Taken P} (h : Counted recent c) (hx : silent x = false) :
    Counted (recent ++ [x]) c := by
  have hsilent : (recent ++ [x]).countP silent = recent.countP silent := by
    rw [List.countP_append, List.countP_singleton, hx]
    rfl
  have hwoken : (recent ++ [x]).countP wokenUp = recent.countP wokenUp := by
    rw [List.countP_append, List.countP_singleton, wokenUp_of_not_silent hx]
    rfl
  exact ⟨h.gated, h.le, by rw [hsilent, hwoken]; exact h.count, h.givenUp,
    by rw [hsilent]; exact h.behind⟩

/-- A session begins with nothing counted. -/
theorem counted_of_session (hg : Gated c) (hn : c.nbwakeattempt = 0) (hs : c.state = .challenging) :
    Counted [] c where
  gated := hg
  le := by omega
  count _ := ⟨hn.symm, hn.symm⟩
  givenUp h := by
    rw [hs] at h
    cases h
  behind h := absurd rfl h

/-- A connection that collects is not given up, and is behind the handshake. -/
theorem Gated.collecting (h : Gated c) (hc : c.is_collecting = true) :
    c.state ≠ .needtoconnect ∧ c.crypt.challenging = Accepted := by
  have htalk := h.talking hc
  refine ⟨fun hs => ?_, h.accepted htalk⟩
  rw [hs] at htalk
  cases htalk

/-- `wake` counts the silence that it answers with a wake-up. -/
theorem Counted.wake {w : Traced P} (env : PollEnv) (w' : Traced P)
    (h : Counted recent w.conn) :
    Counted (recent ++ [(w, .poll env, w')]) (w.conn.wake env).1 := by
  have hg := (wake_gated h.gated env).1
  rcases wake_cases env w.conn with ⟨hs, hw⟩ | ⟨hs, hn, hw⟩ | ⟨hs, hn, hw⟩
  · rw [hw]
    exact h.snoc (decide_eq_false hs)
  · -- a wake-up
    obtain ⟨hstate, hacc⟩ := h.gated.collecting hs.2.1
    have hsilent : silent (w, .poll env, w') = true := decide_eq_true hs
    have hwoken : wokenUp (w, .poll env, w') = true := by
      rw [wokenUp, hsilent, decide_eq_true hn]
      rfl
    obtain ⟨hcount, hcount'⟩ := h.count hstate
    -- without a silence the connection is as it was
    rw [hw] at hg ⊢
    refine ⟨hg, hn, fun _ => ?_, fun hx => absurd hx hstate, fun _ => ?_⟩
    · rw [List.countP_append, List.countP_append, hcount, hcount', List.countP_singleton,
        List.countP_singleton, hsilent, hwoken]
      exact ⟨rfl, rfl⟩
    · exact (CryptConnection.flush_challenging _).trans hacc
  · -- the connection is given up
    obtain ⟨hn0, hstate, hcrypt⟩ := reconnect_hook_count env.now env.rand
      ({ w.conn with lastlineread := env.now } : CollectingConn P)
    rw [hw] at hg ⊢
    refine ⟨hg, Nat.le_trans (Nat.le_of_eq hn0) (Nat.zero_le 4), fun hx => absurd hstate hx,
      fun _ => ⟨hn0, fun _ => ?_⟩, fun _ => ?_⟩
    · dsimp only
      rw [hcrypt]
      rfl
    · dsimp only
      rw [hcrypt]
      exact (h.gated.collecting hs.2.1).2

/-- **What a poll does to the count**: it may begin a session, with nothing counted. -/
theorem poll_counted {w w' : Traced P} {env : PollEnv} (h : Counted recent w.conn)
    (hs : step S w (.poll env) = some w') :
    (beginsSession (w, .poll env, w') = true ∧ Counted [] w'.conn) ∨
    (beginsSession (w, .poll env, w') = false ∧
      Counted (recent ++ [(w, .poll env, w')]) w'.conn) := by
  have hg' : Gated w'.conn := step_gated h.gated hs
  obtain ⟨hconn, hlog⟩ : w'.conn = (w.conn.poll env).1 ∧ w'.log = w.log ++ (w.conn.poll env).2 := by
    obtain rfl := Option.some.inj hs
    exact ⟨rfl, rfl⟩
  rw [poll_eq] at hconn hlog
  have hdid := did_eq (e := .poll env) hlog
  have hsame : SameSession (w.conn.wake env).2 := by
    rcases wake_cases env w.conn with ⟨-, hw⟩ | ⟨-, -, hw⟩ | ⟨-, -, hw⟩ <;> rw [hw]
    · exact .nil
    · exact .flushed _
    · exact .nil
  have hwake := h.wake env w'
  -- only a connection that is given up begins a session, and there nothing is counted
  rcases pollState_cases env (w.conn.wake env).1 with ⟨hk, hss⟩ | ⟨hst, hst', hn, heff⟩
  · rw [← hconn] at hk
    refine .inr ⟨beginsSession_eq_false ?_, hwake.of_keepsCount hg' hk⟩
    rw [hdid]
    exact hsame.append hss
  · left
    constructor
    · rw [beginsSession, hdid, heff, List.any_append]
      exact Bool.or_true _
    · rw [← hconn] at hst' hn
      exact counted_of_session hg' (hn.trans (hwake.givenUp hst).1) hst'

/-- The lines of a record leave the count as it is. -/
theorem lines_keepsCount {now : Int} {lines : List Bytes} {w w' : Traced P}
    (h : Lib.run (opStep S) w ((lines.map Call.lineread).map (callOp now)) = some w') :
    KeepsCount w.conn w'.conn ∧ ∃ effs, w'.log = w.log ++ effs ∧ SameSession effs := by
  induction lines generalizing w with
  | nil =>
    obtain rfl := Option.some.inj h
    exact ⟨.refl _, [], (List.append_nil _).symm, .nil⟩
  | cons l ls ih =>
    rw [List.map_cons, List.map_cons, Lib.run_cons] at h
    obtain ⟨u, hu, hrest⟩ := Option.bind_eq_some_iff.mp h
    obtain ⟨effs, happ, hlog⟩ := opStep_eq_some_iff.mp hu
    obtain ⟨hk, hsame⟩ := lineread_keepsCount happ
    obtain ⟨hk', effs', hlog', hsame'⟩ := ih hrest
    refine ⟨hk.trans hk', effs ++ effs', ?_, hsame.append hsame'⟩
    rw [hlog', hlog, List.append_assoc]

/-- **A line is counted as no silence, and puts nothing back.** No line begins a handshake
on a connection that was given up behind one. -/
theorem line_counted {w w' : Traced P} {now : Int} {env : LineEnv} {bytes : Bytes}
    (h : Counted recent w.conn) (hs : step S w (.line now env bytes) = some w') :
    beginsSession (w, .line now env bytes, w') = false ∧
      Counted (recent ++ [(w, .line now env bytes, w')]) w'.conn := by
  have hg' : Gated w'.conn := step_gated h.gated hs
  obtain ⟨l, hl, hrun⟩ := step_eq_some_iff.mp hs
  obtain ⟨d, cs, hrecv, rfl⟩ := ops_line hl
  obtain ⟨hmoves, hcalls⟩ := react_line hrecv
  obtain ⟨u, hu, hrun⟩ := Option.bind_eq_some_iff.mp ((Lib.run_cons _ _ _).symm.trans hrun)
  obtain rfl : (⟨{ w.conn with crypt := d }, w.log ++ []⟩ : Traced P) = u := Option.some.inj hu
  suffices hsuff : Counted recent w'.conn ∧ ∃ effs, w'.log = w.log ++ effs ∧ SameSession effs by
    obtain ⟨hc, effs, hlog, hsame⟩ := hsuff
    refine ⟨beginsSession_eq_false ?_, hc.snoc rfl⟩
    rw [did_eq hlog]
    exact hsame
  -- the connection above a handshake that has moved on
  have hbeneath : Gated { w.conn with crypt := d } →
      (w.conn.state = .needtoconnect → d.challenging = Accepted → d.tdin = none) →
      Counted recent { w.conn with crypt := d } := fun hg htd =>
    ⟨hg, h.le, h.count, fun hst => ⟨(h.givenUp hst).1, htd hst⟩,
      fun hn => hmoves.accepted (h.behind hn)⟩
  -- a line may be no call, the answer that ends the handshake, or a record
  cases hcalls with
  | silent hacc =>
    obtain rfl := Option.some.inj hrun
    refine ⟨hbeneath hg' fun hst hd => ?_, [], rfl, .nil⟩
    have htd := (h.givenUp hst).2 (hacc hd)
    rw [CryptConnection.receive_skipped htd (hacc hd)] at hrecv
    obtain ⟨rfl, -⟩ := Prod.mk.inj (Except.ok.inj hrecv)
    exact htd
  | accepted hwait hd =>
    -- a silence stands behind the handshake, which this line ends only now
    have hnone : recent.countP silent = 0 := by
      by_contra hn
      have hacc := h.behind hn
      rw [hwait] at hacc
      cases hacc
    have hwoken : recent.countP wokenUp = 0 :=
      Nat.le_zero.mp (hnone ▸ wokenUp_le_silent recent)
    have hzero : w.conn.nbwakeattempt = 0 := by
      by_cases hst : w.conn.state = .needtoconnect
      · exact (h.givenUp hst).1
      · rw [← (h.count hst).1, hnone]
    obtain rfl := Option.some.inj hrun
    refine ⟨⟨hg', h.le, fun _ => ?_, fun hst => (nomatch hst), fun hn => absurd hnone hn⟩,
      _, List.append_assoc _ _ _, SameSession.nil.append (.flushed _)⟩
    rw [hnone, hwoken]
    exact ⟨hzero.symm, hzero.symm⟩
  | record temp hacc hd htd =>
    obtain ⟨hk, effs, hlog, hsame⟩ := lines_keepsCount hrun
    -- above a connection that is given up no record is read
    have hst : w.conn.state ≠ .needtoconnect := by
      intro hst
      have hskip := (h.givenUp hst).2 hacc
      rw [CryptConnection.receive_skipped hskip hacc] at hrecv
      obtain ⟨rfl, -⟩ := Prod.mk.inj (Except.ok.inj hrecv)
      rw [hskip] at htd
      cases htd
    have hg : Gated { w.conn with crypt := d } :=
      ⟨fun _ => hd, h.gated.talking, CryptConnection.receive_out hrecv h.gated.out⟩
    refine ⟨(hbeneath hg fun hst' => absurd hst' hst).of_keepsCount hg' hk, effs, ?_, hsame⟩
    rw [hlog, List.append_nil]

/-- What a connection is reconnected by qiconn is given up too. -/
theorem reconnect_counted {w w' : Traced P} {now : Int} {rand : Nat} (h : Counted recent w.conn)
    (hs : step S w (.reconnect_hook now rand) = some w') :
    beginsSession (w, .reconnect_hook now rand, w') = false ∧
      Counted (recent ++ [(w, .reconnect_hook now rand, w')]) w'.conn := by
  obtain ⟨hn, hst, hcrypt⟩ := reconnect_hook_count now rand w.conn
  have hg : Gated (w.conn.reconnect_hook now rand) := reconnect_hook_gated h.gated now rand
  obtain rfl := Option.some.inj hs
  constructor
  · apply beginsSession_eq_false
    rw [did_eq rfl]
    exact .nil
  · refine Counted.snoc (c := w.conn.reconnect_hook now rand) ⟨hg, ?_, fun hx => absurd hst hx,
      fun _ => ⟨hn, fun _ => ?_⟩, fun hx => ?_⟩ rfl
    · rw [hn]
      exact Nat.zero_le 4
    · rw [hcrypt]
      rfl
    · rw [hcrypt]
      exact h.behind hx

end Counted

/-- The steps so far are those before the last session began, and those since, of which the
connection keeps count. -/
def Watched (hist : List (Taken P)) (w : Traced P) : Prop :=
  ∃ before recent, hist = before ++ recent ∧
    (∀ y ∈ before.getLast?, beginsSession y = true) ∧
    (∀ y ∈ recent, beginsSession y = false) ∧ Counted recent w.conn

/-- **Step lemma** of the watchdog. -/
theorem step_watched {hist : List (Taken P)} {w w' : Traced P} {e : Event} (h : Watched hist w)
    (hs : step S w e = some w') : Watched (hist ++ [(w, e, w')]) w' := by
  obtain ⟨before, recent, rfl, hb, hr, hc⟩ := h
  have hsame : beginsSession (w, e, w') = false ∧ Counted (recent ++ [(w, e, w')]) w'.conn →
      Watched (before ++ recent ++ [(w, e, w')]) w' := by
    rintro ⟨hx, hc'⟩
    refine ⟨before, recent ++ [(w, e, w')], List.append_assoc _ _ _, hb, fun y hy => ?_, hc'⟩
    rcases List.mem_append.mp hy with hy | hy
    · exact hr y hy
    · exact List.mem_singleton.mp hy ▸ hx
  cases e with
  | poll env =>
    rcases poll_counted hc hs with ⟨hx, hc'⟩ | hkeep
    · -- what follows is a session of its own
      refine ⟨before ++ recent ++ [(w, .poll env, w')], [], (List.append_nil _).symm, ?_,
        fun y hy => (nomatch hy), hc'⟩
      intro y hy
      rw [List.getLast?_concat] at hy
      exact Option.some.inj hy ▸ hx
    · exact hsame hkeep
  | reconnect_hook now rand => exact hsame (reconnect_counted hc hs)
  | line now env bytes => exact hsame (line_counted hc hs)

/-- Nothing is counted on the connection as it is constructed. -/
theorem start_watched {key : Option QiCrKey} {crypt : CryptConnection P}
    (hcrypt : CryptConnection.withKey P key = .ok crypt) (t₀ : Int) (sets : List CollectionSet) :
    Watched [] (start t₀ crypt sets) := by
  have hg : Gated (start t₀ crypt sets).conn := (start_sound hcrypt t₀ sets).1
  obtain ⟨m, p, hconn⟩ := foldl_assign sets (construct t₀ crypt)
  have hstart : (start t₀ crypt sets).conn = _ := hconn
  obtain ⟨k, id, rfl⟩ := CryptConnection.withKey_eq hcrypt
  refine ⟨[], [], rfl, fun y hy => (nomatch hy), fun y hy => (nomatch hy), hg, ?_, fun h => ?_,
    fun _ => ?_, fun h => absurd rfl h⟩ <;> rw [hstart] at *
  · exact Nat.zero_le 4
  · exact absurd rfl h
  · exact ⟨rfl, fun _ => rfl⟩

/-! ## Runs -/

/-- A line is received after each wake-up, before `poll` next finds the connection silent. -/
def Answered (xs : List (Taken P)) : Prop :=
  ∀ pre w mid x post, xs = pre ++ w :: (mid ++ x :: post) → wokenUp w = true → silent x = true →
    ∃ y ∈ mid, heard y = true

/-- `poll` reconnects only after four wake-ups, no line being received since the first. -/
def AfterUnanswered (xs : List (Taken P)) : Prop :=
  ∀ pre x post, xs = pre ++ x :: post → forced x = true →
    ∃ before w mid, pre = before ++ w :: mid ∧ wokenUp w = true ∧
      (w :: mid).countP wokenUp = 4 ∧ ∀ y ∈ mid, heard y = false

/-- In no session is a line received between the first and the fifth of five silences. -/
def QuietSilences (xs : List (Taken P)) : Prop :=
  ∀ pre first mid last post, xs = pre ++ first :: (mid ++ last :: post) →
    silent first = true → silent last = true → (first :: mid).countP silent = 4 →
    (∀ y ∈ first :: mid, beginsSession y = false) → ∀ y ∈ mid, heard y = false

theorem AfterUnanswered.answered {xs : List (Taken P)} (h : AfterUnanswered xs)
    (hans : Answered xs) : ∀ x ∈ xs, forced x = false := by
  intro x hx
  obtain ⟨pre, post, rfl⟩ := List.append_of_mem hx
  by_contra hforced
  rw [Bool.not_eq_false] at hforced
  obtain ⟨before, w, mid, rfl, hw, -, hquiet⟩ := h pre x post rfl hforced
  have hsilent : silent x = true := by
    rw [forced, Bool.and_eq_true] at hforced
    exact hforced.1
  obtain ⟨y, hy, hheard⟩ := hans before w mid x post (by simp) hw hsilent
  rw [hquiet y hy] at hheard
  cases hheard

/-- The first of the elements that a test finds. -/
theorem exists_first {α : Type} {f : α → Bool} {l : List α} (h : l.countP f ≠ 0) :
    ∃ as x bs, l = as ++ x :: bs ∧ f x = true ∧ (x :: bs).countP f = l.countP f := by
  induction l with
  | nil => exact absurd rfl h
  | cons a l ih =>
    cases ha : f a with
    | true => exact ⟨[], a, l, rfl, ha, rfl⟩
    | false =>
      have hcount : (a :: l).countP f = l.countP f :=
        List.countP_cons_of_neg (by rw [ha]; exact Bool.false_ne_true)
      rw [hcount] at h
      obtain ⟨as, x, bs, rfl, hx, hbs⟩ := ih h
      exact ⟨a :: as, x, bs, rfl, hx, hbs.trans hcount.symm⟩

/-- Of two ends of a list, one ends the other. -/
theorem end_of_end {α : Type} {as bs l m : List α} (h : as ++ l = bs ++ m) :
    (∃ cs, l = cs ++ m) ∨ ∃ c cs, m = c :: cs ++ l := by
  rcases List.append_eq_append_iff.mp h with ⟨cs, -, hl⟩ | ⟨cs, -, hm⟩
  · exact .inl ⟨cs, hl⟩
  · cases cs with
    | nil => exact .inl ⟨[], hm.symm⟩
    | cons c cs => exact .inr ⟨c, cs, hm⟩

/-- What ends the steps so far without a session's beginning is of the last session. -/
theorem Watched.recent {hist as l : List (Taken P)} {w : Traced P} (h : Watched hist w)
    (hl : hist = as ++ l) (hs : ∀ y ∈ l, beginsSession y = false) :
    ∃ recent cs, Counted recent w.conn ∧ recent = cs ++ l := by
  obtain ⟨before, recent, rfl, hb, -, hc⟩ := h
  rcases end_of_end hl with ⟨cs, hcs⟩ | ⟨c, cs, rfl⟩
  · exact ⟨recent, cs, hc, hcs⟩
  · -- else the last session would have begun in it
    exfalso
    obtain ⟨ds, hds⟩ : ∃ ds, before = ds ++ c :: cs := by
      rw [← List.append_assoc] at hl
      exact ⟨as, List.append_cancel_right hl⟩
    obtain ⟨init, z, hz⟩ := List.eq_nil_or_concat (c :: cs) |>.resolve_left (List.cons_ne_nil _ _)
    have hlast : before.getLast? = some z := by
      rw [hds, hz, List.concat_eq_append, ← List.append_assoc, List.getLast?_concat]
    have hbegin := hb z hlast
    rw [hs z (by rw [hz]; simp)] at hbegin
    cases hbegin

theorem Counted.of_silent {recent : List (Taken P)} {x : Taken P} (h : Counted recent x.1.conn)
    (hx : silent x = true) : recent.countP silent = x.1.conn.nbwakeattempt ∧
      recent.countP wokenUp = x.1.conn.nbwakeattempt := by
  obtain ⟨w, e, w'⟩ := x
  cases e with
  | poll env =>
    have hs : w.conn.Silent env := of_decide_eq_true hx
    exact h.count (h.gated.collecting hs.2.1).1
  | reconnect_hook _ _ | line _ _ _ => cases hx

theorem forced_iff {x : Taken P} :
    forced x = true ↔ silent x = true ∧ 4 ≤ x.1.conn.nbwakeattempt := by
  simp [forced]

theorem silent_of_wokenUp {x : Taken P} (h : wokenUp x = true) : silent x = true := by
  rw [wokenUp, Bool.and_eq_true] at h
  exact h.1

section runs

variable {xs : List (Taken P)}

/-- The four wake-ups before a forced reconnection are the silences of its session. -/
theorem afterUnanswered_of_quiet
    (hwatch : ∀ pre x post, xs = pre ++ x :: post → Watched pre x.1) (h : QuietSilences xs) :
    AfterUnanswered xs := by
  intro pre x post hxs hforced
  obtain ⟨hsilent, hfour⟩ := forced_iff.mp hforced
  obtain ⟨before, recent, rfl, -, hsame, hc⟩ := hwatch pre x post hxs
  obtain ⟨hcount, hcount'⟩ := hc.of_silent hsilent
  have hle := hc.le
  obtain ⟨as, w, mid, rfl, hw, hwoken⟩ :=
    exists_first (f := wokenUp) (l := recent) (by omega)
  have hsil : (w :: mid).countP silent = 4 := by
    have hge := wokenUp_le_silent (w :: mid)
    rw [List.countP_append] at hcount
    omega
  refine ⟨before ++ as, w, mid, (List.append_assoc _ _ _).symm, hw, by omega, ?_⟩
  refine h (before ++ as) w mid x post (by simp [hxs]) (silent_of_wokenUp hw) hsilent hsil ?_
  exact fun y hy => hsame y (List.mem_append_right as hy)

/-- A fifth silence forces a reconnection, so that nothing is received since the first. -/
theorem quiet_of_afterUnanswered
    (hwatch : ∀ pre x post, xs = pre ++ x :: post → Watched pre x.1) (h : AfterUnanswered xs) :
    QuietSilences xs := by
  intro pre first mid last post hxs hfirst hlast hfour hsame
  have hxs' : xs = (pre ++ first :: mid) ++ last :: post := by simp [hxs]
  obtain ⟨recent, cs, hc, rfl⟩ := (hwatch _ last post hxs').recent rfl hsame
  obtain ⟨hcount, -⟩ := hc.of_silent hlast
  rw [List.countP_append, hfour] at hcount
  obtain ⟨before, w, mid', heq, hw, hwoken, hquiet⟩ :=
    h _ last post hxs' (forced_iff.mpr ⟨hlast, by omega⟩)
  rcases end_of_end heq with ⟨ds, hds⟩ | ⟨d, ds, hds⟩
  · cases ds with
    | nil =>
      obtain ⟨-, rfl⟩ := List.cons_eq_cons.mp hds
      exact hquiet
    | cons d ds =>
      -- the first silence would be one more than the four wake-ups
      exfalso
      obtain ⟨rfl, hmid⟩ : first = d ∧ mid = ds ++ w :: mid' := List.cons_eq_cons.mp hds
      have hge := wokenUp_le_silent (w :: mid')
      rw [List.countP_cons_of_pos hfirst, hmid, List.countP_append] at hfour
      omega
  · obtain ⟨-, rfl⟩ := List.cons_eq_cons.mp hds
    intro y hy
    exact hquiet y (List.mem_append_right ds (List.mem_cons_of_mem _ hy))

end runs

/-- **When the watchdog is right**: it never drops a qigong that answers, and drops one only
after four wake-ups unanswered, exactly where no session receives a line between the first
and the fifth of its silences. -/
theorem watchdog_iff {key : Option QiCrKey} {crypt : CryptConnection P}
    (hcrypt : CryptConnection.withKey P key = .ok crypt) (S : Scanners) (t₀ : Int)
    (sets : List CollectionSet) (es : List Event) :
    ((Answered (Lib.steps (step S) (start t₀ crypt sets) es) →
        ∀ x ∈ Lib.steps (step S) (start t₀ crypt sets) es, forced x = false) ∧
      AfterUnanswered (Lib.steps (step S) (start t₀ crypt sets) es)) ↔
    QuietSilences (Lib.steps (step S) (start t₀ crypt sets) es) := by
  have hwatch : ∀ pre x post, Lib.steps (step S) (start t₀ crypt sets) es = pre ++ x :: post →
      Watched pre x.1 := fun pre x post hxs =>
    (Lib.steps_history (P := fun _ _ => True)
      (fun hist w e w' hw _ hs => step_watched hw hs) (start_watched hcrypt t₀ sets)
      (Lib.stepsMeet_of_forall (fun _ _ => trivial) es _) hxs).1
  constructor
  · rintro ⟨-, h⟩
    exact quiet_of_afterUnanswered hwatch h
  · intro h
    have hafter := afterUnanswered_of_quiet hwatch h
    exact ⟨hafter.answered, hafter⟩

/-! ## A qigong that answers -/

/-- The test of `Answered`, one step after the other. -/
def answers : (awaiting : Bool) → List (Taken P) → Bool
  | _, [] => true
  | awaiting, x :: xs =>
    !(awaiting && silent x) && answers (wokenUp x || (awaiting && !heard x)) xs

/-- While a wake-up awaits its answer no step is silent. -/
theorem heard_of_answers {mid post : List (Taken P)} {x : Taken P}
    (h : answers true (mid ++ x :: post) = true) (hx : silent x = true) :
    ∃ y ∈ mid, heard y = true := by
  induction mid with
  | nil => simp [answers, hx] at h
  | cons y mid ih =>
    rw [List.cons_append, answers, Bool.and_eq_true] at h
    cases hy : heard y with
    | true => exact ⟨y, List.mem_cons_self, hy⟩
    | false =>
      rw [hy, Bool.not_false, Bool.and_true, Bool.or_true] at h
      obtain ⟨z, hz, hheard⟩ := ih h.2
      exact ⟨z, List.mem_cons_of_mem _ hz, hheard⟩

theorem answered_of_answers {xs : List (Taken P)} {awaiting : Bool}
    (h : answers awaiting xs = true) : Answered xs := by
  intro pre w mid x post hxs hw hx
  induction pre generalizing xs awaiting with
  | nil =>
    rw [hxs, List.nil_append, answers, Bool.and_eq_true, hw, Bool.true_or] at h
    exact heard_of_answers h.2 hx
  | cons y pre ih =>
    rw [hxs, List.cons_append, answers, Bool.and_eq_true] at h
    exact ih h.2 rfl

/-- The connection is polled at a time, and the qigong says that it is there. -/
def wakesUp (now : Int) : List Event :=
  [.poll ⟨now, 3, some [1, 2, 3, 4], 0⟩,
    .line now (fairEnv [5, 6, 7, 8] (bytesFrom 0 64)) (base64_encode (str "qigong."))]

/-- A session whose every wake-up is answered at once, up to its fifth silence. -/
def answeredSession : List Event := sampleHello ++ [1046, 1092, 1138, 1184, 1230].flatMap wakesUp

theorem answeredSession_forced :
    Answered (Lib.steps (step sampleScanners) (start 1000 plainSupplicant []) answeredSession) ∧
      ∃ x ∈ Lib.steps (step sampleScanners) (start 1000 plainSupplicant []) answeredSession,
        forced x = true := by
  have hrun : answers false (Lib.steps (step sampleScanners) (start 1000 plainSupplicant [])
        answeredSession) = true ∧
      (Lib.steps (step sampleScanners) (start 1000 plainSupplicant []) answeredSession).any forced
        = true := by
    decide +kernel
  exact ⟨answered_of_answers hrun.1, List.any_eq_true.mp hrun.2⟩

/-- Lines are received between its silences, and so it is none of the runs that go well. -/
theorem watchdog_iff_answeredSession :
    ¬ QuietSilences (Lib.steps (step sampleScanners) (start 1000 plainSupplicant [])
      answeredSession) := by
  intro hquiet
  have hcrypt : CryptConnection.withKey plainPlatform (some sampleKey) = .ok plainSupplicant := rfl
  obtain ⟨hans, x, hx, hforced⟩ := answeredSession_forced
  have hnever := ((watchdog_iff hcrypt sampleScanners 1000 [] answeredSession).mpr hquiet).1 hans
  rw [hnever x hx] at hforced
  cases hforced

/-- **A qigong that answers is dropped.** -/
theorem forced_though_answered :
    ¬ ∀ (P : Platform) (S : Scanners) (key : Option QiCrKey) (crypt : CryptConnection P) (t₀ : Int)
      (sets : List CollectionSet) (es : List Event), CryptConnection.withKey P key = .ok crypt →
      Answered (Lib.steps (step S) (start t₀ crypt sets) es) →
      ∀ x ∈ Lib.steps (step S) (start t₀ crypt sets) es, forced x = false := by
  intro hall
  have hcrypt : CryptConnection.withKey plainPlatform (some sampleKey) = .ok plainSupplicant := rfl
  obtain ⟨hans, x, hx, hforced⟩ := answeredSession_forced
  rw [hall _ _ _ _ 1000 [] answeredSession hcrypt hans x hx] at hforced
  cases hforced

end Qigong.Collect
