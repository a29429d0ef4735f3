import Qigong.Collect.Runs

/-!
# The setup of the collection sets

In a session the connection sends each set four commands, set after set in the order of
the keys, and one at a time: what it has sent is a first part of the schedule
(`schedule`), and it sends no command before the last one is answered.

The states of the sets say how far the setup has come (`Staged`, `answered`), and the
invariant (`Setup`) ties them, the connection's state and its `waiting_…` members to the
log of the session. It holds along every run, over reconnections and whatever lines are
received (`setup_discipline`).
-/

namespace Qigong.Collect

open Crypt CollectingConn
open Crypt.ChallengeState

variable {P : Platform}

/-! ## Commands and their answers in a log -/

/-- A session's log behind one more effect: a new session starts it afresh. -/
def extend (seg : List (Effect P)) : Effect P → List (Effect P)
  | .session => []
  | x => seg ++ [x]

/-- The log of the last session. -/
def lastSession (log : List (Effect P)) : List (Effect P) := log.foldl extend []

/-- The commands that are sent. -/
def commands (seg : List (Effect P)) : List (Bytes × Command) :=
  seg.filterMap fun
    | .command k cmd => some (k, cmd)
    | _ => none

/-- The commands not answered yet, behind one more effect. -/
def note (asked : List (Bytes × Command)) : Effect P → List (Bytes × Command)
  | .command k cmd => asked ++ [(k, cmd)]
  | .received bufin _ _ => asked.filter fun x => !startsWith x.2.wait_string bufin
  | _ => asked

/-- The commands sent behind which no line beginning with their `wait_string` has been
received. -/
def outstanding (seg : List (Effect P)) : List (Bytes × Command) := seg.foldl note []

/-- Each command is sent with no other outstanding. -/
def Disciplined (seg : List (Effect P)) : Prop :=
  ∀ pre k cmd post, seg = pre ++ .command k cmd :: post → outstanding pre = []

/-- Effects that neither send a command nor receive a line, within a session. -/
def Quiet (effs : List (Effect P)) : Prop :=
  ∀ x ∈ effs, (∃ b, x = .flushed b) ∨ ∃ n t d, x = .rrd_update n t d

theorem Quiet.nil : Quiet ([] : List (Effect P)) := fun _ h => (nomatch h)

theorem Quiet.flushed (b : CryptConnection P) : Quiet [.flushed b] := fun x hx => by
  obtain rfl := List.mem_singleton.mp hx
  exact .inl ⟨b, rfl⟩

theorem Quiet.append {e f : List (Effect P)} (he : Quiet e) (hf : Quiet f) : Quiet (e ++ f) :=
  fun x hx => (List.mem_append.mp hx).elim (he x) (hf x)

/-- The effects of a step extend the last session, or begin one. -/
theorem lastSession_append (log effs : List (Effect P)) :
    lastSession (log ++ effs) = effs.foldl extend (lastSession log) := List.foldl_append

theorem commands_append (seg effs : List (Effect P)) :
    commands (seg ++ effs) = commands seg ++ commands effs := List.filterMap_append ..

/-- And they note what is asked and answered. -/
theorem outstanding_append (seg effs : List (Effect P)) :
    outstanding (seg ++ effs) = effs.foldl note (outstanding seg) := List.foldl_append

/-- Without a new session they stand behind the last one. -/
theorem foldl_extend {effs : List (Effect P)} (h : ∀ x ∈ effs, x ≠ .session)
    (seg : List (Effect P)) : effs.foldl extend seg = seg ++ effs := by
  induction effs generalizing seg with
  | nil => exact (List.append_nil _).symm
  | cons x effs ih =>
    have hx : extend seg x = seg ++ [x] := by
      cases x with
      | session => exact absurd rfl (h _ List.mem_cons_self)
      | flushed | command | received | rrd_update => rfl
    rw [List.foldl_cons, hx, ih fun y hy => h y (List.mem_cons_of_mem _ hy), List.append_assoc]
    rfl

section Quiet

variable {effs : List (Effect P)}

theorem Quiet.ne_session (h : Quiet effs) : ∀ x ∈ effs, x ≠ .session := by
  rintro _ hx rfl
  rcases h _ hx with ⟨b, hb⟩ | ⟨n, t, d, hb⟩ <;> cases hb

theorem Quiet.commands (h : Quiet effs) : commands effs = [] := by
  refine List.filterMap_eq_nil_iff.mpr fun x hx => ?_
  rcases h x hx with ⟨b, rfl⟩ | ⟨n, t, d, rfl⟩ <;> rfl

/-- Quiet effects ask nothing and answer nothing. -/
theorem Quiet.foldl_note (h : Quiet effs) (asked : List (Bytes × Command)) :
    effs.foldl note asked = asked := by
  induction effs with
  | nil => rfl
  | cons x effs ih =>
    have hx : note asked x = asked := by
      rcases h x List.mem_cons_self with ⟨b, rfl⟩ | ⟨n, t, d, rfl⟩ <;> rfl
    rw [List.foldl_cons, hx]
    exact ih fun y hy => h y (List.mem_cons_of_mem _ hy)

end Quiet

/-- What comes without a command keeps the discipline. -/
theorem Disciplined.append {seg effs : List (Effect P)} (h : Disciplined seg)
    (he : commands effs = []) : Disciplined (seg ++ effs) := by
  intro pre k cmd post hsplit
  rcases List.append_eq_append_iff.mp hsplit with ⟨mid, rfl, hmid⟩ | ⟨mid, rfl, hmid⟩
  · have hmem : (k, cmd) ∈ commands effs :=
      List.mem_filterMap.mpr ⟨.command k cmd, by rw [hmid]; simp, rfl⟩
    rw [he] at hmem
    cases hmem
  · cases mid with
    | nil =>
      have hmem : (k, cmd) ∈ commands effs :=
        List.mem_filterMap.mpr ⟨.command k cmd, by
          rw [show effs = .command k cmd :: post from hmid.symm]
          exact List.mem_cons_self, rfl⟩
      rw [he] at hmem
      cases hmem
    | cons x mid =>
      obtain ⟨rfl, -⟩ := List.cons_eq_cons.mp hmid
      exact h pre k cmd mid rfl

/-- A command that is sent with none outstanding keeps it. -/
theorem Disciplined.command {seg : List (Effect P)} (h : Disciplined seg)
    (ho : outstanding seg = []) (k : Bytes) (cmd : Command) :
    Disciplined (seg ++ [.command k cmd]) := by
  intro pre k' cmd' post hsplit
  rcases List.append_eq_append_iff.mp hsplit with ⟨mid, rfl, hmid⟩ | ⟨mid, rfl, hmid⟩
  · cases mid with
    | nil =>
      rw [List.append_nil]
      exact ho
    | cons x mid =>
      have := congrArg List.length hmid
      simp at this
  · cases mid with
    | nil => rwa [List.append_nil] at ho
    | cons x mid =>
      obtain ⟨rfl, -⟩ := List.cons_eq_cons.mp hmid
      exact h pre k' cmd' mid rfl

/-- A line is received behind each command before the next one, and it is the answer. -/
theorem Disciplined.answered {seg : List (Effect P)} (h : Disciplined seg)
    {pre mid post : List (Effect P)} {k k' : Bytes} {cmd cmd' : Command}
    (hsplit : seg = pre ++ .command k cmd :: (mid ++ .command k' cmd' :: post)) :
    ∃ bufin now collecting, .received bufin now collecting ∈ mid ∧ cmd.wait_string <+: bufin := by
  have hnone : outstanding ((pre ++ [.command k cmd]) ++ mid) = [] :=
    h _ k' cmd' post (by rw [hsplit]; simp)
  rw [outstanding_append, outstanding_append] at hnone
  -- an unanswered command stays noted
  by_contra hno
  simp only [not_exists, not_and] at hno
  have hkeep : ∀ (effs : List (Effect P)) (asked : List (Bytes × Command)),
      (∀ bufin now collecting, .received bufin now collecting ∈ effs →
        ¬ cmd.wait_string <+: bufin) →
      (k, cmd) ∈ asked → (k, cmd) ∈ effs.foldl note asked := by
    intro effs
    induction effs with
    | nil => exact fun _ _ hmem => hmem
    | cons x effs ih =>
      intro asked hx hmem
      refine ih _ (fun b n c hb => hx b n c (List.mem_cons_of_mem _ hb)) ?_
      cases x with
      | command k'' cmd'' => exact List.mem_append_left _ hmem
      | received bufin now collecting =>
        refine List.mem_filter.mpr ⟨hmem, ?_⟩
        have hne := hx bufin now collecting List.mem_cons_self
        rw [← startsWith_iff] at hne
        simpa using hne
      | flushed | session | rrd_update => exact hmem
  have hin := hkeep mid (outstanding pre ++ [(k, cmd)]) hno
    (List.mem_append_right _ List.mem_cons_self)
  rw [show (outstanding pre ++ [(k, cmd)]) = [Effect.command (P := P) k cmd].foldl note
    (outstanding pre) from rfl, hnone] at hin
  cases hin

/-! ## How far the setup has come -/

/-- The commands that set one set up. -/
def setup : List Command := [.delete, .create, .activate, .sub]

/-- The commands that set all sets up. -/
def schedule (keys : List Bytes) : List (Bytes × Command) :=
  keys.flatMap fun k => setup.map fun cmd => (k, cmd)

/-- The commands answered for a set in this state. -/
def CSState.answered : CSState → List Command
  | .create_remote => [.delete]
  | .activate_remote => [.delete, .create]
  | .sub_remote => [.delete, .create, .activate]
  | .collect => setup
  | .del_remote_for_create | .unmatched | .del_remote | .unsub_remote => []

/-- The commands answered for all sets. -/
def answered (es : List (Bytes × CollectionSet)) : List (Bytes × Command) :=
  es.flatMap fun e => e.2.state.answered.map fun cmd => (e.1, cmd)

/-- The first sets are set up, one may be under way, and the others wait. -/
def Staged : List (Bytes × CollectionSet) → Prop
  | [] => True
  | (_, s) :: rest =>
    (s.state = .collect ∧ Staged rest) ∨
    (s.state.command.isSome = true ∧ ∀ e ∈ rest, e.2.state = .del_remote_for_create)

/-- An answered command takes its set one step on. -/
theorem CSState.command_spec {s : CSState} {cmd : Command} (h : s.command = some cmd) :
    cmd.nextstate.answered = s.answered ++ [cmd] ∧ s.answered ++ [cmd] <+: setup ∧
      (cmd.nextstate = .collect ∨ cmd.nextstate.command.isSome = true) := by
  cases s <;> cases h <;> exact ⟨rfl, by decide, by decide⟩

theorem schedule_append (ks ls : List Bytes) : schedule (ks ++ ls) = schedule ks ++ schedule ls :=
  List.flatMap_append

section Staged

variable {es done rest : List (Bytes × CollectionSet)} {k : Bytes} {s : CollectionSet}
  {cmd : Command}

theorem answered_append (es fs : List (Bytes × CollectionSet)) :
    answered (es ++ fs) = answered es ++ answered fs := List.flatMap_append

/-- Sets that wait have no command answered. -/
theorem answered_waiting (h : ∀ e ∈ es, e.2.state = .del_remote_for_create) : answered es = [] := by
  refine List.flatMap_eq_nil_iff.mpr fun e he => ?_
  rw [h e he]
  rfl

/-- Sets that are set up have all of them. -/
theorem answered_done (h : ∀ e ∈ es, e.2.state = .collect) :
    answered es = schedule (es.map Prod.fst) := by
  induction es with
  | nil => rfl
  | cons e es ih =>
    have hrest := ih fun f hf => h f (List.mem_cons_of_mem _ hf)
    rw [answered, List.flatMap_cons, h e List.mem_cons_self, ← answered, hrest]
    rfl

/-- Sets that all wait for their first command are in stages. -/
theorem staged_of_waiting (h : ∀ e ∈ es, e.2.state = .del_remote_for_create) : Staged es := by
  cases es with
  | nil => trivial
  | cons e es =>
    refine .inr ⟨?_, fun f hf => h f (List.mem_cons_of_mem _ hf)⟩
    rw [h e List.mem_cons_self]
    rfl

/-- And so are those behind sets that are done. -/
theorem staged_append (hdone : ∀ e ∈ done, e.2.state = .collect) (h : Staged rest) :
    Staged (done ++ rest) := by
  induction done with
  | nil => exact h
  | cons e done ih =>
    exact .inl ⟨hdone e List.mem_cons_self, ih fun f hf => hdone f (List.mem_cons_of_mem _ hf)⟩

/-- **What the loop of `poll` finds**: nothing, and all sets are set up; or the set under
way, or the first that waits, behind those set up. -/
theorem nextToSend_cases (h : Staged es) :
    (nextToSend es = none ∧ ∀ e ∈ es, e.2.state = .collect) ∨
    ∃ done k s rest cmd, es = done ++ (k, s) :: rest ∧ nextToSend es = some (k, s, cmd) ∧
      s.state.command = some cmd ∧ (∀ e ∈ done, e.2.state = .collect) ∧
      ∀ e ∈ rest, e.2.state = .del_remote_for_create := by
  induction es with
  | nil => exact .inl ⟨rfl, fun _ he => (nomatch he)⟩
  | cons e es ih =>
    obtain ⟨k, s⟩ := e
    rcases h with ⟨hs, hrest⟩ | ⟨hs, hrest⟩
    · have hnext : nextToSend ((k, s) :: es) = nextToSend es := by
        rw [nextToSend, hs]
        rfl
      rcases ih hrest with ⟨hnone, hall⟩ | ⟨done, k', s', rest, cmd, rfl, hsome, hcmd, hdone, hw⟩
      · refine .inl ⟨hnext.trans hnone, fun f hf => ?_⟩
        rcases List.mem_cons.mp hf with rfl | hf
        · exact hs
        · exact hall f hf
      · refine .inr ⟨(k, s) :: done, k', s', rest, cmd, rfl, hnext.trans hsome, hcmd,
          fun f hf => ?_, hw⟩
        rcases List.mem_cons.mp hf with rfl | hf
        · exact hs
        · exact hdone f hf
    · obtain ⟨cmd, hcmd⟩ := Option.isSome_iff_exists.mp hs
      exact .inr ⟨[], k, s, es, cmd, rfl, by rw [nextToSend, hcmd], hcmd,
        fun _ hf => (nomatch hf), hrest⟩

/-- The commands answered, with the set under way in front of what waits. -/
theorem answered_split (hdone : ∀ e ∈ done, e.2.state = .collect)
    (hw : ∀ e ∈ rest, e.2.state = .del_remote_for_create) :
    answered (done ++ (k, s) :: rest)
      = schedule (done.map Prod.fst) ++ s.state.answered.map fun cmd => (k, cmd) := by
  rw [answered_append, answered_done hdone, answered, List.flatMap_cons, ← answered,
    answered_waiting hw, List.append_nil]

/-- What is answered, and the command that comes next, begin the schedule. -/
theorem answered_prefix (h : Staged es) :
    answered es <+: schedule (es.map Prod.fst) ∧
    ∀ k s cmd, nextToSend es = some (k, s, cmd) →
      answered es ++ [(k, cmd)] <+: schedule (es.map Prod.fst) := by
  rcases nextToSend_cases h with ⟨hnone, hall⟩ | ⟨done, k, s, rest, cmd, rfl, hsome, hcmd, hdone, hw⟩
  · rw [answered_done hall, hnone]
    exact ⟨List.prefix_rfl, fun _ _ _ h => (nomatch h)⟩
  · obtain ⟨-, hpre, -⟩ := CSState.command_spec hcmd
    have hnext : answered (done ++ (k, s) :: rest) ++ [(k, cmd)]
        <+: schedule ((done ++ (k, s) :: rest).map Prod.fst) := by
      rw [answered_split hdone hw, List.map_append, schedule_append, List.append_assoc]
      refine (List.prefix_append_right_inj _).mpr ?_
      have hmap : s.state.answered.map (fun cmd => (k, cmd)) ++ [(k, cmd)]
          = (s.state.answered ++ [cmd]).map fun cmd => (k, cmd) := by
        rw [List.map_append]
        rfl
      rw [hmap, List.map_cons, schedule, List.flatMap_cons]
      exact (hpre.map _).trans (List.prefix_append _ _)
    refine ⟨(List.prefix_append _ _).trans hnext, fun k' s' cmd' h' => ?_⟩
    rw [hsome] at h'
    obtain ⟨rfl, rfl, rfl⟩ : k = k' ∧ s = s' ∧ cmd = cmd' := by simpa using h'
    exact hnext

end Staged

/-- **An answer takes the setup one command on.** -/
theorem staged_modify {mpcs : MpCS} {k : Bytes} {s : CollectionSet} {cmd : Command}
    (h : Staged mpcs.entries) (hnext : nextToSend mpcs.entries = some (k, s, cmd)) :
    Staged (mpcs.modify k fun s => { s with state := cmd.nextstate }).entries ∧
    answered (mpcs.modify k fun s => { s with state := cmd.nextstate }).entries
      = answered mpcs.entries ++ [(k, cmd)] := by
  rcases nextToSend_cases h with ⟨hnone, -⟩ | ⟨done, k', s', rest, cmd', hes, hsome, hcmd, hdone, hw⟩
  · rw [hnone] at hnext
    cases hnext
  · rw [hsome] at hnext
    obtain ⟨rfl, rfl, rfl⟩ : k' = k ∧ s' = s ∧ cmd' = cmd := by simpa using hnext
    obtain ⟨hans, -, hstate⟩ := CSState.command_spec hcmd
    rw [Lib.OrdMap.entries_modify hes, hes, answered_split hdone hw, answered_split hdone hw]
    refine ⟨staged_append hdone ?_, ?_⟩
    · -- `sub` was the last command of its set, any other one is followed by the next
      rcases hstate with hc | hc
      · exact .inl ⟨hc, staged_of_waiting hw⟩
      · exact .inr ⟨hc, hw⟩
    · rw [hans, List.map_append, List.append_assoc]
      rfl

/-! ## The invariant -/

/-- The commands sent in the last session of a log, and those outstanding. -/
structure Book (log : List (Effect P)) (sent asked : List (Bytes × Command)) : Prop where
  sent : commands (lastSession log) = sent
  asked : outstanding (lastSession log) = asked
  disciplined : Disciplined (lastSession log)

/-- No command has been sent, and all sets wait for theirs. -/
def Fresh (c : CollectingConn P) (sent asked : List (Bytes × Command)) : Prop :=
  sent = [] ∧ asked = [] ∧ (∀ e ∈ c.mpcs.entries, e.2.state = .del_remote_for_create) ∧
    (c.pending = true ∨ c.mpcs.entries = [])

/-- What the connection's state says of the commands. -/
def Phase (c : CollectingConn P) (sent asked : List (Bytes × Command)) : Prop :=
  match c.state with
  | .challenging | .welcome | .verify | .timeout => Fresh c sent asked
  | .ready => sent = answered c.mpcs.entries ∧ asked = [] ∧
      (c.pending = false → ∀ e ∈ c.mpcs.entries, e.2.state = .collect)
  | .waiting => ∃ k s cmd, nextToSend c.mpcs.entries = some (k, s, cmd) ∧
      c.waiting_pcs = some k ∧ c.wait_string = cmd.wait_string ∧
      c.waiting_pcs_nextstate = cmd.nextstate ∧
      sent = answered c.mpcs.entries ++ [(k, cmd)] ∧ asked = [(k, cmd)] ∧ c.pending = true
  | .needtoconnect => sent <+: schedule c.mpcs.keys ∧ asked.length ≤ 1

/-- How a log stands to a connection with the sets of these keys. -/
structure SetupAt (keys : List Bytes) (c : CollectingConn P) (sent asked : List (Bytes × Command)) :
    Prop where
  keys : c.mpcs.keys = keys
  staged : Staged c.mpcs.entries
  phase : Phase c sent asked
  fresh : c.crypt.challenging ≠ Accepted → Fresh c sent asked

/-- **The invariant of the setup.** -/
def Setup (keys : List Bytes) (w : Traced P) : Prop :=
  ∃ sent asked, Book w.log sent asked ∧ SetupAt keys w.conn sent asked

section Book

variable {log effs : List (Effect P)} {sent asked : List (Bytes × Command)}

/-- Quiet effects leave the book as it is. -/
theorem Book.quiet (h : Book log sent asked) (he : Quiet effs) : Book (log ++ effs) sent asked := by
  have hseg : lastSession (log ++ effs) = lastSession log ++ effs := by
    rw [lastSession_append, foldl_extend he.ne_session]
  refine ⟨?_, ?_, ?_⟩
  · rw [hseg, commands_append, he.commands, List.append_nil, h.sent]
  · rw [hseg, outstanding_append, he.foldl_note, h.asked]
  · rw [hseg]
    exact h.disciplined.append he.commands

/-- A line received takes the commands off that it answers. -/
theorem Book.received (h : Book log sent asked) (he : Quiet effs) (bufin : Bytes) (now : Int)
    (collecting : Bool) :
    Book (log ++ .received bufin now collecting :: effs) sent
      (asked.filter fun x => !startsWith x.2.wait_string bufin) := by
  have hseg : lastSession (log ++ [.received bufin now collecting])
      = lastSession log ++ [.received bufin now collecting] := lastSession_append _ _
  have hline : Book (log ++ [.received bufin now collecting]) sent
      (asked.filter fun x => !startsWith x.2.wait_string bufin) := by
    refine ⟨?_, ?_, ?_⟩
    · rw [hseg, commands_append, h.sent]
      exact List.append_nil _
    · rw [hseg, outstanding_append, h.asked]
      rfl
    · rw [hseg]
      exact h.disciplined.append rfl
  -- what a measure adds behind the line is quiet
  have := hline.quiet he
  rwa [List.append_assoc] at this

/-- A command is entered where none is outstanding. -/
theorem Book.command (h : Book log sent []) (he : Quiet effs) (k : Bytes) (cmd : Command) :
    Book (log ++ .command k cmd :: effs) (sent ++ [(k, cmd)]) [(k, cmd)] := by
  have hseg : lastSession (log ++ [.command k cmd]) = lastSession log ++ [.command k cmd] :=
    lastSession_append _ _
  have hsend : Book (log ++ [.command k cmd]) (sent ++ [(k, cmd)]) [(k, cmd)] := by
    refine ⟨?_, ?_, ?_⟩
    · rw [hseg, commands_append, h.sent]
      rfl
    · rw [hseg, outstanding_append, h.asked]
      rfl
    · rw [hseg]
      exact h.disciplined.command h.asked k cmd
  have := hsend.quiet he
  rwa [List.append_assoc] at this

/-- A session begins a new book. -/
theorem book_session (log : List (Effect P)) : Book (log ++ [.session]) [] [] := by
  have hseg : lastSession (log ++ [.session]) = ([] : List (Effect P)) := lastSession_append _ _
  refine ⟨by rw [hseg]; rfl, by rw [hseg]; rfl, ?_⟩
  rw [hseg]
  intro pre k cmd post h
  exact absurd h.symm (List.append_ne_nil_of_right_ne_nil _ (List.cons_ne_nil _ _))

end Book

section

variable {keys : List Bytes} {c : CollectingConn P} {sent asked : List (Bytes × Command)}

/-- In every phase the commands sent begin the schedule, and one is outstanding at most. -/
theorem SetupAt.weak (h : SetupAt keys c sent asked) :
    sent <+: schedule c.mpcs.keys ∧ asked.length ≤ 1 := by
  -- before the first command nothing is sent
  have hfresh : Fresh c sent asked → sent <+: schedule c.mpcs.keys ∧ asked.length ≤ 1 := by
    rintro ⟨rfl, rfl, -⟩
    exact ⟨List.nil_prefix, Nat.zero_le _⟩
  obtain ⟨hans, hnext⟩ := answered_prefix h.staged
  have hphase := h.phase
  unfold Phase at hphase
  cases hs : c.state with
  | challenging | welcome | verify | timeout =>
    rw [hs] at hphase
    exact hfresh hphase
  | ready =>
    rw [hs] at hphase
    obtain ⟨rfl, rfl, -⟩ := hphase
    exact ⟨hans, Nat.zero_le _⟩
  | waiting =>
    rw [hs] at hphase
    obtain ⟨k, s, cmd, hk, -, -, -, rfl, rfl, -⟩ := hphase
    exact ⟨hnext k s cmd hk, le_rfl⟩
  | needtoconnect =>
    rw [hs] at hphase
    exact hphase

/-- Where a change leaves alone what the setup is about. -/
theorem SetupAt.crypt (h : SetupAt keys c sent asked) {d : CryptConnection P}
    (hd : c.crypt.challenging = Accepted → d.challenging = Accepted) :
    SetupAt keys { c with crypt := d } sent asked :=
  ⟨h.keys, h.staged, h.phase, fun hne => h.fresh fun ha => hne (hd ha)⟩

/-- Giving the connection up changes no set. -/
theorem SetupAt.reconnect_hook (h : SetupAt keys c sent asked) (now : Int) (rand : Nat) :
    SetupAt keys (c.reconnect_hook now rand) sent asked := by
  have hweak := h.weak
  have hfresh := h.fresh
  unfold CollectingConn.reconnect_hook
  dsimp only
  split <;> exact ⟨h.keys, h.staged, hweak, hfresh⟩

variable {log : List (Effect P)}

theorem wake_setup (hb : Book log sent asked) (h : SetupAt keys c sent asked) (env : PollEnv) :
    Book (log ++ (c.wake env).2) sent asked ∧ SetupAt keys (c.wake env).1 sent asked := by
  unfold wake
  split
  · dsimp only
    split
    · exact ⟨hb.quiet (.flushed _), h.keys, h.staged, h.phase,
        fun hne => h.fresh fun ha => hne ((CryptConnection.flush_challenging _).trans ha)⟩
    · have hmid : SetupAt keys { c with lastlineread := env.now } sent asked :=
        ⟨h.keys, h.staged, h.phase, h.fresh⟩
      exact ⟨hb.quiet .nil, hmid.reconnect_hook env.now env.rand⟩
  · exact ⟨hb.quiet .nil, h⟩

/-- The next command is sent, and waited for. -/
theorem pollReady_setup (hb : Book log sent asked) (h : SetupAt keys c sent asked)
    (hs : c.state = .ready) (ha : c.crypt.challenging = Accepted) :
    ∃ sent' asked', Book (log ++ c.pollReady.2) sent' asked' ∧
      SetupAt keys c.pollReady.1 sent' asked' := by
  have hphase := h.phase
  unfold Phase at hphase
  rw [hs] at hphase
  obtain ⟨rfl, rfl, hall⟩ := hphase
  unfold pollReady
  by_cases hp : c.pending = true
  · rw [if_pos hp]
    -- either all sets collect, or one is at its next command
    rcases nextToSend_cases h.staged with ⟨hnone, hcollect⟩ | ⟨_, k, s, _, cmd, -, hsome, hcmd, -, -⟩
    · -- every set is set up
      rw [hnone]
      refine ⟨_, _, hb.quiet .nil, h.keys, h.staged, ?_, fun hne => absurd ha hne⟩
      unfold Phase
      dsimp only
      rw [hs]
      exact ⟨rfl, rfl, fun _ => hcollect⟩
    · rw [hsome]
      have hacc : (c.flushText (cmd.text s)).1.crypt.challenging = Accepted :=
        (CryptConnection.flush_challenging _).trans ha
      exact ⟨_, _, hb.command (.flushed _) k cmd, h.keys, h.staged,
        ⟨k, s, cmd, hsome, rfl, rfl, rfl, rfl, rfl, rfl⟩, fun hne => absurd hacc hne⟩
  · rw [if_neg hp]
    exact ⟨_, _, hb.quiet .nil, h⟩

/-- A new session begins with every set at its first command. -/
theorem pollConnect_setup (hb : Book log sent asked) (h : SetupAt keys c sent asked)
    (env : PollEnv) :
    ∃ sent' asked', Book (log ++ (c.pollConnect env).2) sent' asked' ∧
      SetupAt keys (c.pollConnect env).1 sent' asked' := by
  unfold pollConnect
  split
  · split
    · -- a session starts: all sets wait again
      have hwait : ∀ e ∈ (c.mpcs.mapVals fun _ s =>
          { s with state := .del_remote_for_create }).entries,
          e.2.state = CSState.del_remote_for_create := by
        intro e he
        obtain ⟨e', -, rfl⟩ := List.mem_map.mp he
        rfl
      refine ⟨_, _, book_session log, (Lib.OrdMap.keys_mapVals _ _).trans h.keys,
        staged_of_waiting hwait, ?_, fun _ => ?_⟩
      · exact ⟨rfl, rfl, hwait, .inl rfl⟩
      · exact ⟨rfl, rfl, hwait, .inl rfl⟩
    · exact ⟨_, _, hb.quiet .nil, h.keys, h.staged, h.phase, h.fresh⟩
  · exact ⟨_, _, hb.quiet .nil, h⟩

theorem poll_setup (hb : Book log sent asked) (h : SetupAt keys c sent asked) (hg : Gated c)
    (env : PollEnv) :
    ∃ sent' asked', Book (log ++ (c.poll env).2) sent' asked' ∧
      SetupAt keys (c.poll env).1 sent' asked' := by
  obtain ⟨hbw, hw⟩ := wake_setup hb h env
  have hgw := (wake_gated hg env).1
  unfold poll
  dsimp only
  rw [← List.append_assoc]
  -- a command is sent in `ready` only, a session begun in `needtoconnect` only
  cases hs : (c.wake env).1.state with
  | ready => exact pollReady_setup hbw hw hs (hgw.accepted (by rw [hs]; rfl))
  | needtoconnect => exact pollConnect_setup hbw hw env
  | challenging | welcome | verify | waiting | timeout => exact ⟨_, _, hbw.quiet .nil, hw⟩

/-- The `switch` of `lineread`, the line being in the log. -/
theorem onLine_setup {d : CollectingConn P} {bufin : Bytes} {now : Int} {collecting : Bool}
    {measured : List (Effect P)} (hb : Book log sent asked) (h : SetupAt keys d sent asked)
    (ha : d.crypt.challenging = Accepted) (hm : Quiet measured) :
    ∃ sent' asked',
      Book (log ++ .received bufin now collecting :: (measured ++ (d.onLine bufin).2)) sent' asked' ∧
      SetupAt keys (d.onLine bufin).1 sent' asked' := by
  have hphase := h.phase
  have hweak := h.weak
  unfold Phase at hphase
  -- a greeting, the end of it, the answer waited for, or any other line
  rcases onLine_cases bufin d with
    ⟨text, st, n, heq, hst⟩ | ⟨hs, heq⟩ | ⟨hs, hline, mpcs, heq, hm'⟩ |
    ⟨heq, hw, hv, hwait⟩ <;> rw [heq]
  · -- no command yet, before and behind the line
    have hfresh : Fresh d sent asked := by
      rcases hst with ⟨hs, -⟩ | ⟨hs, -⟩ <;>
      · rw [hs] at hphase
        exact hphase
    obtain ⟨rfl, rfl, hwaiting⟩ := hfresh
    refine ⟨_, _, hb.received (hm.append (.flushed _)) bufin now collecting, h.keys, h.staged, ?_,
      fun _ => ⟨rfl, rfl, hwaiting⟩⟩
    rcases hst with ⟨-, rfl | rfl⟩ | ⟨-, rfl | rfl⟩ <;> exact ⟨rfl, rfl, hwaiting⟩
  · rw [hs] at hphase
    obtain ⟨rfl, rfl, hwaiting, hpend⟩ := hphase
    refine ⟨_, _, hb.received (hm.append .nil) bufin now collecting, h.keys, h.staged, ?_,
      fun hne => absurd ha hne⟩
    refine ⟨(answered_waiting hwaiting).symm, rfl, fun hp e he => ?_⟩
    -- nothing is pending where there are no sets
    rcases hpend with hp' | hnone
    · exact absurd (hp.symm.trans hp') (by decide)
    · rw [show ({ d with state := .ready, is_collecting := true } : CollectingConn P).mpcs.entries
        = [] from hnone] at he
      cases he
  · rw [hs] at hphase
    obtain ⟨k, s, cmd, hnext, hk, hstr, hns, rfl, rfl, hpend⟩ := hphase
    have hmpcs : mpcs = d.mpcs.modify k fun s => { s with state := cmd.nextstate } := by
      rcases hm' with ⟨hnone, -⟩ | ⟨k', hk', rfl⟩
      · rw [hk] at hnone
        cases hnone
      · rw [hk] at hk'
        rw [Option.some.inj hk', hns]
    obtain ⟨hstaged, hans⟩ := staged_modify h.staged hnext
    have hb' := hb.received (hm.append .nil) bufin now collecting
    rw [hstr] at hline
    -- the answer takes its own command off, the only one outstanding
    have hgone : [(k, cmd)].filter (fun x => !startsWith x.2.wait_string bufin) = [] := by
      rw [List.filter_cons, hline]
      rfl
    rw [hgone] at hb'
    refine ⟨_, _, hb', ?_, ?_, ?_, fun hne => absurd ha hne⟩
    · show mpcs.keys = keys
      rw [hmpcs, Lib.OrdMap.keys_modify]
      exact h.keys
    · show Staged mpcs.entries
      rw [hmpcs]
      exact hstaged
    · refine ⟨?_, rfl, ?_⟩
      · show _ = answered mpcs.entries
        rw [hmpcs, hans]
      · exact fun hp => absurd (hp.symm.trans hpend) (by decide)
  · have hb' := hb.received (hm.append .nil) bufin now collecting
    refine ⟨_, _, hb', h.keys, h.staged, ?_, fun hne => absurd ha hne⟩
    unfold Phase
    cases hs : d.state with
    | welcome => exact absurd hs hw
    | verify => exact absurd hs hv
    | challenging | timeout =>
      rw [hs] at hphase
      obtain ⟨rfl, rfl, hrest⟩ := hphase
      exact ⟨rfl, rfl, hrest⟩
    | ready =>
      rw [hs] at hphase
      obtain ⟨hsent, rfl, hall⟩ := hphase
      exact ⟨hsent, rfl, hall⟩
    | waiting =>
      rw [hs] at hphase
      obtain ⟨k, s, cmd, hnext, hk, hstr, hns, hsent, rfl, hpend⟩ := hphase
      have hne := hwait hs
      rw [hstr] at hne
      refine ⟨k, s, cmd, hnext, hk, hstr, hns, hsent, ?_, hpend⟩
      rw [List.filter_cons, hne]
      rfl
    | needtoconnect =>
      exact ⟨hweak.1, (List.length_filter_le _ _).trans hweak.2⟩

/-- A line that answers the command moves its set on, any other one is let pass. -/
theorem lineread_setup {S : Scanners} {now : Int} {bufin : Bytes} {c' : CollectingConn P}
    {effs : List (Effect P)} (hb : Book log sent asked) (h : SetupAt keys c sent asked)
    (ha : c.crypt.challenging = Accepted) (hl : c.lineread S now bufin = .ok (c', effs)) :
    ∃ sent' asked', Book (log ++ effs) sent' asked' ∧ SetupAt keys c' sent' asked' := by
  obtain ⟨d, measured, rfl, rfl, hd⟩ := lineread_eq hl
  rcases hd with ⟨-, -, hm⟩ | ⟨-, rfl, rfl⟩
  · obtain ⟨record, -, rfl, heff⟩ := measureLine_eq rfl hm
    have hquiet : Quiet measured := by
      cases record with
      | false => rw [show measured = [] from heff]; exact .nil
      | true =>
        obtain ⟨data, rfl⟩ : ∃ data, measured = _ := heff
        intro x hx
        exact .inr ⟨_, _, _, List.mem_singleton.mp hx⟩
    exact onLine_setup hb ⟨h.keys, h.staged, h.phase, h.fresh⟩ ha hquiet
  · exact onLine_setup hb ⟨h.keys, h.staged, h.phase, h.fresh⟩ ha .nil

end

/-! ## Runs -/

variable {S : Scanners} {keys : List Bytes}

/-- No command has been sent in the session when the application is prompted. -/
def Unsent (w : Traced P) : Prop := ∃ sent asked, Book w.log sent asked ∧ Fresh w.conn sent asked

/-- **Step lemma**: an allowed operation keeps the invariant, the first prompt being
given before any command. -/
theorem opStep_setup (w : Traced P) (op : Op P) (w' : Traced P) (hw : Sound w ∧ Setup keys w)
    (ha : Allowed w.conn op ∧ (op = .firstprompt → Unsent w)) (h : opStep S w op = some w') :
    Sound w' ∧ Setup keys w' := by
  obtain ⟨hsound, sent, asked, hb, hs⟩ := hw
  refine ⟨opStep_sound w op w' hsound ha.1 h, ?_⟩
  obtain ⟨effs, happ, hlog⟩ := opStep_eq_some_iff.mp h
  unfold Setup
  rw [hlog]
  cases op with
  | poll env =>
    obtain ⟨hc, rfl⟩ := Prod.mk.inj (Except.ok.inj happ)
    rw [← hc]
    exact poll_setup hb hs hsound.1 env
  | reconnect_hook now rand =>
    obtain ⟨hc, rfl⟩ := Prod.mk.inj (Except.ok.inj happ)
    rw [← hc]
    exact ⟨_, _, hb.quiet .nil, hs.reconnect_hook now rand⟩
  | firstprompt =>
    obtain ⟨hc, rfl⟩ := Prod.mk.inj (Except.ok.inj happ)
    rw [← hc]
    obtain ⟨sent', asked', hb', hfresh⟩ := ha.2 rfl
    exact ⟨_, _, hb'.quiet (.flushed _), hs.keys, hs.staged, hfresh, fun _ => hfresh⟩
  | lineread now bufin => exact lineread_setup hb hs ha.1 happ
  | beneath d =>
    obtain ⟨hc, rfl⟩ := Prod.mk.inj (Except.ok.inj happ)
    rw [← hc]
    exact ⟨_, _, hb.quiet .nil, hs.crypt ha.1.1⟩

/-- The crypt layer prompts the application once in a session, before it has sent a
command. -/
theorem prompted_ops {w : Traced P} {e : Event} {l : List (Op P)} (hs : Setup keys w)
    (h : ops w.conn e = .ok l) :
    Lib.StepsMeet (opStep S) (fun w op => op = .firstprompt → Unsent w) w l := by
  cases e with
  | poll env =>
    obtain rfl := Except.ok.inj h
    exact ⟨fun h => (nomatch h), fun _ _ => trivial⟩
  | reconnect_hook now rand =>
    obtain rfl := Except.ok.inj h
    exact ⟨fun h => (nomatch h), fun _ _ => trivial⟩
  | line now env bytes =>
    obtain ⟨d, cs, hr, rfl⟩ := ops_line h
    refine ⟨fun h => (nomatch h), fun w' hw' => ?_⟩
    obtain ⟨hconn, hlog⟩ := opStep_beneath hw'
    cases (react_line hr).2 with
    | silent => trivial
    | accepted hbefore _ =>
      -- before the answer the handshake was not accepted, so nothing was sent
      obtain ⟨sent, asked, hb, hat⟩ := hs
      have hfresh := hat.fresh (by rw [hbefore]; decide)
      refine ⟨fun _ => ⟨sent, asked, ?_, ?_⟩, fun _ _ => trivial⟩
      · rw [hlog]
        exact hb
      · rw [← hconn]
        exact hfresh
    | record temp =>
      refine Lib.stepsMeet_of_mem (fun op hop _ => ?_) w'
      rintro rfl
      obtain ⟨call, hcall, hop⟩ := List.mem_map.mp hop
      obtain ⟨line, -, rfl⟩ := List.mem_map.mp hcall
      cases hop

theorem step_setup (w : Traced P) (e : Event) (w' : Traced P) (hw : Sound w ∧ Setup keys w)
    (h : step S w e = some w') : Sound w' ∧ Setup keys w' := by
  obtain ⟨l, hl, hrun⟩ := step_eq_some_iff.mp h
  exact Lib.Reaches.invariant opStep_setup hw
    ((allowed_ops hw.1.1 hl).and (prompted_ops hw.2 hl)) (.of_run hrun)

/-- The sets assigned wait, and are pending where there are any. -/
theorem start_fresh (now : Int) (crypt : CryptConnection P) (sets : List CollectionSet) :
    (∀ e ∈ (start now crypt sets).conn.mpcs.entries, e.2.state = .del_remote_for_create) ∧
    ((start now crypt sets).conn.pending = true ∨ (start now crypt sets).conn.mpcs.entries = []) ∧
    ∀ s ∈ sets, s.fullkey ∈ (start now crypt sets).conn.mpcs.keys := by
  have key : ∀ (ss : List CollectionSet) (c : CollectingConn P),
      (∀ e ∈ c.mpcs.entries, e.2.state = CSState.del_remote_for_create) →
      (c.pending = true ∨ c.mpcs.entries = []) →
      (∀ e ∈ (ss.foldl assign c).mpcs.entries, e.2.state = .del_remote_for_create) ∧
      ((ss.foldl assign c).pending = true ∨ (ss.foldl assign c).mpcs.entries = []) ∧
      ∀ k, k ∈ c.mpcs.keys ∨ (∃ s ∈ ss, s.fullkey = k) → k ∈ (ss.foldl assign c).mpcs.keys := by
    intro ss
    induction ss with
    | nil =>
      intro c hc hp
      refine ⟨hc, hp, fun k hk => hk.elim id fun ⟨s, hs, _⟩ => (nomatch hs)⟩
    | cons s ss ih =>
      intro c hc hp
      have hassign : ∀ e ∈ (c.assign s).mpcs.entries, e.2.state = CSState.del_remote_for_create := by
        intro e he
        rcases Lib.OrdMap.mem_insertIn he with rfl | he
        · rfl
        · exact hc e he
      obtain ⟨h1, h2, h3⟩ := ih (c.assign s) hassign (.inl rfl)
      refine ⟨h1, h2, fun k hk => h3 k ?_⟩
      have hin : ∀ k, k ∈ (c.assign s).mpcs.keys ↔ k = s.fullkey ∨ k ∈ c.mpcs.keys :=
        fun k => Lib.OrdMap.mem_keys_insert
      rcases hk with hk | ⟨s', hs', rfl⟩
      · exact .inl ((hin k).mpr (.inr hk))
      · rcases List.mem_cons.mp hs' with rfl | hs'
        · exact .inl ((hin _).mpr (.inl rfl))
        · exact .inr ⟨s', hs', rfl⟩
  obtain ⟨h1, h2, h3⟩ := key sets (construct now crypt) (fun e he => (nomatch he)) (.inr rfl)
  exact ⟨h1, h2, fun s hs => h3 s.fullkey (.inr ⟨s, hs, rfl⟩)⟩

/-- A connection begins before its first session. -/
theorem start_setup (now : Int) (crypt : CryptConnection P) (sets : List CollectionSet) :
    Setup (start now crypt sets).conn.mpcs.keys (start now crypt sets) := by
  obtain ⟨hwait, hpend, -⟩ := start_fresh now crypt sets
  obtain ⟨m, p, h⟩ := foldl_assign sets (construct now crypt)
  have hstate : (start now crypt sets).conn.state = .needtoconnect := by
    show (sets.foldl assign (construct now crypt)).state = _
    rw [h]
    rfl
  refine ⟨[], [], ⟨rfl, rfl, fun pre k cmd post hsplit => ?_⟩, rfl, staged_of_waiting hwait, ?_,
    fun _ => ⟨rfl, rfl, hwait, hpend⟩⟩
  · exact absurd hsplit.symm (List.append_ne_nil_of_right_ne_nil _ (List.cons_ne_nil _ _))
  · unfold Phase
    rw [hstate]
    exact ⟨List.nil_prefix, Nat.zero_le _⟩

/-! ## What a step sends -/

theorem wake_mpcs (env : PollEnv) (c : CollectingConn P) :
    (c.wake env).1.mpcs = c.mpcs ∧ commands (c.wake env).2 = [] := by
  unfold wake
  split
  · dsimp only
    split
    · exact ⟨rfl, rfl⟩
    · unfold CollectingConn.reconnect_hook
      dsimp only
      split <;> exact ⟨rfl, rfl⟩
  · exact ⟨rfl, rfl⟩

/-- The command sent is the next one of the sets. -/
theorem commands_pollReady {c : CollectingConn P} {k : Bytes} {cmd : Command}
    (h : (k, cmd) ∈ commands c.pollReady.2) : ∃ s, nextToSend c.mpcs.entries = some (k, s, cmd) := by
  unfold pollReady at h
  by_cases hp : c.pending = true
  · rw [if_pos hp] at h
    cases hnext : nextToSend c.mpcs.entries with
    | none => rw [hnext] at h; cases h
    | some x =>
      obtain ⟨k', s, cmd'⟩ := x
      rw [hnext] at h
      have hmem : (k, cmd) ∈ [(k', cmd')] := h
      obtain ⟨rfl, rfl⟩ := Prod.mk.inj (List.mem_singleton.mp hmem)
      exact ⟨s, rfl⟩
  · rw [if_neg hp] at h
    cases h

theorem commands_pollConnect (env : PollEnv) (c : CollectingConn P) :
    commands (c.pollConnect env).2 = [] := by
  unfold pollConnect
  split
  · split <;> rfl
  · rfl

/-- `poll` sends the command its loop finds, or none. -/
theorem commands_poll (env : PollEnv) (c : CollectingConn P) {k : Bytes} {cmd : Command}
    (h : (k, cmd) ∈ commands (c.poll env).2) :
    ∃ s, nextToSend c.mpcs.entries = some (k, s, cmd) := by
  obtain ⟨hmpcs, hwake⟩ := wake_mpcs env c
  unfold poll at h
  dsimp only at h
  rw [commands_append, hwake, List.nil_append] at h
  rw [← hmpcs]
  cases hs : (c.wake env).1.state with
  | ready =>
    rw [hs] at h
    exact commands_pollReady h
  | needtoconnect =>
    rw [hs] at h
    dsimp only at h
    rw [commands_pollConnect] at h
    cases h
  | challenging | welcome | verify | waiting | timeout =>
    rw [hs] at h
    cases h

theorem commands_lineread {now : Int} {bufin : Bytes} {c c' : CollectingConn P}
    {effs : List (Effect P)} (h : c.lineread S now bufin = .ok (c', effs)) :
    commands effs = [] := by
  obtain ⟨d, measured, -, rfl, hd⟩ := lineread_eq h
  have hm : commands measured = [] := by
    rcases hd with ⟨-, -, hm⟩ | ⟨-, -, rfl⟩
    · obtain ⟨record, -, -, heff⟩ := measureLine_eq rfl hm
      cases record with
      | false => rw [show measured = [] from heff]; rfl
      | true =>
        obtain ⟨data, rfl⟩ : ∃ data, measured = _ := heff
        rfl
    · rfl
  have hline : commands (d.onLine bufin).2 = [] := by
    rcases onLine_cases bufin d with
      ⟨text, st, n, heq, -⟩ | ⟨-, heq⟩ | ⟨-, -, mpcs, heq, -⟩ | ⟨heq, -⟩ <;>
    · rw [heq]
      rfl
  show commands ([_] ++ (measured ++ (d.onLine bufin).2)) = []
  rw [commands_append, commands_append, hm, hline]
  rfl

/-- Operations but `poll` send no command. -/
theorem run_commands {l : List (Op P)} (hl : ∀ op ∈ l, ∀ env, op ≠ .poll env) {w w' : Traced P}
    (h : Lib.run (opStep S) w l = some w') :
    ∃ effs, w'.log = w.log ++ effs ∧ commands effs = [] := by
  induction l generalizing w with
  | nil =>
    obtain rfl := Option.some.inj h
    exact ⟨[], (List.append_nil _).symm, rfl⟩
  | cons op l ih =>
    rw [Lib.run_cons] at h
    obtain ⟨w₁, hw₁, hrun⟩ := Option.bind_eq_some_iff.mp h
    obtain ⟨effs, hlog, heffs⟩ := ih (fun op' hop => hl op' (List.mem_cons_of_mem _ hop)) hrun
    obtain ⟨effs₁, happ, hlog₁⟩ := opStep_eq_some_iff.mp hw₁
    refine ⟨effs₁ ++ effs, by rw [hlog, hlog₁, List.append_assoc], ?_⟩
    have heffs₁ : commands effs₁ = [] := by
      cases op with
      | poll env => exact absurd rfl (hl _ List.mem_cons_self env)
      | lineread now bufin => exact commands_lineread happ
      | reconnect_hook | firstprompt | beneath =>
        obtain ⟨-, rfl⟩ := Prod.mk.inj (Except.ok.inj happ)
        rfl
    rw [commands_append, heffs₁, heffs]
    rfl

/-- What a step sends is what the loop of `poll` finds before it. -/
theorem step_commands {w w' : Traced P} {e : Event} (h : step S w e = some w') :
    ∃ effs, w'.log = w.log ++ effs ∧ ∀ k cmd, .command k cmd ∈ effs →
      ∃ s, nextToSend w.conn.mpcs.entries = some (k, s, cmd) := by
  have hmem : ∀ {effs : List (Effect P)} {k cmd}, .command k cmd ∈ effs → (k, cmd) ∈ commands effs :=
    fun hk => List.mem_filterMap.mpr ⟨_, hk, rfl⟩
  obtain ⟨l, hl, hrun⟩ := step_eq_some_iff.mp h
  have hnone : (∀ op ∈ l, ∀ env, op ≠ .poll env) →
      ∃ effs, w'.log = w.log ++ effs ∧ ∀ k cmd, .command k cmd ∈ effs →
        ∃ s, nextToSend w.conn.mpcs.entries = some (k, s, cmd) := by
    intro hops
    obtain ⟨effs, hlog, heffs⟩ := run_commands hops hrun
    refine ⟨effs, hlog, fun k cmd hk => ?_⟩
    have := hmem hk
    rw [heffs] at this
    cases this
  cases e with
  | poll env =>
    obtain rfl := Except.ok.inj hl
    rw [Lib.run_singleton] at hrun
    obtain ⟨effs, happ, hlog⟩ := opStep_eq_some_iff.mp hrun
    obtain ⟨-, rfl⟩ := Prod.mk.inj (Except.ok.inj happ)
    exact ⟨_, hlog, fun k cmd hk => commands_poll env w.conn (hmem hk)⟩
  | reconnect_hook now rand =>
    obtain rfl := Except.ok.inj hl
    refine hnone fun op hop env => ?_
    obtain rfl := List.mem_singleton.mp hop
    exact fun h => (nomatch h)
  | line now env bytes =>
    obtain ⟨d, cs, -, rfl⟩ := ops_line hl
    refine hnone fun op hop env' => ?_
    rcases List.mem_cons.mp hop with rfl | hop
    · exact fun h => (nomatch h)
    · obtain ⟨call, -, rfl⟩ := List.mem_map.mp hop
      cases call <;> exact fun h => (nomatch h)

/-- Of a first part of the schedule, the commands of one set. -/
theorem commands_of_set {ks : List Bytes} (hks : ks.Nodup) {sent : List (Bytes × Command)}
    (h : sent <+: schedule ks) (k : Bytes) :
    (sent.filter fun x => x.1 = k).map Prod.snd <+: setup := by
  refine ((h.filter fun x => decide (x.1 = k)).map Prod.snd).trans ?_
  clear h
  induction ks with
  | nil => exact List.nil_prefix
  | cons k' ks ih =>
    rw [schedule, List.flatMap_cons, List.filter_append, List.map_append]
    by_cases hk : k' = k
    · subst hk
      have hrest : (schedule ks).filter (fun x => decide (x.1 = k')) = [] := by
        refine List.filter_eq_nil_iff.mpr fun x hx => ?_
        obtain ⟨k'', hk'', hx⟩ := List.mem_flatMap.mp hx
        obtain ⟨cmd, -, rfl⟩ := List.mem_map.mp hx
        have hne : k'' ≠ k' := fun h => (List.nodup_cons.mp hks).1 (h ▸ hk'')
        simpa using hne
      rw [schedule] at hrest
      rw [hrest]
      simp [setup]
    · have hnone : (setup.map fun cmd => (k', cmd)).filter (fun x => decide (x.1 = k)) = [] := by
        simp [setup, hk]
      rw [hnone]
      exact ih (List.nodup_cons.mp hks).2

/-- **The discipline of the setup.** In every run, within a session: the commands sent
begin the schedule, each set's being delete, create, activate and sub in that order;
each is answered before the next; one is outstanding at most; none is sent for a set
while one with a smaller key is not set up; and where the connection is ready with
nothing pending, all sets are. -/
theorem setup_discipline {key : Option QiCrKey} {crypt : CryptConnection P} {now : Int}
    {sets : List CollectionSet} {es : List Event} {w : Traced P}
    (hcrypt : CryptConnection.withKey P key = .ok crypt)
    (h : Lib.run (step S) (start now crypt sets) es = some w) :
    commands (lastSession w.log) <+: schedule w.conn.mpcs.keys ∧
    (∀ k, ((commands (lastSession w.log)).filter fun x => x.1 = k).map Prod.snd
      <+: [.delete, .create, .activate, .sub]) ∧
    (∀ pre k cmd mid k' cmd' post,
      lastSession w.log = pre ++ .command k cmd :: (mid ++ .command k' cmd' :: post) →
      ∃ bufin now collecting, .received bufin now collecting ∈ mid ∧ cmd.wait_string <+: bufin) ∧
    (outstanding (lastSession w.log)).length ≤ 1 ∧
    (∀ e w', step S w e = some w' → ∃ effs, w'.log = w.log ++ effs ∧
      ∀ k cmd, .command k cmd ∈ effs → ∀ k' s', w.conn.mpcs.find? k' = some s' → k' < k →
        s'.state = .collect) ∧
    (w.conn.state = .ready → w.conn.pending = false →
      ∀ s ∈ sets, ∃ s', w.conn.mpcs.find? s.fullkey = some s' ∧ s'.state = .collect) := by
  obtain ⟨-, sent, asked, hb, hs⟩ := Lib.run_invariant step_setup
    ⟨start_sound hcrypt now sets, start_setup now crypt sets⟩ h
  obtain ⟨hpre, hone⟩ := hs.weak
  rw [← hb.sent] at hpre
  refine ⟨hpre, commands_of_set w.conn.mpcs.keys_nodup hpre,
    fun pre k cmd mid k' cmd' post hsplit => hb.disciplined.answered hsplit, by rwa [hb.asked],
    fun e w' he => ?_, fun hready hp s hmem => ?_⟩
  · obtain ⟨effs, hlog, hcmds⟩ := step_commands he
    refine ⟨effs, hlog, fun k cmd hk k' s' hfind hlt => ?_⟩
    obtain ⟨s, hnext⟩ := hcmds k cmd hk
    rcases nextToSend_cases hs.staged with
      ⟨hnone, -⟩ | ⟨done, k₁, s₁, rest, cmd₁, hes, hsome, -, hdone, -⟩
    · rw [hnone] at hnext
      cases hnext
    · rw [hsome] at hnext
      obtain ⟨rfl, rfl, rfl⟩ : k₁ = k ∧ s₁ = s ∧ cmd₁ = cmd := by simpa using hnext
      -- what has a smaller key stands in front
      have hsorted := w.conn.mpcs.sorted
      rw [hes, List.pairwise_append, List.pairwise_cons] at hsorted
      have hin := Lib.OrdMap.find?_eq_some_iff.mp hfind
      rw [hes] at hin
      rcases List.mem_append.mp hin with hin | hin
      · exact hdone _ hin
      · rcases List.mem_cons.mp hin with heq | hin
        · rw [(Prod.mk.inj heq).1] at hlt
          exact absurd hlt (lt_irrefl _)
        · exact absurd (hsorted.2.1.1 _ hin) (lt_asymm hlt)
  · have hphase := hs.phase
    unfold Phase at hphase
    rw [hready] at hphase
    obtain ⟨-, -, hall⟩ := hphase
    have hkey : s.fullkey ∈ w.conn.mpcs.keys := by
      rw [hs.keys]
      exact (start_fresh now crypt sets).2.2 s hmem
    obtain ⟨e, he, hek⟩ := List.mem_map.mp hkey
    exact ⟨e.2, Lib.OrdMap.find?_eq_some_iff.mpr (by rw [← hek]; exact he), hall hp e he⟩

/-- Two sets, the second of which has the smaller key. -/
def sampleSets : List CollectionSet :=
  [sampleSet, { sampleSet with key := str "db_load", fullkey := str "db_load" }]

/-- A session in which their commands are answered. -/
def sampleSetup : List Event :=
  sampleHello ++ (List.replicate 2 ["delete: 0 deletions performed.", "creation done.",
    "activate: 1 activation performed.", "subscribed to  it."]).flatten.flatMap
      (fun l => [polls, hears (str l)]) ++ [polls]

/-- It sets one set up behind the other, in the order of their keys. -/
theorem setup_discipline_sample :
    ∃ w, Lib.run (step sampleScanners) (start 1000 plainSupplicant sampleSets) sampleSetup = some w ∧
      commands (lastSession w.log) = schedule [str "db_load", str "web_load"] ∧
      (∀ k, ((commands (lastSession w.log)).filter fun x => x.1 = k).map Prod.snd
        <+: [.delete, .create, .activate, .sub]) ∧
      (outstanding (lastSession w.log)).length ≤ 1 ∧
      ∀ s ∈ sampleSets, ∃ s', w.conn.mpcs.find? s.fullkey = some s' ∧ s'.state = .collect := by
  have hany : (Lib.run (step sampleScanners) (start 1000 plainSupplicant sampleSets)
      sampleSetup).any (fun w => decide (w.conn.state = .ready ∧ w.conn.pending = false ∧
        commands (lastSession w.log) = schedule [str "db_load", str "web_load"])) = true := by
    decide +kernel
  obtain ⟨w, h, hw⟩ := (Option.any_eq_true _ _).mp hany
  obtain ⟨hready, hpending, hcommands⟩ := of_decide_eq_true hw
  have hcrypt : CryptConnection.withKey plainPlatform (some sampleKey) = .ok plainSupplicant := rfl
  obtain ⟨-, horder, -, hone, -, hall⟩ := setup_discipline hcrypt h
  exact ⟨w, h, hcommands, horder, hone, hall hready hpending⟩

end Qigong.Collect
