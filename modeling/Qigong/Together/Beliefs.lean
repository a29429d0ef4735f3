import Qigong.Collect.Watchdog
import Qigong.Crypt.Splitting
import Qigong.Together.Link

/-!
# What the collector believes, and how it is

The collector keeps, for each of its sets, how far the setup has come, and takes every
line that begins as an answer to its last command for the answer. The invariant
(`Beliefs`) says that it is right to: each set stands on the qigong as its state says;
one command at most is in flight or one answer; and the answer in flight is the one that
is waited for, and what it says has happened. Here it is kept by what the collector does
(`collector_beliefs`), unless that ends the session.
-/

namespace Qigong.Together

open Crypt Probe Probe.Globals
open Crypt.ChallengeState
open Crypt.CryptConnection (splitRecord)
open Collect (Command CSState CollectionSet CollectingConn Effect Traced PollEnv Op opStep nextToSend
  Sound Setup Gated Allowed Unsent MpCS)

variable {P : Platform} {S : Scanners} {B : Build} {blank ident : UInt8 → Bool}
variable {css : List Conf.CollectionSet} {keys : List Bytes}
variable {g g' : Globals} {c c' : CollectingConn P} {pcc : ConnId} {up down down' : List Bytes}
variable {effs : List (Effect P)}

/-! ## The invariant -/

/-- Is the line no greeting? -/
def isOrder (l : Bytes) : Bool := decide (l ≠ []) && !startsWith (str "qiging") l

theorem isOrder_nil : isOrder [] = false := by decide

/-- A line without a command greets. -/
theorem greets_of_not_isOrder {l : Bytes} (hl : NoEol l) (h : isOrder l = false) : Greets l := by
  by_cases hne : l = []
  · exact .inl hne
  · refine .inr ⟨hl, startsWith_iff.mp ?_⟩
    simpa [isOrder, hne] using h

/-- What is in flight behind a command: the command, or nothing where it was refused; or
its answer, which says how the set stands. -/
def InFlight (pcc : ConnId) (g : Globals) (s : CollectionSet) (cmd : Command)
    (up down : List Bytes) : Prop :=
  (down.filter isAck = [] ∧ (up.filter isOrder = [] ∨ up.filter isOrder = [commandLine s cmd])) ∨
  (up.filter isOrder = [] ∧ ∃ l, down.filter isAck = [l] ∧ cmd.wait_string <+: l ∧
    Standing pcc g s cmd.nextstate)

/-- **The invariant of a session that has its connection.** -/
structure Beliefs (pcc : ConnId) (g : Globals) (c : CollectingConn P) (up down : List Bytes) :
    Prop where
  standing : ∀ k s, c.mpcs.find? k = some s → Standing pcc g s s.state
  unended : ∀ l ∈ up, NoEol l
  idle : c.state ≠ .waiting → up.filter isOrder = [] ∧ down.filter isAck = []
  waiting : c.state = .waiting → ∀ k s cmd, nextToSend c.mpcs.entries = some (k, s, cmd) →
    InFlight pcc g s cmd up down

/-- The sets are sets of the configuration, in some state. -/
def Configured (css : List Conf.CollectionSet) (mpcs : MpCS) : Prop :=
  ∀ k s, mpcs.find? k = some s →
    ∃ cs ∈ css, k = cs.fullkey ∧ s = { cs.collecting with state := s.state }

/-- Sets that change in their states only. -/
theorem Configured.of_states {mpcs mpcs' : MpCS} (h : Configured css mpcs)
    (hs : ∀ k s', mpcs'.find? k = some s' →
      ∃ s, mpcs.find? k = some s ∧ s' = { s with state := s'.state }) : Configured css mpcs' := by
  intro k s' hs'
  obtain ⟨s, hfind, heq⟩ := hs k s' hs'
  obtain ⟨cs, hcs, hk, hset⟩ := h k s hfind
  refine ⟨cs, hcs, hk, ?_⟩
  rw [heq, hset]

/-- What is next to send is one of the sets. -/
theorem find?_of_nextToSend {mpcs : MpCS} (hst : Collect.Staged mpcs.entries) {k : Bytes}
    {s : CollectionSet} {cmd : Command} (h : nextToSend mpcs.entries = some (k, s, cmd)) :
    mpcs.find? k = some s ∧ s.state.command = some cmd := by
  rcases Collect.nextToSend_cases hst with
    ⟨hnone, -⟩ | ⟨done, k', s', rest, cmd', hes, hsome, hcmd, -, -⟩
  · rw [hnone] at h
    cases h
  · rw [hsome] at h
    obtain ⟨rfl, rfl, rfl⟩ : k' = k ∧ s' = s ∧ cmd' = cmd := by simpa using h
    refine ⟨Lib.OrdMap.find?_eq_some_iff.mpr ?_, hcmd⟩
    rw [hes]
    exact List.mem_append_right _ List.mem_cons_self

/-! ## The lines the collector says -/

theorem said_nil : said ([] : List (Effect P)) = [] := rfl

theorem said_append (e f : List (Effect P)) : said (e ++ f) = said e ++ said f :=
  List.flatMap_append

/-- Greetings added to what is in flight change nothing. -/
theorem Beliefs.greets (h : Beliefs pcc g c up down) {lines : List Bytes}
    (hlines : (∀ x ∈ lines, NoEol x) ∧ lines.filter isOrder = []) :
    Beliefs pcc g c (up ++ lines) down := by
  have hup : (up ++ lines).filter isOrder = up.filter isOrder := by
    rw [List.filter_append, hlines.2, List.append_nil]
  refine ⟨h.standing, fun l hl => (List.mem_append.mp hl).elim (h.unended l) (hlines.1 l), ?_, ?_⟩
  · rw [hup]
    exact h.idle
  · intro hw k s cmd hnext
    unfold InFlight
    rw [hup]
    exact h.waiting hw k s cmd hnext

/-- Only the sets and the state matter. -/
theorem Beliefs.of_eq (h : Beliefs pcc g c up down) (hmpcs : c'.mpcs = c.mpcs)
    (hstate : c'.state = c.state) : Beliefs pcc g c' up down := by
  refine ⟨?_, h.unended, ?_, ?_⟩
  · rw [hmpcs]
    exact h.standing
  · rw [hstate]
    exact h.idle
  · rw [hstate, hmpcs]
    exact h.waiting

theorem splitRecord_ended {line : Bytes} (hline : NoEol line) {a : UInt8} (ha : isEol a = true) :
    splitRecord [] (line ++ [a]) = [line] := by
  rw [CryptConnection.splitRecord_text [] [a] hline, List.nil_append, splitRecord, if_pos ha]

/-- A command is one line, which begins with its word. -/
theorem text_commandLine (hP : Conf.Punctuated blank ident)
    (hident : ∀ c, ident c = true → isEol c = false) {mmpcreators : MmpCreators}
    {cs : Conf.CollectionSet} (hcs : Makeable blank ident mmpcreators cs) (cmd : Command) :
    word cmd <+: commandLine cs.collecting cmd ∧ NoEol (commandLine cs.collecting cmd) ∧
      cmd.text cs.collecting = commandLine cs.collecting cmd ++ eos := by
  have hkey : NoEol cs.collecting.fullkey := noEol_of_identifier hident hcs.askable.fullkey.toIdentifier
  have hact : ∀ a, actOf cmd = some a → cmd.text cs.collecting
      = word cmd ++ ([32] ++ cs.collecting.fullkey) ++ eos → word cmd <+: commandLine cs.collecting cmd ∧
      NoEol (commandLine cs.collecting cmd) ∧
      cmd.text cs.collecting = commandLine cs.collecting cmd ++ eos := by
    intro a ha htext
    have hline := commandLine_act ha hkey
    refine ⟨hline ▸ List.prefix_append _ _, ?_, by rw [hline, htext]⟩
    rw [hline, noEol_append, noEol_append]
    refine ⟨?_, by decide, hkey⟩
    cases cmd <;> decide
  cases cmd with
  | create =>
    have hline := commandLine_create hP hcs
    refine ⟨hline ▸ List.prefix_append _ _, hline ▸ Conf.noEol_definition hP hcs.askable hcs.nul, ?_⟩
    rw [hline]
    exact Conf.create_text cs
  | delete => exact hact .delete rfl (by simp [Command.text, word, str])
  | activate => exact hact .activate rfl (by simp [Command.text, word, str])
  | sub => exact hact .sub rfl (by simp [Command.text, word, str])

/-- A line that begins with the word of a command is one. -/
theorem isOrder_of_word {cmd : Command} {l : Bytes} (h : word cmd <+: l) : isOrder l = true := by
  obtain ⟨rest, rfl⟩ := h
  cases cmd <;> rfl

/-- What a flush puts in flight, where nothing was left in `out`. -/
theorem said_flushText (hg : Gated c) (text : Bytes) :
    said (c.flushText text).2 = splitRecord [] text := by
  show splitRecord [] (c.crypt.out ++ text) ++ [] = _
  rw [hg.out, List.nil_append, List.append_nil]

/-! ## What the collector does -/

/-- A silent qigong is greeted, or the session ends. -/
theorem wake_beliefs (hg : Gated c) (h : Beliefs pcc g c up down) (env : PollEnv) :
    (c.wake env).1.state = .needtoconnect ∨
      Beliefs pcc g (c.wake env).1 (up ++ said (c.wake env).2) down := by
  rcases Collect.wake_cases env c with ⟨-, heq⟩ | ⟨-, -, heq⟩ | ⟨-, -, heq⟩ <;> rw [heq]
  · refine .inr ?_
    show Beliefs pcc g c (up ++ []) down
    rwa [List.append_nil]
  · let d : CollectingConn P := { c with lastlineread := env.now, nbwakeattempt := c.nbwakeattempt + 1 }
    have hd : Gated d := ⟨hg.accepted, hg.talking, hg.out⟩
    have hlines : said (d.flushText (str "qiging" ++ eosAddress)).2 = [str "qiging1"] :=
      (said_flushText hd _).trans (by decide)
    have hgreets : (∀ x ∈ said (d.flushText (str "qiging" ++ eosAddress)).2, NoEol x) ∧
        (said (d.flushText (str "qiging" ++ eosAddress)).2).filter isOrder = [] := by
      rw [hlines]
      decide
    exact .inr ((h.greets hgreets).of_eq rfl rfl)
  · exact .inl rfl

/-- The next command goes out, where nothing of the last one is in flight. -/
theorem pollReady_beliefs (hP : Conf.Punctuated blank ident)
    (hident : ∀ c, ident c = true → isEol c = false)
    (hmake : ∀ cs ∈ css, Makeable blank ident B.mmpcreators cs) (hg : Gated c)
    (hst : Collect.Staged c.mpcs.entries) (hconf : Configured css c.mpcs) (hs : c.state = .ready)
    (h : Beliefs pcc g c up down) : Beliefs pcc g c.pollReady.1 (up ++ said c.pollReady.2) down := by
  unfold CollectingConn.pollReady
  split
  case isTrue =>
    cases hnext : nextToSend c.mpcs.entries with
    | none =>
      dsimp only
      rw [said_nil, List.append_nil]
      exact h.of_eq rfl rfl
    | some x =>
      obtain ⟨k, s, cmd⟩ := x
      obtain ⟨hfind, -⟩ := find?_of_nextToSend hst hnext
      obtain ⟨cs, hcs, -, hset⟩ := hconf k s hfind
      obtain ⟨hword, hline, htext⟩ := text_commandLine hP hident (hmake cs hcs) cmd
      have hcommand : commandLine s cmd = commandLine cs.collecting cmd := by
        rw [hset]
        cases cmd <;> rfl
      have hsaid : said (c.flushText (cmd.text s)).2 = [commandLine s cmd] := by
        have hsame : cmd.text s = cmd.text cs.collecting := by
          rw [hset]
          cases cmd <;> rfl
        rw [said_flushText hg, hsame, htext, hcommand, eos]
        exact splitRecord_ended hline (by decide)
      obtain ⟨hup, hdown⟩ := h.idle (by rw [hs]; decide)
      show Beliefs pcc g _ (up ++ said (c.flushText (cmd.text s)).2) down
      rw [hsaid]
      refine ⟨h.standing, fun l hl => ?_, fun hw => absurd rfl hw, fun _ k' s' cmd' hnext' => ?_⟩
      · rcases List.mem_append.mp hl with hl | hl
        · exact h.unended l hl
        · rw [List.mem_singleton.mp hl, hcommand]
          exact hline
      · have hx := hnext.symm.trans hnext'
        obtain ⟨rfl, rfl, rfl⟩ : k = k' ∧ s = s' ∧ cmd = cmd' := by simpa using hx
        refine .inl ⟨hdown, .inr ?_⟩
        rw [List.filter_append, hup, List.nil_append, List.filter_cons_of_pos, List.filter_nil]
        rw [hcommand]
        exact isOrder_of_word hword
  case isFalse =>
    show Beliefs pcc g c (up ++ []) down
    rwa [List.append_nil]

/-- `poll` of a session that is given up says nothing: it stays so, or a new session begins. -/
theorem pollConnect_ends (hs : c.state = .needtoconnect) (env : PollEnv) :
    said (c.pollConnect env).2 = [] ∧ ((c.pollConnect env).1.state = .needtoconnect ∨
      (c.pollConnect env).1.state = .challenging ∧ restarts (c.pollConnect env).2 = true) := by
  unfold CollectingConn.pollConnect
  split
  · split
    · exact ⟨rfl, .inr ⟨rfl, rfl⟩⟩
    · exact ⟨rfl, .inl hs⟩
  · exact ⟨rfl, .inl hs⟩

theorem restarts_append (e f : List (Effect P)) :
    restarts (e ++ f) = (restarts e || restarts f) := List.any_append

/-- Within a session nothing begins one. -/
theorem restarts_eq_false (h : Collect.SameSession effs) : restarts effs = false := by
  refine List.any_eq_false.mpr fun x hx => ?_
  cases x with
  | session => exact absurd hx h
  | flushed _ | command _ _ | received _ _ _ | rrd_update _ _ _ => exact Bool.false_ne_true

theorem wake_sameSession (env : PollEnv) (c : CollectingConn P) :
    Collect.SameSession (c.wake env).2 := by
  rcases Collect.wake_cases env c with ⟨-, heq⟩ | ⟨-, -, heq⟩ | ⟨-, -, heq⟩ <;> rw [heq]
  · exact .nil
  · exact .flushed _
  · exact .nil

/-- The session is over, or another one starts. -/
def Ends (r : CollectingConn P × List (Effect P)) : Prop :=
  r.1.state = .needtoconnect ∨ (r.1.state = .challenging ∧ restarts r.2 = true)

/-- A poll ends the session, or keeps the invariant. -/
theorem poll_beliefs (hP : Conf.Punctuated blank ident)
    (hident : ∀ c, ident c = true → isEol c = false)
    (hmake : ∀ cs ∈ css, Makeable blank ident B.mmpcreators cs) (hg : Gated c)
    (hst : Collect.Staged c.mpcs.entries) (hconf : Configured css c.mpcs)
    (h : Beliefs pcc g c up down) (env : PollEnv) :
    Ends (c.poll env) ∨ (restarts (c.poll env).2 = false ∧
      Beliefs pcc g (c.poll env).1 (up ++ said (c.poll env).2) down) := by
  obtain ⟨hmpcs, -⟩ := Collect.wake_mpcs env c
  have hgw := (Collect.wake_gated hg env).1
  rw [Collect.poll_eq]
  by_cases hw : (c.wake env).1.state = .needtoconnect
  · refine .inl ?_
    unfold Collect.pollState
    rw [hw]
    -- what is given up is connected anew at best, and that is another session
    rcases (pollConnect_ends hw env).2 with hn | ⟨hc, hr⟩
    · exact .inl hn
    · refine .inr ⟨hc, ?_⟩
      dsimp only
      rw [restarts_append, hr, Bool.or_true]
  · have hb := (wake_beliefs hg h env).resolve_left hw
    have hsame : restarts (Collect.pollState env (c.wake env).1).2 = false := by
      rcases Collect.pollState_cases env (c.wake env).1 with ⟨-, hsame⟩ | ⟨hs, -⟩
      · exact restarts_eq_false hsame
      · exact absurd hs hw
    refine .inr ⟨?_, ?_⟩
    · rw [restarts_append, hsame, restarts_eq_false (wake_sameSession env c), Bool.or_false]
    · rw [said_append, ← List.append_assoc]
      unfold Collect.pollState
      have hnone : Beliefs pcc g (c.wake env).1
          (up ++ said (c.wake env).2 ++ said ([] : List (Effect P))) down := by
        rw [said_nil, List.append_nil]
        exact hb
      cases hs : (c.wake env).1.state with
      | ready => exact pollReady_beliefs hP hident hmake hgw (hmpcs ▸ hst) (hmpcs ▸ hconf) hs hb
      | needtoconnect => exact absurd hs hw
      | challenging | welcome | verify | waiting | timeout => exact hnone

/-- The session is over or has just begun: the application is not prompted yet. -/
def Unprompted (c : CollectingConn P) : Prop := c.state = .needtoconnect ∨ c.state = .challenging

/-- Before the first prompt `poll` says nothing. -/
theorem poll_unprompted (hg : Gated c) (hs : Unprompted c) (env : PollEnv) :
    Unprompted (c.poll env).1 ∧ said (c.poll env).2 = [] := by
  -- the watchdog wakes only a connection that collects, which none does before the prompt
  have hquiet : ¬ c.Silent env := by
    rintro ⟨-, hcoll, -⟩
    have htalk := hg.talking hcoll
    rcases hs with hs | hs <;> rw [hs] at htalk <;> cases htalk
  have hwake : c.wake env = (c, []) := if_neg hquiet
  unfold CollectingConn.poll
  rw [hwake]
  dsimp only
  rcases hs with hs | hs <;> rw [hs] <;> dsimp only <;> rw [List.nil_append]
  · obtain ⟨hsaid, hstate⟩ := pollConnect_ends hs env
    exact ⟨hstate.imp_right And.left, hsaid⟩
  · exact ⟨.inr hs, rfl⟩

/-- What `lineread` says to a line is a greeting. -/
theorem said_onLine (hout : c.crypt.out = []) (bufin : Bytes) :
    (∀ x ∈ said (c.onLine bufin).2, NoEol x) ∧ (said (c.onLine bufin).2).filter isOrder = [] := by
  have hnone : (∀ x ∈ said ([] : List (Effect P)), NoEol x) ∧
      (said ([] : List (Effect P))).filter isOrder = [] := ⟨nofun, rfl⟩
  -- what was kept back is nothing, so that only the greeting itself is said
  have hflush : ∀ (d : CollectingConn P) (text : Bytes), d.crypt.out = [] →
      ((∀ x ∈ splitRecord [] text, NoEol x) ∧ (splitRecord [] text).filter isOrder = []) →
      (∀ x ∈ said (d.flushText text).2, NoEol x) ∧
        (said (d.flushText text).2).filter isOrder = [] := by
    intro d text hd htext
    have hsaid : said (d.flushText text).2 = splitRecord [] text := by
      show splitRecord [] (d.crypt.out ++ text) ++ [] = _
      rw [hd, List.nil_append, List.append_nil]
    rwa [hsaid]
  unfold CollectingConn.onLine
  cases c.state with
  | welcome =>
    dsimp only
    split
    · exact hflush _ _ hout (by decide)
    · exact hflush _ _ hout (by decide)
  | verify =>
    dsimp only
    split
    · exact hnone
    · split <;> exact hflush _ _ hout (by decide)
  | waiting =>
    dsimp only
    split <;> exact hnone
  | ready | timeout | needtoconnect | challenging => exact hnone

/-- A line that is read is one acknowledgement less in flight, or none. -/
theorem acks_read {l : Bytes} (h : readFrom down [l] = some down') :
    down.filter isAck = [l].filter isAck ++ down'.filter isAck := readFrom_filter isAck_nil h

/-- The `switch` of `lineread`, on the next line in flight. -/
theorem onLine_beliefs {sent asked : List (Bytes × Command)}
    (hsetup : Collect.SetupAt keys c sent asked) (hout : c.crypt.out = [])
    (h : Beliefs pcc g c up down) {l : Bytes} (hread : readFrom down [l] = some down') :
    Beliefs pcc g (c.onLine l).1 (up ++ said (c.onLine l).2) down' := by
  have hsaid := said_onLine hout l
  have hacks := acks_read hread
  suffices hb : Beliefs pcc g (c.onLine l).1 up down' from hb.greets hsaid
  -- where nothing is waited for, reading a line leaves nothing in flight either
  have hidle : c.state ≠ .waiting → up.filter isOrder = [] ∧ down'.filter isAck = [] := by
    intro hw
    obtain ⟨hup, hdown⟩ := h.idle hw
    rw [hdown] at hacks
    exact ⟨hup, (List.append_eq_nil_iff.mp hacks.symm).2⟩
  have hphase := hsetup.phase
  unfold Collect.Phase at hphase
  rcases Collect.onLine_cases l c with
    ⟨text, st, n, heq, hst⟩ | ⟨hv, heq⟩ | ⟨hw, hline, mpcs, heq, hm⟩ | ⟨heq, -, -, hw⟩ <;> rw [heq]
  · -- another greeting
    obtain ⟨hne, hne'⟩ : c.state ≠ .waiting ∧ st ≠ .waiting := by
      rcases hst with ⟨hs, rfl | rfl⟩ | ⟨hs, rfl | rfl⟩ <;> rw [hs] <;> decide
    exact ⟨h.standing, h.unended, fun _ => hidle hne, fun hw => absurd hw hne'⟩
  · have hne : c.state ≠ .waiting := by
      rw [hv]
      decide
    exact ⟨h.standing, h.unended, fun _ => hidle hne, nofun⟩
  · -- the answer: it is the one in flight
    rw [hw] at hphase
    obtain ⟨k, s, cmd, hnext, hk, hstr, hns, -⟩ := hphase
    have hwait : cmd.wait_string <+: l := startsWith_iff.mp (hstr ▸ hline)
    have hack : isAck l = true := isAck_iff.mpr ⟨cmd, hwait⟩
    rw [List.filter_cons_of_pos hack, List.filter_nil] at hacks
    rcases h.waiting hw k s cmd hnext with ⟨hnone, -⟩ | ⟨hup, l', hl', -, hstanding⟩
    · rw [hnone] at hacks
      cases hacks
    · have hdown : down'.filter isAck = [] := (List.cons_eq_cons.mp (hl'.symm.trans hacks)).2.symm
      refine ⟨fun k' s' hs' => ?_, h.unended, fun _ => ⟨hup, hdown⟩, nofun⟩
      obtain rfl : mpcs = c.mpcs.modify k fun s => { s with state := cmd.nextstate } := by
        rcases hm with ⟨hnone', -⟩ | ⟨k₁, hk₁, rfl⟩
        · rw [hk] at hnone'
          cases hnone'
        · rw [hk] at hk₁
          rw [Option.some.inj hk₁, hns]
      dsimp only at hs'
      rw [Lib.OrdMap.find?_modify] at hs'
      obtain ⟨s₀, hs₀, rfl⟩ := Option.map_eq_some_iff.mp hs'
      -- the set of the command has the state that its answer tells of, the others are left
      by_cases hkk : k' = k
      · obtain ⟨hfind, -⟩ := find?_of_nextToSend hsetup.staged hnext
        obtain rfl : s = s₀ := Option.some.inj (hfind.symm.trans (hkk ▸ hs₀))
        rw [if_pos hkk]
        exact hstanding
      · rw [if_neg hkk]
        exact h.standing k' s₀ hs₀
  · refine ⟨h.standing, h.unended, hidle, fun hs k s cmd hnext => ?_⟩
    -- the line is no answer to the command
    rw [hs] at hphase
    obtain ⟨k₁, s₁, cmd₁, hnext₁, -, hstr, -⟩ := hphase
    have hx := hnext.symm.trans hnext₁
    obtain ⟨rfl, rfl, rfl⟩ : k = k₁ ∧ s = s₁ ∧ cmd = cmd₁ := by simpa using hx
    have hnot : ¬ cmd.wait_string <+: l := fun hp => by
      have hfalse := hw hs
      rw [hstr, startsWith_iff.mpr hp] at hfalse
      cases hfalse
    rcases h.waiting hs k s cmd hnext with ⟨hnone, hup⟩ | ⟨hup, l', hl', hp, hstanding⟩
    · rw [hnone] at hacks
      exact .inl ⟨(List.append_eq_nil_iff.mp hacks.symm).2, hup⟩
    · refine .inr ⟨hup, l', ?_, hp, hstanding⟩
      cases hack : isAck l with
      | true =>
        rw [List.filter_cons_of_pos hack, List.filter_nil, hl'] at hacks
        exact absurd ((List.cons_eq_cons.mp hacks).1 ▸ hp) hnot
      | false =>
        rw [List.filter_cons_of_neg (by rw [hack]; exact Bool.false_ne_true), List.filter_nil] at hacks
        exact hacks.symm.trans hl'

/-- What `lineread` does is what its `switch` does, to a connection that differs in its
clock and its memory of the rrds. -/
theorem lineread_switch {now : Int} {l : Bytes} (h : c.lineread S now l = .ok (c', effs)) :
    ∃ m, c' = (CollectingConn.onLine l { c with lastlineread := now, rrdlastupdate := m }).1 ∧
      said effs = said (CollectingConn.onLine l
        { c with lastlineread := now, rrdlastupdate := m }).2 := by
  obtain ⟨d, measured, rfl, rfl, hd⟩ := Collect.lineread_eq h
  rcases hd with ⟨-, -, hm⟩ | ⟨-, rfl, rfl⟩
  · obtain ⟨record, -, rfl, heff⟩ := Collect.measureLine_eq rfl hm
    refine ⟨_, rfl, ?_⟩
    cases record with
    | false =>
      rw [show measured = [] from heff]
      rfl
    | true =>
      obtain ⟨data, rfl⟩ : ∃ data, measured = _ := heff
      rfl
  · exact ⟨c.rrdlastupdate, rfl, rfl⟩

/-- A line the collector reads keeps the invariant: it asks again, takes an answer, or lets it
pass. -/
theorem lineread_beliefs {sent asked : List (Bytes × Command)} (hg : Gated c)
    (hsetup : Collect.SetupAt keys c sent asked) (h : Beliefs pcc g c up down) {now : Int} {l : Bytes}
    (hread : readFrom down [l] = some down') (hl : c.lineread S now l = .ok (c', effs)) :
    Beliefs pcc g c' (up ++ said effs) down' := by
  obtain ⟨m, rfl, hsaid⟩ := lineread_switch hl
  rw [hsaid]
  have hsetup' : Collect.SetupAt keys { c with lastlineread := now, rrdlastupdate := m } sent asked :=
    ⟨hsetup.keys, hsetup.staged, hsetup.phase, hsetup.fresh⟩
  exact onLine_beliefs hsetup' hg.out (h.of_eq rfl rfl) hread

/-- The lines of a record, one after the other. -/
theorem lines_beliefs {now : Int} {lines : List Bytes} {w w' : Traced P}
    (hw : Sound w ∧ Setup keys w) (hacc : w.conn.crypt.challenging = Accepted)
    (h : Beliefs pcc g w.conn up down) (hread : readFrom down lines = some down')
    (hrun : Lib.run (opStep S) w ((lines.map Call.lineread).map (Collect.callOp now)) = some w') :
    ∃ effs, w'.log = w.log ++ effs ∧ Collect.SameSession effs ∧
      Beliefs pcc g w'.conn (up ++ said effs) down' := by
  induction lines generalizing w up down with
  | nil =>
    obtain rfl := Option.some.inj hrun
    rw [readFrom] at hread
    obtain rfl := Option.some.inj hread
    refine ⟨[], (List.append_nil _).symm, .nil, ?_⟩
    rwa [said_nil, List.append_nil]
  | cons l ls ih =>
    rw [List.map_cons, List.map_cons, Lib.run_cons] at hrun
    obtain ⟨u, hu, hrest⟩ := Option.bind_eq_some_iff.mp hrun
    obtain ⟨mid, hmid, hread⟩ := readFrom_cons hread
    obtain ⟨effs, happ, hlog⟩ := Collect.opStep_eq_some_iff.mp hu
    -- the application is not prompted again, so that the steps keep to what the layer allows
    have hline : Op.lineread (P := P) now l ≠ .firstprompt := by
      intro heq
      cases heq
    have hu' : Sound u ∧ Setup keys u :=
      Collect.opStep_setup w (.lineread now l) u hw ⟨hacc, fun heq => absurd heq hline⟩ hu
    obtain ⟨sent, asked, -, hsetup⟩ := hw.2
    have hb : Beliefs pcc g u.conn (up ++ said effs) mid :=
      lineread_beliefs hw.1.1 hsetup h hmid happ
    obtain ⟨-, hacc', -⟩ := Collect.lineread_gated hw.1.1 hacc happ
    obtain ⟨effs', hlog', hsame', hb'⟩ := ih hu' hacc' hb hread hrest
    refine ⟨effs ++ effs', ?_, (Collect.lineread_keepsCount happ).2.append hsame', ?_⟩
    · rw [hlog', hlog, List.append_assoc]
    · rwa [said_append, ← List.append_assoc]

/-- No command waits for its answer when the application is prompted. -/
theorem Unsent.not_waiting {w : Traced P} (hu : Unsent w) (hs : Setup keys w) :
    w.conn.state ≠ .waiting := by
  obtain ⟨sent, asked, hb, -, rfl, -⟩ := hu
  obtain ⟨sent', asked', hb', hsetup⟩ := hs
  intro hw
  have hphase := hsetup.phase
  unfold Collect.Phase at hphase
  rw [hw] at hphase
  obtain ⟨k, s, cmd, -, -, -, -, -, hasked, -⟩ := hphase
  have hnone := hb.asked.symm.trans hb'.asked
  rw [hasked] at hnone
  cases hnone

theorem linesOf_linereads (lines : List Bytes) : linesOf (lines.map Call.lineread) = lines := by
  rw [linesOf, List.filterMap_map]
  exact List.filterMap_some

/-- **What the collector does** ends its session, or keeps the invariant. -/
theorem collector_beliefs (hP : Conf.Punctuated blank ident)
    (hident : ∀ c, ident c = true → isEol c = false)
    (hmake : ∀ cs ∈ css, Makeable blank ident B.mmpcreators cs) {w w' : Traced P}
    (hw : Sound w ∧ Setup keys w) (hconf : Configured css w.conn.mpcs)
    (h : Beliefs pcc g w.conn up down) {e : Collect.Event}
    (hread : readFrom down (linesOf (calls w.conn e)) = some down')
    (hstep : Collect.step S w e = some w') :
    ∃ effs, w'.log = w.log ++ effs ∧ (Ends (w'.conn, effs) ∨
      (restarts effs = false ∧ Beliefs pcc g w'.conn (up ++ said effs) down')) := by
  obtain ⟨l, hl, hrun⟩ := Collect.step_eq_some_iff.mp hstep
  have hmeet := (Collect.allowed_ops (S := S) hw.1.1 hl).and (Collect.prompted_ops hw.2 hl)
  obtain ⟨sent, asked, -, hsetup⟩ := hw.2
  cases e with
  | poll env =>
    obtain rfl := Except.ok.inj hl
    obtain rfl := Option.some.inj hread
    obtain rfl := Option.some.inj hrun
    exact ⟨_, rfl, poll_beliefs hP hident hmake hw.1.1 hsetup.staged hconf h env⟩
  | reconnect_hook now rand =>
    obtain rfl := Except.ok.inj hl
    obtain rfl := Option.some.inj hrun
    exact ⟨[], rfl, .inl (.inl rfl)⟩
  | line now env bytes =>
    obtain ⟨d, cs, hr, rfl⟩ := Collect.ops_line hl
    rw [calls_line hr] at hread
    rw [Lib.run_cons] at hrun
    obtain ⟨u, hu, hrest⟩ := Option.bind_eq_some_iff.mp hrun
    obtain ⟨hconn, hlog₀⟩ := Collect.opStep_beneath hu
    have hu' := Collect.opStep_setup w _ u hw hmeet.1 hu
    have hb : Beliefs pcc g u.conn up down := by
      rw [← hconn]
      exact h.of_eq rfl rfl
    have hmeet' := hmeet.2 u hu
    cases (Collect.react_line hr).2 with
    | silent =>
      obtain rfl := Option.some.inj hrest
      obtain rfl := Option.some.inj hread
      refine ⟨[], hlog₀.trans (List.append_nil _).symm, .inr ⟨rfl, ?_⟩⟩
      rwa [said_nil, List.append_nil]
    | accepted =>
      obtain rfl := Option.some.inj hrest
      obtain rfl := Option.some.inj hread
      refine ⟨u.conn.firstprompt.2, congrArg (· ++ _) hlog₀, .inr ⟨rfl, ?_⟩⟩
      obtain ⟨hup, hdown⟩ := hb.idle (Unsent.not_waiting (hmeet'.1.2 rfl) hu'.2)
      have hsaid : said u.conn.firstprompt.2 = splitRecord [] (str "qiging ?" ++ eos) :=
        said_flushText hu'.1.1 _
      -- the prompt is answered by a greeting, from a state in which nothing is in flight
      have hgreets : Beliefs pcc g u.conn.firstprompt.1 up down :=
        ⟨hb.standing, hb.unended, fun _ => ⟨hup, hdown⟩, nofun⟩
      refine hgreets.greets ?_
      rw [hsaid]
      decide
    | record temp hacc hacc' =>
      rw [linesOf_linereads] at hread
      have haccu : u.conn.crypt.challenging = Accepted := by
        rw [← hconn]
        exact hacc'
      obtain ⟨effs, hlog, hsame, hb'⟩ := lines_beliefs hu' haccu hb hread hrest
      exact ⟨effs, by rw [hlog, hlog₀], .inr ⟨restarts_eq_false hsame, hb'⟩⟩

/-! ## The collector's sets and sessions -/

/-- `poll` changes no set but in its state, which it sets back where a session starts. -/
theorem Configured.poll {c : CollectingConn P} (h : Configured css c.mpcs) (env : PollEnv) :
    Configured css (c.poll env).1.mpcs := by
  rw [Collect.poll_eq]
  show Configured css (Collect.pollState env (c.wake env).1).1.mpcs
  rw [← (Collect.wake_mpcs env c).1] at h
  generalize (c.wake env).1 = c at h
  unfold Collect.pollState
  cases c.state with
  | ready =>
    dsimp only [CollectingConn.pollReady]
    split
    · split <;> exact h
    · exact h
  | needtoconnect =>
    dsimp only [CollectingConn.pollConnect]
    split
    · split
      · refine h.of_states fun k s' hs' => ?_
        dsimp only at hs'
        rw [Lib.OrdMap.find?_mapVals] at hs'
        obtain ⟨s, hs, rfl⟩ := Option.map_eq_some_iff.mp hs'
        exact ⟨s, hs, rfl⟩
      · exact h
    · exact h
  | challenging | welcome | verify | waiting | timeout => exact h

/-- A line changes the state of the set that is waited for at most. -/
theorem Configured.onLine {c : CollectingConn P} (h : Configured css c.mpcs) (l : Bytes) :
    Configured css (c.onLine l).1.mpcs := by
  rcases Collect.onLine_cases l c with
    ⟨text, st, n, heq, -⟩ | ⟨-, heq⟩ | ⟨-, -, mpcs, heq, hm⟩ | ⟨heq, -⟩ <;> rw [heq]
  · exact h
  · exact h
  · rcases hm with ⟨-, rfl⟩ | ⟨k, -, rfl⟩
    · exact h
    · refine h.of_states fun k' s' hs' => ?_
      dsimp only at hs'
      rw [Lib.OrdMap.find?_modify] at hs'
      obtain ⟨s, hs, rfl⟩ := Option.map_eq_some_iff.mp hs'
      refine ⟨s, hs, ?_⟩
      split <;> rfl
  · exact h

/-- Nothing that happens to the collector changes its sets but in their states. -/
theorem opStep_configured (w : Traced P) (op : Op P) (w' : Traced P)
    (hw : Configured css w.conn.mpcs) (h : opStep S w op = some w') : Configured css w'.conn.mpcs := by
  obtain ⟨effs, happ, -⟩ := Collect.opStep_eq_some_iff.mp h
  cases op with
  | poll env =>
    obtain ⟨hc, -⟩ := Prod.mk.inj (Except.ok.inj happ)
    exact hc ▸ hw.poll env
  | reconnect_hook now rand =>
    obtain ⟨hc, -⟩ := Prod.mk.inj (Except.ok.inj happ)
    rw [← hc]
    unfold CollectingConn.reconnect_hook
    dsimp only
    split <;> exact hw
  | firstprompt | beneath d =>
    obtain ⟨hc, -⟩ := Prod.mk.inj (Except.ok.inj happ)
    rw [← hc]
    exact hw
  | lineread now l =>
    obtain ⟨m, hc, -⟩ := lineread_switch happ
    rw [hc]
    exact Configured.onLine (c := { w.conn with lastlineread := now, rrdlastupdate := m }) hw l

/-- The sets of the collector stay those of the configuration. -/
theorem step_configured (w : Traced P) (e : Collect.Event) (w' : Traced P)
    (hw : Configured css w.conn.mpcs) (h : Collect.step S w e = some w') :
    Configured css w'.conn.mpcs := by
  obtain ⟨l, -, hrun⟩ := Collect.step_eq_some_iff.mp h
  exact Lib.run_invariant (I := fun w : Traced P => Configured css w.conn.mpcs)
    opStep_configured hw hrun

theorem lines_unprompted {now : Int} {lines : List Bytes} {w w' : Traced P}
    (hw : Unprompted w.conn)
    (hrun : Lib.run (opStep S) w ((lines.map Call.lineread).map (Collect.callOp now)) = some w') :
    Unprompted w'.conn ∧ ∃ effs, w'.log = w.log ++ effs ∧ said effs = [] := by
  induction lines generalizing w with
  | nil =>
    obtain rfl := Option.some.inj hrun
    exact ⟨hw, [], (List.append_nil _).symm, rfl⟩
  | cons l ls ih =>
    rw [List.map_cons, List.map_cons, Lib.run_cons] at hrun
    obtain ⟨u, hu, hrest⟩ := Option.bind_eq_some_iff.mp hrun
    obtain ⟨effs, happ, hlog⟩ := Collect.opStep_eq_some_iff.mp hu
    obtain ⟨m, hc, hsaid⟩ := lineread_switch happ
    -- the line is not looked at
    have heq : CollectingConn.onLine l { w.conn with lastlineread := now, rrdlastupdate := m }
        = ({ w.conn with lastlineread := now, rrdlastupdate := m }, []) := by
      unfold CollectingConn.onLine
      rcases hw with hs | hs
      · dsimp only
        rw [hs]
      · dsimp only
        rw [hs]
    rw [heq] at hc hsaid
    have hu' : Unprompted u.conn := by
      rw [hc]
      exact hw
    obtain ⟨hw', effs', hlog', hsaid'⟩ := ih hu' hrest
    refine ⟨hw', effs ++ effs', ?_, ?_⟩
    · rw [hlog', hlog, List.append_assoc]
    · rw [said_append, hsaid, hsaid', said_nil, List.append_nil]

/-- Before it is prompted the collector says nothing. -/
theorem collector_unprompted {w w' : Traced P} (hw : Sound w) (hs : Unprompted w.conn)
    {e : Collect.Event} (hprompt : .firstprompt ∉ calls w.conn e)
    (hstep : Collect.step S w e = some w') :
    Unprompted w'.conn ∧ ∃ effs, w'.log = w.log ++ effs ∧ said effs = [] := by
  obtain ⟨l, hl, hrun⟩ := Collect.step_eq_some_iff.mp hstep
  cases e with
  | poll env =>
    obtain rfl := Except.ok.inj hl
    obtain rfl := Option.some.inj hrun
    obtain ⟨hstate, hsaid⟩ := poll_unprompted hw.1 hs env
    exact ⟨hstate, _, rfl, hsaid⟩
  | reconnect_hook now rand =>
    obtain rfl := Except.ok.inj hl
    obtain rfl := Option.some.inj hrun
    exact ⟨.inl rfl, [], rfl, rfl⟩
  | line now env bytes =>
    obtain ⟨d, cs, hr, rfl⟩ := Collect.ops_line hl
    rw [calls_line hr] at hprompt
    rw [Lib.run_cons] at hrun
    obtain ⟨u, hu, hrest⟩ := Option.bind_eq_some_iff.mp hrun
    obtain ⟨hconn, hlog₀⟩ := Collect.opStep_beneath hu
    have hu' : Unprompted u.conn := by
      rw [← hconn]
      exact hs
    cases (Collect.react_line hr).2 with
    | silent =>
      obtain rfl := Option.some.inj hrest
      exact ⟨hu', [], hlog₀.trans (List.append_nil _).symm, rfl⟩
    | accepted => exact absurd List.mem_cons_self hprompt
    | record temp =>
      obtain ⟨hw', effs, hlog, hsaid⟩ := lines_unprompted hu' hrest
      exact ⟨hw', effs, by rw [hlog, hlog₀], hsaid⟩

/-- A session begins where the connection is being made. -/
theorem step_restarts {w w' : Traced P} {e : Collect.Event} (hstep : Collect.step S w e = some w') :
    ∃ effs, w'.log = w.log ++ effs ∧ (restarts effs = true → w'.conn.state = .challenging) := by
  obtain ⟨l, hl, hrun⟩ := Collect.step_eq_some_iff.mp hstep
  have hnone : ∀ {effs : List (Effect P)}, Collect.SameSession effs →
      restarts effs = true → w'.conn.state = .challenging := by
    intro effs hsame hr
    rw [restarts_eq_false hsame] at hr
    cases hr
  cases e with
  | poll env =>
    obtain rfl := Except.ok.inj hl
    obtain rfl := Option.some.inj hrun
    refine ⟨_, rfl, fun hr => ?_⟩
    rw [Collect.poll_eq] at hr ⊢
    rcases Collect.pollState_cases env (w.conn.wake env).1 with ⟨-, hsame⟩ | ⟨-, hs, -⟩
    · rw [restarts_append, restarts_eq_false hsame,
        restarts_eq_false (wake_sameSession env w.conn)] at hr
      cases hr
    · exact hs
  | reconnect_hook now rand =>
    obtain rfl := Except.ok.inj hl
    obtain rfl := Option.some.inj hrun
    exact ⟨[], rfl, hnone .nil⟩
  | line now env bytes =>
    obtain ⟨d, cs, hr, rfl⟩ := Collect.ops_line hl
    rw [Lib.run_cons] at hrun
    obtain ⟨u, hu, hrest⟩ := Option.bind_eq_some_iff.mp hrun
    obtain ⟨-, hlog₀⟩ := Collect.opStep_beneath hu
    cases (Collect.react_line hr).2 with
    | silent =>
      obtain rfl := Option.some.inj hrest
      exact ⟨[], hlog₀.trans (List.append_nil _).symm, hnone .nil⟩
    | accepted =>
      obtain rfl := Option.some.inj hrest
      exact ⟨_, congrArg (· ++ _) hlog₀, hnone (.flushed _)⟩
    | record temp =>
      obtain ⟨-, effs, hlog, hsame⟩ := Collect.lines_keepsCount hrest
      exact ⟨effs, by rw [hlog, hlog₀], hnone hsame⟩

end Qigong.Together
