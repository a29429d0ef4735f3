import Qigong.Together.Beliefs

/-!
# What is collected is what was asked for

The invariant of a session holds along the runs of a collector and a qigong, whatever
order the two, the other connections and the schedule take their steps in
(`step_agreed`). So in every state of every run, where the session has its connection,
each set the collector has for set up is on the qigong as the configuration asks for it,
is scheduled, and is told to the connection (`collected_as_believed`). The other
connections only must not delete the sets.
-/

namespace Qigong.Together

open Crypt Probe Probe.Globals
open Collect (Command CSState CollectionSet CollectingConn Effect Traced nextToSend Sound Setup)

variable {P : Platform} {S : Scanners} {B : Build} {blank ident : UInt8 → Bool}
variable {css : List Conf.CollectionSet} {keys : List Bytes} {env : Env}
variable {g g' : Globals} {c : CollectingConn P} {pcc : ConnId} {up up' down : List Bytes}

/-! ## What the qigong does -/

/-- A set stands as it does whatever state the collector has it in. -/
theorem standing_state {s : CollectionSet} {x st : CSState} :
    Standing pcc g { s with state := x } st ↔ Standing pcc g s st := by
  cases st <;> exact Iff.rfl

/-- The qigong leaves the sets as they stand, and acknowledges nothing. -/
theorem Beliefs.tells (h : Beliefs pcc g c up down) (hst : Collect.Staged c.mpcs.entries)
    (hstand : ∀ k s, c.mpcs.find? k = some s → ∀ st, Standing pcc g s st → Standing pcc g' s st)
    (htold : (told pcc g g').filter isAck = []) : Beliefs pcc g' c up (down ++ told pcc g g') := by
  have hdown : (down ++ told pcc g g').filter isAck = down.filter isAck := by
    rw [List.filter_append, htold, List.append_nil]
  refine ⟨fun k s hs => hstand k s hs _ (h.standing k s hs), h.unended, ?_, ?_⟩
  · rw [hdown]
    exact h.idle
  · intro hw k s cmd hnext
    unfold InFlight
    rw [hdown]
    rcases h.waiting hw k s cmd hnext with hl | ⟨hup, l, hl, hp, hs⟩
    · exact .inl hl
    · obtain ⟨hfind, -⟩ := find?_of_nextToSend hst hnext
      exact .inr ⟨hup, l, hl, hp, hstand k s hfind _ hs⟩

/-- A greeting of the collector is read. -/
theorem Beliefs.read_greeting (h : Beliefs pcc g c up down) {l : Bytes} (hl : isOrder l = false)
    (hread : readFrom up [l] = some up') : Beliefs pcc g c up' down := by
  have hup : up.filter isOrder = up'.filter isOrder := by
    rw [readFrom_filter isOrder_nil hread, List.filter_cons_of_neg (by rw [hl]; exact Bool.false_ne_true)]
    rfl
  refine ⟨h.standing, fun l hl => h.unended l (readFrom_subset hread hl), ?_, ?_⟩
  · rw [← hup]
    exact h.idle
  · intro hw k s cmd hnext
    unfold InFlight
    rw [← hup]
    exact h.waiting hw k s cmd hnext

/-- What is deployed: the scanners read as their documentation says, and the qigong can
make the sets of the configuration. -/
structure Deployed (S : Scanners) (B : Build) (blank ident : UInt8 → Bool)
    (css : List Conf.CollectionSet) : Prop where
  documented : S.Documented blank ident
  readsDigits : S.ReadsDigits blank
  punctuated : Conf.Punctuated blank ident
  unbroken : ∀ c, ident c = true → isEol c = false
  greeting : Greeting B.version
  makeable : ∀ cs ∈ css, Makeable blank ident B.mmpcreators cs

/-- The qigong's stores agree, nothing is left to flush, and its sets have identifiers for
names. -/
def Serving (blank ident : UInt8 → Bool) (g : Globals) : Prop :=
  (Linked g ∧ Hushed g) ∧ Named blank ident g

/-- What the qigong serves by is kept by its events. -/
theorem step_serving (hS : S.Documented blank ident) (g : Globals) (e : Probe.Event) (g' : Globals)
    (h : Serving blank ident g) (hstep : Probe.step S B g e = some g') : Serving blank ident g' :=
  ⟨step_hushed h.1 hstep, step_named hS h.2 hstep⟩

/-- **The qigong serves the next line of the collector.** -/
theorem served_beliefs (hD : Deployed S B blank ident css) (hg : Serving blank ident g)
    {sent asked : List (Bytes × Command)} (hsetup : Collect.SetupAt keys c sent asked)
    (hconf : Configured css c.mpcs) (h : Beliefs pcc g c up down) (henv : Measured env) {l : Bytes}
    (hread : readFrom up [l] = some up') (hstep : Probe.step S B g (.line pcc env l) = some g') :
    Beliefs pcc g' c up' (down ++ told pcc g g') := by
  have hline : NoEol l := (mem_of_readFrom hread).elim (fun h => h ▸ noEol_nil) (h.unended l)
  cases horder : isOrder l with
  | false =>
    have hgreets := greets_of_not_isOrder hline horder
    refine (h.read_greeting horder hread).tells hsetup.staged (fun k s _ st hst => ?_)
      (told_unacked (served_greeting hD.documented unpicked_isAck hgreets hg.1 hstep))
    exact step_standing hD.documented hg.1.1 (spares_greeting hD.documented hgreets _) hstep hst
  | true =>
    have horders : up.filter isOrder = l :: up'.filter isOrder := by
      rw [readFrom_filter isOrder_nil hread, List.filter_cons_of_pos horder]
      rfl
    -- only the command that waits for its answer is in flight
    have hw : c.state = .waiting := by
      by_contra hw
      rw [(h.idle hw).1] at horders
      cases horders
    have hphase := hsetup.phase
    unfold Collect.Phase at hphase
    rw [hw] at hphase
    obtain ⟨k, s, cmd, hnext, -⟩ := hphase
    obtain ⟨hfind, hcmd⟩ := find?_of_nextToSend hsetup.staged hnext
    obtain ⟨cs, hcs, rfl, hset⟩ := hconf k s hfind
    obtain ⟨hdown, hup⟩ : down.filter isAck = [] ∧ up.filter isOrder = [commandLine s cmd] := by
      rcases h.waiting hw _ s cmd hnext with ⟨hdown, hnone | hup⟩ | ⟨hnone, -⟩
      · rw [hnone] at horders
        cases horders
      · exact ⟨hdown, hup⟩
      · rw [hnone] at horders
        cases horders
    have hcommand : commandLine s cmd = commandLine cs.collecting cmd := by
      rw [hset]
      cases cmd <;> rfl
    obtain ⟨hl, hup'⟩ := List.cons_eq_cons.mp (hup.symm.trans horders)
    obtain rfl : l = commandLine cs.collecting cmd := hl.symm.trans hcommand
    have hkey : Identifier blank ident cs.collecting.fullkey :=
      (hD.makeable cs hcs).askable.fullkey.toIdentifier
    have hstanding : Standing pcc g cs.collecting s.state := by
      have hs := h.standing _ s hfind
      rw [hset] at hs
      exact standing_state.mp hs
    have hserved := served_command hD.documented hD.readsDigits hD.punctuated hD.unbroken hg.1 hg.2
      henv (hD.makeable cs hcs) hcmd hstanding hstep
    refine ⟨fun k' s' hs' => ?_, fun l hl => h.unended l (readFrom_subset hread hl),
      fun hne => absurd hw hne, fun _ k₁ s₁ cmd₁ hnext₁ => ?_⟩
    · -- a set that the command does not delete
      have hspared : (cmd = .delete → s'.fullkey ≠ cs.collecting.fullkey) →
          Standing pcc g' s' s'.state := fun hne =>
        step_standing hD.documented hg.1.1 (spares_commandLine hD.documented hkey
          (noEol_of_identifier hD.unbroken hkey) hne) hstep (h.standing k' s' hs')
      by_cases hdelete : cmd = .delete ∧ s'.fullkey = cs.collecting.fullkey
      · obtain ⟨rfl, hkeys⟩ := hdelete
        obtain ⟨cs', -, rfl, hset'⟩ := hconf k' s' hs'
        have hfull : s'.fullkey = cs'.fullkey := by
          rw [hset']
          rfl
        obtain rfl : s = s' := by
          have hsame : cs'.fullkey = cs.fullkey := hfull.symm.trans hkeys
          rw [hsame, hfind] at hs'
          exact Option.some.inj hs'
        cases hst : s.state with
        | del_remote_for_create | unmatched | del_remote | create_remote | unsub_remote => trivial
        | activate_remote | sub_remote | collect =>
          rw [hst] at hcmd
          cases hcmd
      · exact hspared fun hc hk => hdelete ⟨hc, hk⟩
    · have hx := hnext.symm.trans hnext₁
      obtain ⟨-, rfl, rfl⟩ : cs.fullkey = k₁ ∧ s = s₁ ∧ cmd = cmd₁ := by simpa using hx
      unfold InFlight
      rw [List.filter_append, hdown, List.nil_append]
      rcases hserved with hnone | ⟨answer, hans, hp, hst⟩
      · exact .inl ⟨hnone, .inl hup'.symm⟩
      · refine .inr ⟨hup'.symm, answer, hans, hp, ?_⟩
        rw [hset]
        exact standing_state.mpr hst

/-! ## The runs of the two -/

/-- The event deletes the set of this name. -/
def Deletes (S : Scanners) (n : Bytes) : Probe.Event → Prop
  | .line _ _ bufin => lineWord S bufin = str "delete" ∧ n ∈ idents S bufin
  | .connected _ _ | .firstprompt _ | .destroyed _ | .select_poll _ => False

/-- Another connection spares a set that it does not delete. -/
theorem spares_of_not_deletes {n : Bytes} {e : Probe.Event} (hne : connOf e ≠ some pcc)
    (h : ¬ Deletes S n e) : Spares S n pcc e := by
  cases e with
  | line pcc' env bufin => exact ⟨fun hw hn => h ⟨hw, hn⟩, fun _ hpcc => hne (congrArg some hpcc)⟩
  | destroyed pcc' => exact fun hpcc => hne (congrArg some hpcc)
  | connected | firstprompt | select_poll => trivial

/-- The measure functions give no line ends, and while a session has its connection no
other one deletes a set of the configuration. -/
def Undisturbed (S : Scanners) (css : List Conf.CollectionSet) (s : State P) : Event → Prop
  | .served env _ => Measured env
  | .other e => ∀ pcc, s.link = .linked pcc → MeasuredIn e ∧ ∀ cs ∈ css, ¬ Deletes S cs.fullkey e
  | .collector _ | .accepted _ _ | .prompted | .dropped => True

/-- What holds of a session, by its link. -/
def LinkAgrees (s : State P) : Prop :=
  match s.link with
  | .unlinked => Unprompted s.collector.conn ∧ s.up = [] ∧ s.down = []
  | .linked pcc => Beliefs pcc s.probe s.collector.conn s.up s.down
  | .lost => True

/-- **The invariant of the two.** -/
structure Agreed (blank ident : UInt8 → Bool) (css : List Conf.CollectionSet) (keys : List Bytes)
    (s : State P) : Prop where
  collector : Sound s.collector ∧ Setup keys s.collector
  configured : Configured css s.collector.conn.mpcs
  probe : Serving blank ident s.probe
  link : LinkAgrees s

theorem LinkAgrees.linked {s : State P} (h : LinkAgrees s) (hl : s.link = .linked pcc) :
    Beliefs pcc s.probe s.collector.conn s.up s.down := by
  unfold LinkAgrees at h
  rwa [hl] at h

theorem linkAgrees_linked {s : State P} (hl : s.link = .linked pcc)
    (h : Beliefs pcc s.probe s.collector.conn s.up s.down) : LinkAgrees s := by
  unfold LinkAgrees
  rwa [hl]

/-- The collector's step, by the link before it. -/
theorem moves_agrees (hD : Deployed S B blank ident css) {s : State P}
    (h : Agreed blank ident css keys s) {e : Collect.Event} {w : Traced P}
    (hprompt : .firstprompt ∈ calls s.collector.conn e → ∃ pcc, s.link = .linked pcc)
    (hread : readFrom s.down (linesOf (calls s.collector.conn e)) = some down)
    (hstep : Collect.step S s.collector e = some w) : LinkAgrees (s.moves w down) := by
  have hlink := h.link
  obtain ⟨effs, hlog, hrestarts⟩ := step_restarts hstep
  have hdrop : ∀ {effs'}, w.log = s.collector.log ++ effs' → effs' = effs := fun h' =>
    List.append_cancel_left (h'.symm.trans hlog)
  unfold State.moves
  rw [hlog, List.drop_left]
  dsimp only
  split
  case isTrue hends => exact ⟨hends.imp_right hrestarts, rfl, rfl⟩
  case isFalse hgoes =>
    unfold LinkAgrees at hlink ⊢
    dsimp only
    -- before the connection nothing was said; behind it, the two agree as long as it lasts
    cases hl : s.link with
    | unlinked =>
      rw [hl] at hlink
      obtain ⟨hun, hup, hdown⟩ := hlink
      have hnone : .firstprompt ∉ calls s.collector.conn e := by
        intro hcall
        obtain ⟨pcc, hpcc⟩ := hprompt hcall
        rw [hl] at hpcc
        cases hpcc
      obtain ⟨hun', effs', hlog', hsaid⟩ := collector_unprompted h.collector.1 hun hnone hstep
      obtain rfl := hdrop hlog'
      refine ⟨hun', by rw [hup, hsaid, List.append_nil], ?_⟩
      rw [hdown] at hread
      exact List.subset_nil.mp (readFrom_subset hread)
    | linked pcc =>
      rw [hl] at hlink
      obtain ⟨effs', hlog', hends | ⟨-, hb⟩⟩ := collector_beliefs hD.punctuated hD.unbroken
        hD.makeable h.collector h.configured hlink hread hstep
      · obtain rfl := hdrop hlog'
        exact absurd (hends.imp_right And.right) hgoes
      · obtain rfl := hdrop hlog'
        exact hb
    | lost => trivial

/-- **Step lemma**: every step of the two keeps the invariant. -/
theorem step_agreed (hD : Deployed S B blank ident css) (s : State P) (e : Event) (s' : State P)
    (h : Agreed blank ident css keys s) (he : Undisturbed S css s e)
    (hstep : step S B s e = some s') : Agreed blank ident css keys s' := by
  -- what holds of each side alone is kept by its own steps
  obtain ⟨⟨hcoll, hconf⟩, hprobe⟩ := run_sides
    (I := fun w : Traced P => (Sound w ∧ Setup keys w) ∧ Configured css w.conn.mpcs)
    (J := Serving blank ident)
    (fun w e w' hw hs => ⟨Collect.step_setup w e w' hw.1 hs, step_configured w e w' hw.2 hs⟩)
    (step_serving hD.documented) s e s' ⟨⟨h.collector, h.configured⟩, h.probe⟩ hstep
  refine ⟨hcoll, hconf, hprobe, ?_⟩
  have hlink := h.link
  obtain ⟨sent, asked, -, hsetup⟩ := h.collector.2
  have hspec := step_spec hstep
  cases e with
  | collector e =>
    obtain ⟨down, w, hprompt, hread, hw, rfl⟩ := hspec
    exact moves_agrees hD h hprompt hread hw
  | accepted pcc gethostname =>
    obtain ⟨hl, hs, g, hg, rfl⟩ := hspec
    unfold LinkAgrees at hlink
    rw [hl] at hlink
    obtain ⟨-, hup, hdown⟩ := hlink
    -- no set is taken to be made before the first command
    have hphase := hsetup.phase
    unfold Collect.Phase at hphase
    rw [hs] at hphase
    obtain ⟨-, -, hwait, -⟩ := hphase
    refine linkAgrees_linked rfl ⟨fun k set hset => ?_, ?_, fun _ => ?_, fun hw => ?_⟩
    · rw [hwait _ (Lib.OrdMap.find?_eq_some_iff.mp hset)]
      trivial
    · show ∀ l ∈ s.up, NoEol l
      rw [hup]
      exact nofun
    · show s.up.filter isOrder = [] ∧ s.down.filter isAck = []
      rw [hup, hdown]
      exact ⟨rfl, rfl⟩
    · exact absurd (hs.symm.trans hw) (by decide)
  | prompted =>
    obtain ⟨pcc, g, hl, hg, rfl⟩ := hspec
    refine linkAgrees_linked hl ((hlink.linked hl).tells hsetup.staged (fun k set _ st hst => ?_) ?_)
    · exact step_standing hD.documented h.probe.1.1 (e := .firstprompt pcc) trivial hg hst
    · exact told_unacked (greeted_tells unpicked_isAck hD.greeting h.probe.1 hg)
  | served env bufin =>
    obtain ⟨pcc, up, g, hl, hread, hg, rfl⟩ := hspec
    exact linkAgrees_linked hl (served_beliefs hD h.probe hsetup h.configured (hlink.linked hl) he
      hread hg)
  | dropped =>
    obtain ⟨pcc, g, hl, hg, rfl⟩ := hspec
    trivial
  | other e =>
    rcases hspec with ⟨pcc, g, hl, hne, hg, rfl⟩ | ⟨hl, g, hg, rfl⟩
    · -- another connection deletes no set of the configuration, and what it has told to this one
      -- is no answer
      obtain ⟨hmeasured, hspares⟩ := he pcc hl
      have hsaid := told_unacked
        (step_unacked hD.documented hD.unbroken h.probe.1.2 h.probe.2 hne hmeasured hg)
      refine linkAgrees_linked hl
        ((hlink.linked hl).tells hsetup.staged (fun k set hset st hst => ?_) hsaid)
      obtain ⟨cs, hcs, -, heq⟩ := h.configured k set hset
      have hkey : set.fullkey = cs.fullkey := by
        rw [heq]
        rfl
      exact step_standing hD.documented h.probe.1.1
        (spares_of_not_deletes hne (hkey ▸ hspares cs hcs)) hg hst
    · unfold LinkAgrees at hlink ⊢
      dsimp only
      cases hl' : s.link with
      | unlinked =>
        rw [hl'] at hlink
        exact hlink
      | linked pcc => exact absurd hl' (hl pcc)
      | lost => trivial

/-- The sets assigned to a collector just constructed. -/
theorem start_configured (now : Int) (crypt : CryptConnection P) (css : List Conf.CollectionSet) :
    Configured css (Collect.start now crypt (css.map (·.collecting))).conn.mpcs := by
  have hassign : ∀ (l : List Conf.CollectionSet) (c : CollectingConn P), l ⊆ css →
      Configured css c.mpcs →
      Configured css ((l.map (·.collecting)).foldl CollectingConn.assign c).mpcs := by
    intro l
    induction l with
    | nil => exact fun c _ hc => hc
    | cons cs l ih =>
      intro c hl hc
      refine ih (c.assign cs.collecting) (List.Subset.trans (List.subset_cons_self cs l) hl) ?_
      intro k s hs
      -- the set assigned last is found, and every other one is as before
      by_cases hk : k = cs.fullkey
      · have hfind := Lib.OrdMap.find?_insert_self c.mpcs cs.collecting.fullkey
          { cs.collecting with state := CSState.del_remote_for_create }
        rw [hk] at hs
        obtain rfl := Option.some.inj (hfind.symm.trans hs)
        exact ⟨cs, hl List.mem_cons_self, hk, rfl⟩
      · exact hc k s ((Lib.OrdMap.find?_insert_other _ hk).symm.trans hs)
  exact hassign css _ (List.Subset.refl css) fun k s hs => (nomatch hs)

/-- The two begin agreed: nothing is sent, and no connection is made. -/
theorem begin_agreed {key : Option QiCrKey} {crypt : CryptConnection P}
    (hcrypt : CryptConnection.withKey P key = .ok crypt) (now : Int)
    (css : List Conf.CollectionSet) {g₀ : Globals} (hg₀ : Serving blank ident g₀) :
    Agreed blank ident css (Collect.start now crypt (css.map (·.collecting))).conn.mpcs.keys
      (begin (Collect.start now crypt (css.map (·.collecting))) g₀) where
  collector := ⟨Collect.start_sound hcrypt now _, Collect.start_setup now crypt _⟩
  configured := start_configured now crypt css
  probe := hg₀
  link := by
    -- assigning sets leaves the state that the constructor sets
    obtain ⟨m, p, hconn⟩ := Collect.foldl_assign (css.map (·.collecting))
      (CollectingConn.construct now crypt)
    refine ⟨.inl ?_, rfl, rfl⟩
    show ((css.map (·.collecting)).foldl CollectingConn.assign _).state = _
    rw [hconn]
    rfl

/-- **What the collector has for set up is set up.** In every state of every run of a
collector and a qigong that can make its sets, where no measured value holds a line end and
no other connection deletes a set, and the session has its connection: each set stands on
the qigong as the collector's state for it says; one command or answer at most is in flight;
and where the collector is ready with nothing pending, each set of the configuration is on
the qigong as asked for, is scheduled, and is told to the connection. -/
theorem collected_as_believed (hD : Deployed S B blank ident css) {key : Option QiCrKey}
    {crypt : CryptConnection P} (hcrypt : CryptConnection.withKey P key = .ok crypt) {now : Int}
    {boots : List Probe.Event} {g₀ : Globals} (hg₀ : Lib.run (Probe.step S B) boot boots = some g₀)
    {es : List Event} {s : State P}
    (h : Lib.run (step S B) (begin (Collect.start now crypt (css.map (·.collecting))) g₀) es = some s)
    (hes : Lib.StepsMeet (step S B) (Undisturbed S css)
      (begin (Collect.start now crypt (css.map (·.collecting))) g₀) es)
    (hl : s.link = .linked pcc) :
    (∀ k set, s.collector.conn.mpcs.find? k = some set → Standing pcc s.probe set set.state) ∧
    (s.up.filter isOrder).length + (s.down.filter isAck).length ≤ 1 ∧
    (s.collector.conn.state = .ready → s.collector.conn.pending = false → ∀ cs ∈ css,
      ∃ set prs rs, s.collector.conn.mpcs.find? cs.fullkey = some set ∧ set.state = .collect ∧
        s.probe.mrecordsets.find? cs.fullkey = some prs ∧ s.probe.recordsets.find? prs = some rs ∧
        rs.core = asked set ∧ 0 < entriesOf prs s.probe.schedule ∧ rs.channels.contains pcc = true) := by
  have hbegin := begin_agreed hcrypt now css
    ⟨hushed_of_run hg₀, named_of_run hD.documented hg₀⟩
  have hagreed : Agreed blank ident css _ s :=
    Lib.Reaches.invariant (step_agreed hD) hbegin hes (.of_run h)
  have hb := hagreed.link.linked hl
  obtain ⟨sent, asked, -, hsetup⟩ := hagreed.collector.2
  have hphase := hsetup.phase
  unfold Collect.Phase at hphase
  refine ⟨hb.standing, ?_, fun hready hp cs hcs => ?_⟩
  · -- while it waits, the command or its answer is on the way
    by_cases hw : s.collector.conn.state = .waiting
    · rw [hw] at hphase
      obtain ⟨k, set, cmd, hnext, -⟩ := hphase
      rcases hb.waiting hw k set cmd hnext with ⟨hdown, hup | hup⟩ | ⟨hup, l, hdown, -⟩ <;>
        rw [hup, hdown] <;> exact Nat.le_of_ble_eq_true rfl
    · obtain ⟨hup, hdown⟩ := hb.idle hw
      rw [hup, hdown]
      exact Nat.zero_le 1
  · -- ready with nothing pending, every set is in its last state
    rw [hready] at hphase
    obtain ⟨-, -, hall⟩ := hphase
    have hkey : cs.fullkey ∈ s.collector.conn.mpcs.keys := by
      rw [hsetup.keys]
      exact (Collect.start_fresh now crypt (css.map (·.collecting))).2.2 cs.collecting
        (List.mem_map_of_mem hcs)
    obtain ⟨⟨k, set⟩, hmem, hk⟩ := List.mem_map.mp hkey
    obtain rfl : k = cs.fullkey := hk
    have hfind := Lib.OrdMap.find?_eq_some_iff.mpr hmem
    have hcollect : set.state = .collect := hall hp _ hmem
    have hstanding := hb.standing _ set hfind
    rw [hcollect] at hstanding
    obtain ⟨prs, hm, hentries, rs, hr, hchannel⟩ := hstanding
    obtain ⟨cs', -, hsame, hset⟩ := hagreed.configured _ set hfind
    have hfull : set.fullkey = cs.fullkey := by
      rw [hset, hsame]
      rfl
    obtain ⟨rs', hr', hcore⟩ := hm.lives
    obtain rfl : rs = rs' := Option.some.inj (hr.symm.trans hr')
    exact ⟨set, prs, rs, hfind, hcollect, hfull ▸ hm.1, hr, hcore, hentries, hchannel⟩

/-! ## A session to compute with -/

/-- The collector is polled. -/
def polls : Event := .collector Collect.polls

/-- The collector receives these lines in one record. -/
def hears (lines : List String) : Event :=
  .collector (Collect.hears ((lines.map str).intersperse endl).flatten)

/-- The qigong serves a line. -/
def serves (line : String) : Event := .served sampleEnv (str line)

/-- The qigong accepts the collector, and the two shake hands. -/
def sampleHandshake : List Event :=
  [polls, .accepted 0 (some ⟨str "probe", noEol_probe⟩)] ++
    [[9, 10, 11, 12], bytesFrom 13 12, bytesFrom 64 64, bytesFrom 0 64].map
      (fun text => .collector (Collect.hears text)) ++ [.prompted]

/-- The collector sets one set up. -/
def sampleRun : List Event :=
  sampleHandshake ++
  [hears ["Qigong - host:probe", "", "qigong[probe] : 0 : "],
    serves "qiging ?", serves "", serves "", serves "qiging ?",
    hears ["", "qigong.", "", "", "", "qigong."], serves "qiging ?", hears ["", "qigong."],
    polls, serves "delete h_c",
    hears ["unknown recordset \"h_c\"", "deletion of \"h_c\"failed.",
      "delete: 0 deletions performed."],
    polls, serves "create h_c 10 load(a b) load",
    hears ["RecordSet: \"h_c\":", "    RefreshInterval: 10s", "    MeasurePoint:",
      "        load(a b)", "        load()", "", "creation done."],
    polls, serves "activate h_c",
    hears ["RecordSet: \"h_c\" activated.", "activate: 1 activation performed."],
    polls, serves "sub h_c",
    hears ["subscribed to  \"h_c\".", "subscribe: 1 subsription performed."], polls]

/-- What is no character of an identifier is not one that is. -/
theorem ne_of_isIdent {a b : UInt8} (ha : isIdent a = true) (hb : isIdent b = false) : a ≠ b := by
  rintro rfl
  rw [ha] at hb
  cases hb

/-- A word of letters, digits and underscores. -/
theorem word_of_all {n : Bytes} (hne : n ≠ []) (h : n.all isIdent = true) :
    Conf.Word isBlank isIdent n where
  ne_nil := hne
  run := List.all_eq_true.mp h
  head c hc := by
    have hident := List.all_eq_true.mp h c (List.mem_of_mem_head? hc)
    have h32 := ne_of_isIdent hident (show isIdent 32 = false by decide)
    have h9 := ne_of_isIdent hident (show isIdent 9 = false by decide)
    simp [isBlank, h32, h9]
  unbroken c hc := by
    have hident := List.all_eq_true.mp h c hc
    exact ⟨ne_of_isIdent hident (by decide), ne_of_isIdent hident (by decide)⟩

/-- The sample qigong can make the sample set. -/
theorem makeable_loadsSet : Makeable isBlank isIdent sampleBuild.mmpcreators Conf.loadsSet where
  askable :=
    { fullkey := word_of_all (by decide) (by decide)
      points := by
        intro t ht
        rcases List.mem_cons.mp ht with rfl | ht
        · exact ⟨word_of_all (by decide) (by decide), by decide, by decide⟩
        · obtain rfl := List.mem_singleton.mp ht
          exact ⟨word_of_all (by decide) (by decide), by decide, by decide⟩
      freqs := by decide
      base_interval := by decide }
  interval := by decide
  points := by decide
  known := by
    intro t ht
    have hfn : t.fn = str "load" := by
      rcases List.mem_cons.mp ht with rfl | ht
      · rfl
      · exact List.mem_singleton.mp ht ▸ rfl
    exact ⟨fun param => some ⟨str "load", param⟩, by rw [hfn]; rfl, by rw [Conf.madeOf, hfn]⟩
  nul := by decide
  length := by decide

/-- The sample configuration can be made by the sample build. -/
theorem deployed_sample : Deployed sampleScanners sampleBuild isBlank isIdent [Conf.loadsSet] where
  documented := sampleScanners_documented
  readsDigits := sampleScanners_readsDigits
  punctuated := Conf.punctuated_sample
  unbroken c hc := by
    have h0 := ne_of_isIdent hc (show isIdent 0 = false by decide)
    have h10 := ne_of_isIdent hc (show isIdent 10 = false by decide)
    have h13 := ne_of_isIdent hc (show isIdent 13 = false by decide)
    simp [isEol, h0, h10, h13]
  greeting := ⟨by decide, 81, rfl, by decide⟩
  makeable := by
    intro cs hcs
    obtain rfl := List.mem_singleton.mp hcs
    exact makeable_loadsSet

/-- The sample run ends with the set set up. -/
theorem collected_as_believed_loads :
    ∃ s, Lib.run (step sampleScanners sampleBuild)
        (begin (Collect.start 1000 Collect.plainSupplicant [Conf.loadsSet.collecting]) boot) sampleRun
          = some s ∧
      ∃ set prs rs, s.collector.conn.mpcs.find? (str "h_c") = some set ∧ set.state = .collect ∧
        s.probe.mrecordsets.find? (str "h_c") = some prs ∧ s.probe.recordsets.find? prs = some rs ∧
        rs.core = asked set ∧ 0 < entriesOf prs s.probe.schedule ∧ rs.channels.contains 0 = true := by
  have hany : (Lib.run (step sampleScanners sampleBuild)
      (begin (Collect.start 1000 Collect.plainSupplicant [Conf.loadsSet.collecting]) boot)
      sampleRun).any (fun s => decide (s.link = .linked 0 ∧ s.collector.conn.state = .ready ∧
        s.collector.conn.pending = false)) = true := by
    decide +kernel
  obtain ⟨s, h, hs⟩ := (Option.any_eq_true _ _).mp hany
  obtain ⟨hl, hready, hp⟩ := of_decide_eq_true hs
  have hcrypt : CryptConnection.withKey Collect.plainPlatform (some sampleKey)
      = .ok Collect.plainSupplicant := rfl
  have hes : Lib.StepsMeet (step sampleScanners sampleBuild)
      (Undisturbed sampleScanners [Conf.loadsSet])
      (begin (Collect.start 1000 Collect.plainSupplicant [Conf.loadsSet.collecting]) boot)
      sampleRun := by
    refine Lib.stepsMeet_of_mem (fun e he s => ?_) _
    have hall : ∀ e ∈ sampleRun, (∃ env l, e = .served env l ∧ env = sampleEnv) ∨
        (∀ env l, e ≠ .served env l) ∧ ∀ e', e ≠ .other e' := by
      simp [sampleRun, sampleHandshake, hears, serves, polls]
    cases e with
    | served env l =>
      rcases hall _ he with ⟨env', l', heq, rfl⟩ | ⟨hne, -⟩
      · obtain ⟨rfl, -⟩ := Event.served.inj heq
        exact measured_sample
      · exact absurd rfl (hne env l)
    | other e' =>
      rcases hall _ he with ⟨env', l', heq, -⟩ | ⟨-, hne⟩
      · cases heq
      · exact absurd rfl (hne e')
    | collector | accepted | prompted | dropped => trivial
  have hboot : Lib.run (Probe.step sampleScanners sampleBuild) boot [] = some boot := rfl
  obtain ⟨-, -, hall⟩ := collected_as_believed deployed_sample hcrypt hboot h hes hl
  exact ⟨s, h, hall hready hp Conf.loadsSet List.mem_cons_self⟩

end Qigong.Together
