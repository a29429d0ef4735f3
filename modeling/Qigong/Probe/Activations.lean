import Qigong.Probe.Scanning
import Qigong.Probe.Links

/-!
# Activations and the schedule

`activate` measures a set and schedules it, whether or not it is scheduled already; the
polled schedule puts one entry back for each that it takes out; nothing else adds an
entry. So a registered set has as many entries as it was activated
(`scheduled_eq_activations`), in every state a qigong reaches: at least one once it is
activated (`stores_agree`), and more than one once it is activated again
(`scheduled_once_iff`).
-/

namespace Qigong.Probe

open Globals

variable {S : Scanners} {B : Build} {env : Env} {g g' g'' : Globals} {pcc : ConnId} {prs : SetId}

/-- The entries of a set in a schedule. -/
def entriesOf (prs : SetId) (es : List Entry) : Nat := es.countP fun e => e.2 = prs

/-- How often an event activates a set: the identifiers that name it, on a line that says
`activate`. -/
def activates (S : Scanners) (g : Globals) (prs : SetId) : Event → Nat
  | .line _ _ bufin =>
    if (S.getidentifier bufin 0).1 = str "activate" then
      (idents S bufin).countP fun i => g.mrecordsets.find? i = some prs
    else 0
  | .connected _ _ | .firstprompt _ | .destroyed _ | .select_poll _ => 0

/-- How often a run activates a set. -/
def activations (S : Scanners) (B : Build) (prs : SetId) : Globals → List Event → Nat
  | _, [] => 0
  | g, e :: es =>
    activates S g prs e +
      match step S B g e with
      | some g' => activations S B prs g' es
      | none => 0

/-- The set lives, or is not made yet. -/
def Spared (g : Globals) (prs : SetId) : Prop :=
  (∃ rs, g.recordsets.find? prs = some rs) ∨ g.nextset ≤ prs

/-- What is spared was so before, and its entries are `n` more than before. -/
def Adds (n : SetId → Nat) (g g' : Globals) : Prop :=
  ∀ prs, Spared g' prs →
    Spared g prs ∧ entriesOf prs g'.schedule = entriesOf prs g.schedule + n prs

theorem Adds.refl (g : Globals) : Adds (fun _ => 0) g g := fun _ h => ⟨h, rfl⟩

theorem Adds.trans {n m : SetId → Nat} (h : Adds n g g') (h' : Adds m g' g'') :
    Adds (fun prs => n prs + m prs) g g'' := by
  intro prs hs
  obtain ⟨hs', he'⟩ := h' prs hs
  obtain ⟨hs'', he⟩ := h prs hs'
  refine ⟨hs'', ?_⟩
  show _ = _ + (n prs + m prs)
  omega

/-- Nothing is added behind what adds `n`. -/
theorem Adds.then_none {n : SetId → Nat} (h : Adds n g g') (h' : Adds (fun _ => 0) g' g'') :
    Adds n g g'' := h.trans h'

theorem Spared.of_eq (hr : g'.recordsets = g.recordsets) (hn : g'.nextset = g.nextset)
    (h : Spared g' prs) : Spared g prs := by
  unfold Spared at h ⊢
  rwa [← hr, ← hn]

theorem SameSets.adds (h : SameSets g g') : Adds (fun _ => 0) g g' := by
  intro prs hs
  refine ⟨hs.imp (fun ⟨rs, hr⟩ => ?_) (fun hn => h.nextset ▸ hn), by rw [h.schedule]; rfl⟩
  obtain ⟨rs', hr', -⟩ := h.find hr
  exact ⟨rs', hr'⟩

theorem SameStores.adds (h : SameStores g g') : Adds (fun _ => 0) g g' := h.sameSets.adds

/-! ## Entries -/

theorem entriesOf_insertEntry (prs : SetId) (e : Entry) (es : List Entry) :
    entriesOf prs (insertEntry e es) = entriesOf prs es + if e.2 = prs then 1 else 0 := by
  induction es with
  | nil => simp [insertEntry, entriesOf]
  | cons x xs ih =>
    rw [insertEntry]
    split
    · simp [entriesOf, List.countP_cons]
    · simp only [entriesOf, List.countP_cons] at ih ⊢
      omega

theorem entriesOf_pos {es : List Entry} : 0 < entriesOf prs es ↔ ∃ e ∈ es, e.2 = prs := by
  simp [entriesOf, List.countP_pos_iff]

/-- The polled schedule puts back as many entries of a set as it takes out. -/
theorem pollSchedule_adds {fuel : Nat} {kept : List Entry}
    (h : g.pollSchedule env fuel kept = .ok g') :
    Adds (fun _ => 0) { g with schedule := kept ++ g.schedule } g' := by
  have hturn : KeptByTurns env fun kept' g₁ => Adds (fun _ => 0)
      { g with schedule := kept ++ g.schedule } { g₁ with schedule := kept' ++ g₁.schedule } := by
    intro kept' g₁ e es r hadds hs hm
    obtain ⟨hsame, he, -⟩ := measure_stores hm
    have hsched : r.2.schedule = es := hsame.schedule
    -- one entry of the set is taken out, and one of the same set put in
    have hback : ∀ l : List Entry, (∀ prs, entriesOf prs l = entriesOf prs (kept' ++ e :: es)) →
        Adds (fun _ => 0) { g with schedule := kept ++ g.schedule } { r.2 with schedule := l } := by
      intro l hl
      refine hadds.then_none fun prs hp => ⟨hp.of_eq hsame.recordsets hsame.nextset, ?_⟩
      rw [hs]
      exact hl prs
    constructor
    · refine fun _ => hback (insertEntry r.1 kept' ++ r.2.schedule) fun prs => ?_
      have hins := entriesOf_insertEntry prs r.1 kept'
      simp only [entriesOf, List.countP_append, List.countP_cons, hsched, he,
        decide_eq_true_eq] at hins ⊢
      omega
    · refine fun _ => hback (kept' ++ insertEntry r.1 r.2.schedule) fun prs => ?_
      have hins := entriesOf_insertEntry prs r.1 es
      simp only [entriesOf, List.countP_append, List.countP_cons, hsched, he,
        decide_eq_true_eq] at hins ⊢
      omega
  obtain ⟨kept', g₁, hadds, rfl⟩ := pollSchedule_rule hturn h (.refl _)
  exact hadds

/-! ## Commands -/

/-- The changes of a command other than `activate` add no entry. -/
theorem adds_keptByChanges (S : Scanners) (g₀ : Globals) (pcc : ConnId) :
    KeptByChanges S pcc fun g => (Linked g ∧ ∃ m, g.subs pcc = some m) ∧ Adds (fun _ => 0) g₀ g := by
  have hlinked := (linked_keptByActs ⟨0, fun _ _ => []⟩ pcc).changes S
  constructor
  case write =>
    exact fun g text hg =>
      ⟨hlinked.write g text hg.1, hg.2.then_none (write_sameStores g pcc text).adds⟩
  case prompt =>
    exact fun g hg => ⟨hlinked.prompt g hg.1, hg.2.then_none (prompt_sameStores g []).adds⟩
  case register =>
    refine fun g rs mmpcreators s text h hg =>
      ⟨hlinked.register g rs mmpcreators s text h hg.1, hg.2.then_none fun prs hs => ⟨?_, rfl⟩⟩
    -- the set made had not been made
    rcases hs with ⟨rs', hr⟩ | hn
    · rw [show (g.register rs).recordsets = g.recordsets.insert g.nextset rs from rfl,
        Lib.OrdMap.find?_insert] at hr
      split at hr
      case isTrue heq => exact .inr (le_of_eq heq.symm)
      case isFalse => exact .inl ⟨rs', hr⟩
    · exact .inr (Nat.le_of_succ_le hn)
  case suppress =>
    intro g ident r h hg
    refine ⟨hlinked.suppress g ident r h hg.1, hg.2.then_none ?_⟩
    rcases suppress_cases h with ⟨-, rfl⟩ | ⟨prs, rs, hn, hr, hch, rfl⟩
    · exact (write_sameStores g pcc _).adds
    · refine Adds.then_none (fun prs' hs => ?_) (write_sameStores _ pcc deletionTexts).adds
      -- the set deleted is not spared
      have hne : prs' ≠ prs := by
        rintro rfl
        rcases hs with ⟨rs', hr'⟩ | hle
        · rw [Lib.OrdMap.find?_erase, if_pos rfl] at hr'
          cases hr'
        · exact absurd (hg.1.1.fresh prs' rs hr) (Nat.not_lt.mpr hle)
      constructor
      · rcases hs with ⟨rs', hr'⟩ | hle
        · rw [Lib.OrdMap.find?_erase, if_neg hne] at hr'
          exact .inl ⟨rs', hr'⟩
        · exact .inr hle
      · show entriesOf prs' (g.schedule.filter _) = entriesOf prs' g.schedule + 0
        rw [entriesOf, List.countP_filter, Nat.add_zero, entriesOf]
        refine List.countP_congr fun e _ => ?_
        have hiff : e.2 = prs' → e.2 ≠ prs := fun heq => heq ▸ hne
        simpa using hiff
  case add_subs =>
    intro g prs g' h hg
    refine ⟨hlinked.add_subs g prs g' h hg.1, hg.2.then_none ?_⟩
    obtain ⟨-, rfl⟩ := add_subs_eq h
    exact (modify_sameSets (f := fun m => m.insert pcc 1)).adds
  case remove_subs =>
    intro g prs g' h hg
    refine ⟨hlinked.remove_subs g prs g' h hg.1, hg.2.then_none ?_⟩
    obtain rfl := remove_subs_eq h
    exact (modify_sameSets (f := fun m => m.erase pcc)).adds

/-- `activate` of one identifier adds one entry to the set it names. -/
theorem activateOne_adds {ident : Bytes} {r : Globals × Bool}
    (h : activateOne env pcc g ident = .ok r) :
    Adds (fun prs => if g.mrecordsets.find? ident = some prs then 1 else 0) g r.1 ∧
      r.1.mrecordsets = g.mrecordsets := by
  obtain ⟨x, hx, rfl⟩ := map_eq_ok.mp h
  have hwrite : ∀ (g : Globals) (text : Bytes), SameStores g (g.write pcc text) :=
    fun g text => write_sameStores g pcc text
  rcases activate_cases hx with ⟨hn, rfl⟩ | ⟨prs, e, g₁, hn, hm, rfl⟩
  · refine ⟨?_, rfl⟩
    simp only [hn, reduceCtorEq, if_false]
    exact ((hwrite g _).trans (hwrite _ _)).adds
  · obtain ⟨hsame, he, -⟩ := measure_stores hm
    refine ⟨Adds.then_none (fun prs' hs => ?_) (hwrite _ _).adds, hsame.mrecordsets⟩
    refine ⟨hs.of_eq hsame.recordsets hsame.nextset, ?_⟩
    rw [entriesOf_insertEntry, hsame.schedule, he, hn]
    simp only [Option.some.injEq]

/-- The loop of `activate` adds an entry for each identifier that names a set. -/
theorem activate_loop_adds {bufin : Bytes} {fuel p : Nat} {r r' : Globals × Nat}
    (h : overIdents S pcc bufin (activateOne env pcc) fuel p r = .ok r') :
    Adds (fun prs => (identsFrom S bufin fuel p).countP fun i =>
      r.1.mrecordsets.find? i = some prs) r.1 r'.1 := by
  induction fuel generalizing p r with
  | zero =>
    rw [Globals.overIdents] at h
    split at h
    · obtain rfl := Except.ok.inj h
      exact .refl _
    · cases h
  | succ fuel ih =>
    rw [Globals.overIdents] at h
    rw [identsFrom]
    dsimp only at h ⊢
    split
    case isTrue hp =>
      rw [if_pos hp] at h
      obtain rfl := Except.ok.inj h
      exact .refl _
    case isFalse hp =>
      rw [if_neg hp] at h
      split
      case isTrue hi =>
        rw [if_pos hi] at h
        obtain rfl := Except.ok.inj h
        exact (write_sameStores _ pcc _).adds
      case isFalse hi =>
        rw [if_neg hi] at h
        obtain ⟨x, hx, h⟩ := bind_eq_ok.mp h
        obtain ⟨hadds, hm⟩ := activateOne_adds hx
        have hrest := ih h
        dsimp only at hrest
        rw [hm] at hrest
        intro prs hs
        obtain ⟨hs', he⟩ := (hadds.trans hrest) prs hs
        refine ⟨hs', ?_⟩
        dsimp only at he ⊢
        rw [List.countP_cons, he]
        simp only [decide_eq_true_eq]
        omega

/-! ## Runs -/

/-- **Step lemma**: an event adds to the schedule an entry for each activation. -/
theorem step_adds {e : Event} (hl : Linked g) (h : step S B g e = some g') :
    Adds (fun prs => activates S g prs e) g g' := by
  obtain ⟨hp, hr⟩ := step_eq_some h
  cases e with
  | connected pcc gethostname =>
    obtain rfl := Except.ok.inj hr
    exact fun prs hs => ⟨hs, rfl⟩
  | firstprompt pcc =>
    obtain rfl := Except.ok.inj hr
    exact (((write_sameStores g pcc _).trans (prompt_sameStores _ _)).trans
      ((writePrompt_sameStores _ pcc).trans (flush_sameStores _ pcc))).adds
  | line pcc env bufin =>
    obtain ⟨g₁, hc, rfl⟩ := map_eq_ok.mp hr
    refine Adds.then_none ?_ (endLine_sameStores g₁ pcc).adds
    have hlive := live_iff.mp hp
    -- no other command activates
    by_cases hword : (S.getidentifier bufin 0).1 = str "activate"
    · have hget : S.getidentifier bufin 0 = (str "activate", (S.getidentifier bufin 0).2) :=
        Prod.ext hword rfl
      have hcommand : g.command S B env pcc bufin = g.forIdents S pcc bufin
          (S.getidentifier bufin 0).2 (str "activate") (str "activation") (activateOne env pcc) := by
        unfold Globals.command
        rw [hget]
        rfl
      rw [hcommand] at hc
      obtain ⟨r, hloop, rfl⟩ := map_eq_ok.mp hc
      have hadds := (activate_loop_adds hloop).then_none (write_sameStores r.1 pcc
        (performed (str "activate") (str "activation") r.2)).adds
      simpa only [activates, hword, if_true, idents] using hadds
    · have hkept := (adds_keptByChanges S g pcc).command ⟨⟨hl, hlive⟩, .refl g⟩
        (fun p hget => absurd (congrArg Prod.fst hget) hword) hc
      simpa only [activates, hword, if_false] using hkept.2
  | destroyed pcc => exact (destroy_sameSets hr).adds
  | select_poll env =>
    have hadds : Adds (fun _ => 0) { g with schedule := [] ++ g.schedule } g' := pollSchedule_adds hr
    exact hadds

theorem run_adds {es : List Event} (hl : Linked g) (h : Lib.run (step S B) g es = some g') :
    Adds (fun prs => activations S B prs g es) g g' := by
  induction es generalizing g with
  | nil =>
    obtain rfl := Option.some.inj h
    exact .refl _
  | cons e es ih =>
    rw [Lib.run_cons] at h
    obtain ⟨g₁, he, h⟩ := Option.bind_eq_some_iff.mp h
    have hadds := (step_adds hl he).trans (ih (step_linked hl he) h)
    simpa only [activations, he] using hadds

/-- **A registered set has as many entries in the schedule as it was activated**, in every
state a qigong reaches. -/
theorem scheduled_eq_activations {es : List Event} {n : Bytes}
    (h : Lib.run (step S B) boot es = some g) (hn : g.mrecordsets.find? n = some prs) :
    entriesOf prs g.schedule = activations S B prs boot es := by
  obtain ⟨rs, hr, -⟩ := (linked_of_run h).registered n prs hn
  have hadds := (run_adds linked_boot h prs (.inl ⟨rs, hr⟩)).2
  rw [hadds]
  exact Nat.zero_add _

/-! ## The stores agree -/

/-- **The stores of record sets agree**, in every state a qigong reaches: channels and
subscriptions are two sides of one relation and lead to what lives, what is scheduled or
subscribed is registered under its own name, what is registered can be measured, and what
was activated is scheduled. -/
theorem stores_agree {es : List Event} (h : Lib.run (step S B) boot es = some g) :
    (∀ prs pcc, g.HasChannel prs pcc ↔ g.Subscribes pcc prs) ∧
    (∀ prs pcc, g.HasChannel prs pcc → g.conns.contains pcc = true) ∧
    (∀ prs, ((∃ e ∈ g.schedule, e.2 = prs) ∨ ∃ pcc, g.Subscribes pcc prs) →
      ∃ rs, g.recordsets.find? prs = some rs ∧ g.mrecordsets.find? rs.name = some prs) ∧
    (∀ n prs, g.mrecordsets.find? n = some prs →
      ∃ rs, g.recordsets.find? prs = some rs ∧ rs.name = n ∧ rs.lmp ≠ [] ∧ rs.interval ≠ 0) ∧
    ∀ n prs, g.mrecordsets.find? n = some prs → 0 < activations S B prs boot es →
      ∃ e ∈ g.schedule, e.2 = prs := by
  have hl := linked_of_run h
  refine ⟨hl.channels, fun prs pcc hc => ?_, fun prs hs => ?_, fun n prs hn => ?_,
    fun n prs hn hact => ?_⟩
  · obtain ⟨m, hm, -⟩ := (hl.channels prs pcc).mp hc
    exact live_iff.mpr ⟨m, hm⟩
  · have hlives : ∃ rs, g.recordsets.find? prs = some rs := by
      rcases hs with ⟨e, he, rfl⟩ | ⟨pcc, hsub⟩
      · exact hl.scheduled e he
      · obtain ⟨rs, hr, -⟩ := (hl.channels prs pcc).mpr hsub
        exact ⟨rs, hr⟩
    obtain ⟨rs, hr⟩ := hlives
    exact ⟨rs, hr, hl.owned prs rs hr⟩
  · obtain ⟨rs, hr, hname⟩ := hl.registered n prs hn
    exact ⟨rs, hr, hname, hl.made prs rs hr⟩
  · rw [← scheduled_eq_activations h hn] at hact
    exact entriesOf_pos.mp hact

/-- A set is created and activated. -/
def sampleActivation : List Event :=
  [.connected 0 none, .firstprompt 0] ++
    ["create web_load 60 load", "activate web_load"].map fun l => .line 0 sampleEnv (str l)

/-- The sample set is activated, and scheduled. -/
theorem stores_agree_sample :
    ∃ g, Lib.run (step sampleScanners sampleBuild) boot sampleActivation = some g ∧
      g.mrecordsets.find? (str "web_load") = some 0 ∧ ∃ e ∈ g.schedule, e.2 = 0 := by
  have hany : (Lib.run (step sampleScanners sampleBuild) boot sampleActivation).any (fun g =>
      g.mrecordsets.find? (str "web_load") = some 0) = true := by
    decide +kernel
  obtain ⟨g, h, hn⟩ := (Option.any_eq_true _ _).mp hany
  have hn' : g.mrecordsets.find? (str "web_load") = some 0 := of_decide_eq_true hn
  have hact : 0 < activations sampleScanners sampleBuild 0 boot sampleActivation := by
    decide +kernel
  obtain ⟨-, -, -, -, hscheduled⟩ := stores_agree h
  exact ⟨g, h, hn', hscheduled _ _ hn' hact⟩

/-! ## One entry for each set -/

/-- **Every registered set has one entry at most exactly where none was activated twice**,
in every state a qigong reaches. -/
theorem scheduled_once_iff {es : List Event} (h : Lib.run (step S B) boot es = some g) :
    (∀ n prs, g.mrecordsets.find? n = some prs → entriesOf prs g.schedule ≤ 1) ↔
      ∀ n prs, g.mrecordsets.find? n = some prs → activations S B prs boot es ≤ 1 :=
  forall_congr' fun _ => forall_congr' fun _ => forall_congr' fun hn => by
    rw [scheduled_eq_activations h hn]

/-- A set activated once has one entry. -/
theorem scheduled_once_iff_sample :
    ∃ g, Lib.run (step sampleScanners sampleBuild) boot sampleActivation = some g ∧
      ((∀ n prs, g.mrecordsets.find? n = some prs → entriesOf prs g.schedule ≤ 1) ↔
        ∀ n prs, g.mrecordsets.find? n = some prs →
          activations sampleScanners sampleBuild prs boot sampleActivation ≤ 1) := by
  have hsome : (Lib.run (step sampleScanners sampleBuild) boot sampleActivation).isSome = true := by
    decide +kernel
  obtain ⟨g, h⟩ := Option.isSome_iff_exists.mp hsome
  exact ⟨g, h, scheduled_once_iff h⟩

/-- **A set activated twice has two entries**: its subscribers are sent two samples in
each interval. -/
theorem activated_twice :
    ¬ ∀ (S : Scanners) (B : Build) (es : List Event) (g : Globals) (n : Bytes) (prs : SetId),
      Lib.run (step S B) boot es = some g → g.mrecordsets.find? n = some prs →
      entriesOf prs g.schedule ≤ 1 := by
  intro hall
  have hany : (Lib.run (step sampleScanners sampleBuild) boot
      (sampleActivation ++ [.line 0 sampleEnv (str "activate web_load")])).any (fun g =>
        decide (g.mrecordsets.find? (str "web_load") = some 0 ∧ entriesOf 0 g.schedule = 2))
      = true := by
    decide +kernel
  obtain ⟨g, h, hg⟩ := (Option.any_eq_true _ _).mp hany
  obtain ⟨hn, htwo⟩ := of_decide_eq_true hg
  have hone := hall _ _ _ g _ 0 h hn
  omega

end Qigong.Probe
