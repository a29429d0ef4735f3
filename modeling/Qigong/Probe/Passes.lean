import Mathlib.Algebra.Order.BigOperators.Group.List
import Qigong.Lib.Turns
import Qigong.Probe.Activations
import Qigong.Probe.Answers

/-!
# The passes of the scheduler

What `select_poll` does with the schedule. The loop measures the first entry as long as it
is late, and what it measures is put back an interval later, between the entries of other
sets: a `Lib.Pass`. So every entry ends at the first of its times that is not past
(`select_poll_pass`), whatever the order.

- `pollMeasured`: the loop of `select_poll`, with the entries it measured.
- `Schedulable`: what the loop relies on, in every state a qigong reaches
  (`schedulable_of_run`).
-/

namespace Qigong.Probe

open Globals

variable {S : Scanners} {B : Build} {env : Env} {g g' : Globals} {pcc : ConnId} {prs : SetId}

/-! ## The order of the schedule -/

/-- In order of time. -/
def InOrder (es : List Entry) : Prop := es.Pairwise fun x y => x.1 ≤ y.1

theorem insertEntry_perm (e : Entry) (es : List Entry) : (insertEntry e es).Perm (e :: es) := by
  induction es with
  | nil => exact .refl _
  | cons x xs ih =>
    rw [insertEntry]
    split
    · exact .refl _
    · exact (ih.cons x).trans (.swap e x xs)

theorem InOrder.insertEntry {es : List Entry} (h : InOrder es) (e : Entry) :
    InOrder (insertEntry e es) := by
  induction es with
  | nil => exact List.pairwise_singleton _ _
  | cons x xs ih =>
    obtain ⟨hx, hxs⟩ := List.pairwise_cons.mp h
    rw [Globals.insertEntry]
    split
    case isTrue hlt =>
      refine List.pairwise_cons.mpr ⟨fun y hy => ?_, h⟩
      rcases List.mem_cons.mp hy with rfl | hy
      · exact hlt.le
      · exact hlt.le.trans (hx y hy)
    case isFalse hge =>
      refine List.pairwise_cons.mpr ⟨fun y hy => ?_, ih hxs⟩
      rcases mem_insertEntry hy with rfl | hy
      · omega
      · exact hx y hy

/-- The schedule is in order, of times that are `time_t`. -/
structure Timed (g : Globals) : Prop where
  inOrder : InOrder g.schedule
  timed : ∀ e ∈ g.schedule, -2 ^ 63 ≤ e.1 ∧ e.1 < 2 ^ 63

theorem Timed.of_eq (hg : Timed g) (h : g'.schedule = g.schedule) : Timed g' := by
  constructor
  · rw [h]
    exact hg.inOrder
  · rw [h]
    exact hg.timed

/-- An entry of a measure has a time. -/
theorem measure_timed {t : Int} {e : Entry} (h : g.measure env t prs = .ok (e, g')) :
    -2 ^ 63 ≤ e.1 ∧ e.1 < 2 ^ 63 := by
  unfold Globals.measure at h
  cases hr : g.recordsets.find? prs with
  | none => rw [hr] at h; cases h
  | some rs =>
    rw [hr] at h
    obtain ⟨next, hnext, h⟩ := bind_eq_ok.mp h
    obtain ⟨g₁, -, h⟩ := map_eq_ok.mp h
    obtain ⟨rfl, -⟩ := Prod.mk.inj h
    unfold timeAdd at hnext
    split at hnext
    case isTrue ht =>
      obtain rfl := Except.ok.inj hnext
      exact ht
    case isFalse => cases hnext

/-- A set is measured and its entry inserted. -/
theorem Timed.measure {t : Int} {e : Entry} (hg : Timed g)
    (h : g.measure env t prs = .ok (e, g')) :
    Timed { g' with schedule := insertEntry e g'.schedule } := by
  have hsched := (measure_stores h).1.schedule
  constructor
  · show InOrder (insertEntry e g'.schedule)
    rw [hsched]
    exact hg.inOrder.insertEntry e
  · intro x hx
    rcases mem_insertEntry hx with rfl | hx
    · exact measure_timed h
    · rw [hsched] at hx
      exact hg.timed x hx

theorem timed_keptByActs (env : Env) (pcc : ConnId) : KeptByActs env pcc Timed where
  write g text hg := hg.of_eq rfl
  prompt g hg := hg.of_eq rfl
  register g rs _ _ _ hg := hg.of_eq rfl
  suppress g ident r h hg := by
    rcases suppress_cases h with ⟨-, rfl⟩ | ⟨prs, rs, -, -, -, rfl⟩
    · exact hg.of_eq rfl
    · constructor
      · exact hg.inOrder.filter _
      · exact fun e he => hg.timed e (List.mem_filter.mp he).1
  activate g ident r h hg := by
    rcases activate_cases h with ⟨-, rfl⟩ | ⟨prs, e, g₁, -, hm, rfl⟩
    · exact hg.of_eq rfl
    · exact hg.measure hm
  add_subs g prs g' h hg := by
    obtain ⟨-, rfl⟩ := add_subs_eq h
    exact hg.of_eq rfl
  remove_subs g prs g' h hg := by
    obtain rfl := remove_subs_eq h
    exact hg.of_eq rfl

/-- An entry is put into a first part of the schedule, or into the rest. -/
theorem Timed.insert {g : Globals} {kept es : List Entry} {e e' : Entry}
    (hg : Timed { g with schedule := kept ++ e :: es }) (he' : -2 ^ 63 ≤ e'.1 ∧ e'.1 < 2 ^ 63) :
    (e'.1 < e.1 → Timed { g' with schedule := insertEntry e' kept ++ es }) ∧
      (e.1 ≤ e'.1 → Timed { g' with schedule := kept ++ insertEntry e' es }) := by
  obtain ⟨hkept, hrest, hbefore⟩ := List.pairwise_append.mp hg.inOrder
  obtain ⟨hafter, hes⟩ := List.pairwise_cons.mp hrest
  have hall : ∀ x, x = e' ∨ x ∈ kept ∨ x ∈ es → -2 ^ 63 ≤ x.1 ∧ x.1 < 2 ^ 63 := by
    rintro x (rfl | hx | hx)
    · exact he'
    · exact hg.timed x (List.mem_append_left _ hx)
    · exact hg.timed x (List.mem_append_right _ (List.mem_cons_of_mem _ hx))
  constructor
  · refine fun hlt => ⟨?_, fun x hx => hall x ?_⟩
    · refine List.pairwise_append.mpr ⟨InOrder.insertEntry hkept e', hes, fun x hx y hy => ?_⟩
      rcases mem_insertEntry hx with rfl | hx
      · exact hlt.le.trans (hafter y hy)
      · exact hbefore x hx y (List.mem_cons_of_mem _ hy)
    · rcases List.mem_append.mp hx with hx | hx
      · exact (mem_insertEntry hx).imp_right .inl
      · exact .inr (.inr hx)
  · refine fun hge => ⟨?_, fun x hx => hall x ?_⟩
    · refine List.pairwise_append.mpr ⟨hkept, InOrder.insertEntry hes e', fun x hx y hy => ?_⟩
      rcases mem_insertEntry hy with rfl | hy
      · exact (hbefore x hx e List.mem_cons_self).trans hge
      · exact hbefore x hx y (List.mem_cons_of_mem _ hy)
    · rcases List.mem_append.mp hx with hx | hx
      · exact .inr (.inl hx)
      · exact (mem_insertEntry hx).imp_right .inr

/-- The loop over the schedule: what is kept stands before what is left. -/
theorem Timed.pollSchedule {fuel : Nat} {kept : List Entry}
    (hg : Timed { g with schedule := kept ++ g.schedule })
    (h : g.pollSchedule env fuel kept = .ok g') : Timed g' := by
  have hturn : KeptByTurns env fun kept g => Timed { g with schedule := kept ++ g.schedule } := by
    intro kept g e es r hg hs hm
    have hsched : r.2.schedule = es := (measure_stores hm).1.schedule
    rw [hs] at hg
    dsimp only
    rw [hsched]
    exact hg.insert (measure_timed hm)
  obtain ⟨kept', g₁, htimed, rfl⟩ := pollSchedule_rule hturn h hg
  exact htimed

/-- **Step lemma**: the schedule stays in order. -/
theorem step_timed {e : Event} (hg : Timed g) (h : step S B g e = some g') : Timed g' := by
  obtain ⟨-, hr⟩ := step_eq_some h
  cases e with
  | connected pcc gethostname =>
    obtain rfl := Except.ok.inj hr
    exact hg.of_eq rfl
  | firstprompt pcc =>
    obtain rfl := Except.ok.inj hr
    exact hg.of_eq (flush_sameStores _ pcc).schedule
  | line pcc env bufin =>
    obtain ⟨g₁, hc, rfl⟩ := map_eq_ok.mp hr
    exact ((timed_keptByActs env pcc).command hg hc).of_eq (endLine_sameStores g₁ pcc).schedule
  | destroyed pcc => exact hg.of_eq (destroy_sameSets hr).schedule
  | select_poll env =>
    have hpoll : Timed { g with schedule := [] ++ g.schedule } := hg.of_eq rfl
    exact hpoll.pollSchedule hr

theorem timed_boot : Timed boot := by
  constructor
  · exact .nil
  · intro e he
    exact absurd he List.not_mem_nil

theorem timed_of_run {es : List Event} (h : Lib.run (step S B) boot es = some g) : Timed g :=
  Lib.run_invariant (fun _ _ _ hg he => step_timed hg he) timed_boot h

/-! ## What the loop relies on -/

/-- The schedule is in order, and what it leads to lives. -/
structure Schedulable (g : Globals) : Prop where
  inOrder : InOrder g.schedule
  timed : ∀ e ∈ g.schedule, -2 ^ 63 ≤ e.1
  scheduled : ∀ e ∈ g.schedule, ∃ rs, g.recordsets.find? e.2 = some rs
  channels : ∀ prs rs, g.recordsets.find? prs = some rs →
    ∀ pcc ∈ rs.channels.keys, g.conns.contains pcc = true

/-- **Every state a qigong reaches is schedulable.** -/
theorem schedulable_of_run {es : List Event} (h : Lib.run (step S B) boot es = some g) :
    Schedulable g := by
  have hl := linked_of_run h
  have ht := timed_of_run h
  constructor
  · exact ht.inOrder
  · exact fun e he => (ht.timed e he).1
  · exact hl.scheduled
  · exact fun prs rs hr pcc hpcc => hl.channel_lives hr hpcc

/-- The stores are the same, and the schedule another one. -/
theorem Schedulable.reschedule {es : List Entry} (hg : Schedulable g) (hsame : SameStores g g')
    (horder : InOrder es) (htimed : ∀ e ∈ es, -2 ^ 63 ≤ e.1)
    (hsched : ∀ e ∈ es, ∃ rs, g.recordsets.find? e.2 = some rs) :
    Schedulable { g' with schedule := es } := by
  constructor
  case inOrder => exact horder
  case timed => exact htimed
  case scheduled =>
    intro e he
    show ∃ rs, g'.recordsets.find? e.2 = some rs
    rw [hsame.recordsets]
    exact hsched e he
  case channels =>
    intro prs rs hr pcc hpcc
    show g'.conns.contains pcc = true
    rw [live_iff, hsame.subs]
    have hr : g'.recordsets.find? prs = some rs := hr
    rw [hsame.recordsets] at hr
    exact live_iff.mp (hg.channels prs rs hr pcc hpcc)

/-! ## The loop as a pass -/

namespace Globals

/-- The loop of `select_poll`, with the entries it measured, in order. -/
def pollMeasured (env : Env) :
    (fuel : Nat) → (kept : List Entry) → Globals → Except Exn (List Entry × Globals)
  | 0, _, _ => .error .endless
  | fuel + 1, kept, g =>
    match g.schedule with
    | [] => .ok ([], { g with schedule := kept })
    | e :: es =>
      if e.1 < env.now then
        ({ g with schedule := es }.measure env e.1 e.2).bind fun r =>
          (if r.1.1 < e.1 then pollMeasured env fuel (insertEntry r.1 kept) r.2
          else pollMeasured env fuel kept { r.2 with schedule := insertEntry r.1 r.2.schedule }).map
            fun (x : List Entry × Globals) => (e :: x.1, x.2)
      else .ok ([], { g with schedule := kept ++ e :: es })

/-- `select_poll`, with the entries it measured. -/
def selectMeasured (g : Globals) (env : Env) : Except Exn (List Entry × Globals) :=
  g.pollMeasured env ((g.schedule.map fun e => (env.now - e.1).toNat).sum + 1) []

/-- The interval of a set that lives. -/
def interval (g : Globals) (prs : SetId) : Int :=
  match g.recordsets.find? prs with
  | some rs => rs.interval
  | none => 0

/-- The entry that follows an entry. -/
def follower (g : Globals) (e : Entry) : Entry := (e.1 + g.interval e.2, e.2)

/-- How often the set of an entry is measured for it. -/
def turns (g : Globals) (env : Env) (e : Entry) : Nat :=
  Lib.turns env.now e.1 (g.interval e.2)

/-- The entry an entry is replaced by. -/
def passed (g : Globals) (env : Env) (e : Entry) : Entry :=
  (e.1 + g.turns env e * g.interval e.2, e.2)

/-- The measures for an entry. -/
def measures (g : Globals) (env : Env) (e : Entry) : List Entry :=
  (List.range (g.turns env e)).map fun (j : Nat) => (e.1 + j * g.interval e.2, e.2)

end Globals

/-- Logging changes nothing. -/
theorem pollMeasured_snd (env : Env) (fuel : Nat) (kept : List Entry) (g : Globals) :
    (g.pollMeasured env fuel kept).map Prod.snd = g.pollSchedule env fuel kept := by
  induction fuel generalizing kept g with
  | zero => rfl
  | succ fuel ih =>
    rw [Globals.pollMeasured, Globals.pollSchedule]
    cases g.schedule with
    | nil => rfl
    | cons e es =>
      dsimp only
      split
      case isFalse => rfl
      case isTrue =>
        cases ({ g with schedule := es } : Globals).measure env e.1 e.2 with
        | error x => rfl
        | ok r =>
          dsimp only [Except.bind]
          have hmap : ∀ x : Except Exn (List Entry × Globals),
              (x.map fun x => (e :: x.1, x.2)).map Prod.snd = x.map Prod.snd := by
            intro x
            cases x <;> rfl
          rw [hmap]
          split
          · exact ih _ _
          · exact ih _ _

theorem interval_eq {rs : RecordSet} (h : g.recordsets.find? prs = some rs) :
    g.interval prs = rs.interval := by
  unfold Globals.interval
  rw [h]

theorem SameStores.interval (h : SameStores g g') : g'.interval = g.interval := by
  funext prs
  unfold Globals.interval
  rw [h.recordsets]

/-- The entry's set has a positive interval, and the time it is put back at is a `time_t`. -/
structure Passable (g : Globals) (env : Env) (e : Entry) : Prop where
  pos : 0 < g.interval e.2
  timed : (g.passed env e).1 < 2 ^ 63

theorem turns_follower {e : Entry} (hpos : 0 < g.interval e.2) (he : e.1 < env.now) :
    g.turns env e = g.turns env (g.follower e) + 1 := Lib.turns_of_lt hpos he

theorem passed_follower {e : Entry} (hpos : 0 < g.interval e.2) (he : e.1 < env.now) :
    g.passed env (g.follower e) = g.passed env e := by
  unfold Globals.passed
  rw [turns_follower hpos he]
  refine Prod.ext ?_ rfl
  show e.1 + g.interval e.2 + g.turns env (g.follower e) * g.interval e.2 = _
  push_cast
  ring

/-- Only the intervals of the sets matter. -/
theorem follower_congr (h : g'.interval = g.interval) : g'.follower = g.follower := by
  funext e
  unfold Globals.follower
  rw [h]

theorem turns_congr (h : g'.interval = g.interval) : g'.turns env = g.turns env := by
  funext e
  unfold Globals.turns
  rw [h]

theorem Passable.congr {e : Entry} (hp : Passable g env e) (h : g'.interval = g.interval) :
    Passable g' env e := by
  constructor
  · rw [h]
    exact hp.pos
  · unfold Globals.passed
    rw [turns_congr h, h]
    exact hp.timed

/-- The turns of an entry are counted down. -/
theorem ranked (g : Globals) (env : Env) :
    Lib.Ranked (Passable g env) (fun e => e.1 < env.now) g.follower (g.turns env) := by
  constructor
  · intro e hp he
    constructor
    · exact hp.pos
    · rw [passed_follower hp.pos he]
      exact hp.timed
  · exact fun e hp he => Lib.turns_of_le hp.pos (not_lt.mp he)
  · exact fun e hp he => turns_follower hp.pos he

/-- The set of an entry that is late is measured, and has its time. -/
theorem measure_passable {e : Entry} {es : List Entry} (hg : Schedulable g)
    (hs : g.schedule = e :: es) (hp : Passable g env e) (he : e.1 < env.now) :
    ∃ g', ({ g with schedule := es } : Globals).measure env e.1 e.2 = .ok (g.follower e, g') := by
  have hmem : e ∈ g.schedule := hs ▸ List.mem_cons_self
  obtain ⟨rs, hr⟩ := hg.scheduled e hmem
  have hlow := hg.timed e hmem
  have hpos := hp.pos
  have hhigh := hp.timed
  -- the next time is not behind the last one
  have hlast : e.1 + g.interval e.2 ≤ (g.passed env e).1 := by
    show _ ≤ e.1 + (g.turns env e : Int) * g.interval e.2
    rw [turns_follower hpos he]
    push_cast
    nlinarith [mul_nonneg (Int.natCast_nonneg (g.turns env (g.follower e))) hpos.le]
  have hiv := interval_eq hr
  obtain ⟨g', hm⟩ : ∃ g', Globals.measure { g with schedule := es } env e.1 e.2
      = .ok ((e.1 + rs.interval, e.2), g') :=
    measure_ok hr (hg.channels e.2 rs hr) ⟨by omega, by omega⟩
  refine ⟨g', ?_⟩
  rw [hm, Globals.follower, hiv]

/-- **The loop is a pass**, and it ends: with every measure the turns left get fewer. -/
theorem pollMeasured_pass {fuel : Nat} (hg : Schedulable g)
    (hp : ∀ e ∈ g.schedule, Passable g env e)
    (hfuel : (g.schedule.map (g.turns env)).sum < fuel) :
    ∃ measured g', g.pollMeasured env fuel [] = .ok (measured, g') ∧ InOrder g'.schedule ∧
      Lib.Pass (fun e => e.1 < env.now) g.follower g.schedule measured g'.schedule := by
  induction fuel generalizing g with
  | zero => omega
  | succ fuel ih =>
    have horder := hg.inOrder
    rw [Globals.pollMeasured]
    cases hs : g.schedule with
    | nil => exact ⟨[], _, rfl, .nil, .rest fun e he => absurd he List.not_mem_nil⟩
    | cons e es =>
      dsimp only
      rw [hs] at hp hfuel horder
      obtain ⟨hafter, hes⟩ := List.pairwise_cons.mp horder
      split
      case isFalse hdone =>
        refine ⟨[], _, rfl, horder, .rest fun x hx => ?_⟩
        rcases List.mem_cons.mp hx with rfl | hx
        · exact hdone
        · have := hafter x hx
          omega
      case isTrue hlate =>
        have hpe := hp e List.mem_cons_self
        obtain ⟨g₁, hm⟩ := measure_passable hg hs hpe hlate
        rw [hm]
        dsimp only [Except.bind]
        obtain ⟨hsame, -, hlives⟩ := measure_stores hm
        have hpos := hpe.pos
        rw [if_neg (show ¬ (g.follower e).1 < e.1 by
          show ¬ e.1 + g.interval e.2 < e.1
          omega)]
        -- the state the loop goes on from: the same stores, the follower put back
        have hsched : g₁.schedule = es := hsame.schedule
        rw [hsched]
        have hperm := insertEntry_perm (g.follower e) es
        have hmem : ∀ x ∈ insertEntry (g.follower e) es, x = g.follower e ∨ x ∈ es :=
          fun x hx => mem_insertEntry hx
        have hiv : ({ g₁ with schedule := insertEntry (g.follower e) es } : Globals).interval
            = g.interval := hsame.interval
        have hg' : Schedulable { g₁ with schedule := insertEntry (g.follower e) es } := by
          have hrest : Schedulable { g with schedule := es } :=
            hg.reschedule (.refl g) hes (fun x hx => hg.timed x (hs ▸ List.mem_cons_of_mem _ hx))
              fun x hx => hg.scheduled x (hs ▸ List.mem_cons_of_mem _ hx)
          refine hrest.reschedule hsame (InOrder.insertEntry hes _) (fun x hx => ?_) fun x hx => ?_
          · rcases hmem x hx with rfl | hx
            · exact (measure_timed hm).1
            · exact hrest.timed x hx
          · rcases hmem x hx with rfl | hx
            · exact hlives
            · exact hrest.scheduled x hx
        have hp' := (ranked g env).keep_turn hlate hp hperm
        have hsum := (ranked g env).sum_turn hpe hlate hperm
        have hfuel' : ((insertEntry (g.follower e) es).map (g.turns env)).sum < fuel := by omega
        obtain ⟨measured, g', hloop, horder', hpass⟩ := ih hg'
          (fun x hx => (hp' x hx).congr hiv) (by rw [turns_congr hiv]; exact hfuel')
        rw [follower_congr hiv] at hpass
        refine ⟨e :: measured, g', ?_, horder', .turn hlate (.refl _) hperm hpass⟩
        rw [hloop]
        rfl

/-! ## A pass of the scheduler -/

theorem last_eq (g : Globals) (env : Env) :
    Lib.last g.follower (g.turns env) = g.passed env := by
  funext e
  exact Lib.iterate_add g.interval e _

theorem turnsOf_eq (g : Globals) (env : Env) :
    Lib.turnsOf g.follower (g.turns env) = g.measures env := by
  funext e
  unfold Lib.turnsOf Globals.measures
  refine List.map_congr_left fun j _ => ?_
  exact Lib.iterate_add g.interval e j

/-- **A pass of the scheduler**: where every set has a positive interval and no time
overflows, `select_poll` ends. Nothing in the schedule is late then; every entry is
replaced by one at the first of its times that is not past, and its set was measured once
for each of its times before that. -/
theorem select_poll_pass (hg : Schedulable g) (hpos : ∀ e ∈ g.schedule, 0 < g.interval e.2)
    (hover : ∀ e ∈ g.schedule, (g.passed env e).1 < 2 ^ 63) :
    (∀ e ∈ g.schedule,
      IsLeast {n : Nat | env.now ≤ e.1 + n * g.interval e.2} (g.turns env e)) ∧
    ∃ measured g', g.selectMeasured env = .ok (measured, g') ∧ g.select_poll env = .ok g' ∧
      InOrder g'.schedule ∧ (∀ e ∈ g'.schedule, env.now ≤ e.1) ∧
      g'.schedule.Perm (g.schedule.map (g.passed env)) ∧
      measured.Perm (g.schedule.flatMap (g.measures env)) := by
  have hp : ∀ e ∈ g.schedule, Passable g env e := fun e he => ⟨hpos e he, hover e he⟩
  -- an entry is measured at most once for every second it is late
  have hfuel : (g.schedule.map (g.turns env)).sum
      < (g.schedule.map fun e => (env.now - e.1).toNat).sum + 1 :=
    Nat.lt_succ_of_le (List.sum_le_sum fun e he => Lib.turns_le (hpos e he))
  obtain ⟨measured, g', hloop, horder, hpass⟩ := pollMeasured_pass hg hp hfuel
  refine ⟨fun e he => Lib.isLeast_turns (hpos e he), measured, g', hloop, ?_, horder, ?_, ?_, ?_⟩
  · unfold Globals.select_poll
    rw [← pollMeasured_snd, hloop]
    rfl
  · exact fun e he => not_lt.mp (hpass.not_due e he)
  · rw [← last_eq]
    exact hpass.perm_last (ranked g env) hp
  · rw [← turnsOf_eq]
    exact hpass.perm_turns (ranked g env) hp

/-- A set activated at 1000, every minute, is late at 1200: it is measured three times and
put back at 1240. -/
theorem select_poll_pass_late :
    ∃ g, Lib.run (step sampleScanners sampleBuild) boot sampleActivation = some g ∧
      g.schedule = [(1060, 0)] ∧
      ∃ measured g', g.selectMeasured ⟨1200, fun _ _ => []⟩ = .ok (measured, g') ∧
        g'.schedule = [(1240, 0)] ∧ measured.Perm [(1060, 0), (1120, 0), (1180, 0)] := by
  have hany : (Lib.run (step sampleScanners sampleBuild) boot sampleActivation).any (fun g =>
      g.schedule = [(1060, 0)] ∧ g.interval 0 = 60) = true := by
    decide +kernel
  obtain ⟨g, h, hg⟩ := (Option.any_eq_true _ _).mp hany
  obtain ⟨hs, hiv⟩ : g.schedule = [(1060, 0)] ∧ g.interval 0 = 60 := of_decide_eq_true hg
  have hturns : g.turns ⟨1200, fun _ _ => []⟩ (1060, 0) = 3 := by
    unfold Globals.turns
    rw [hiv]
    rfl
  have hpassed : g.passed ⟨1200, fun _ _ => []⟩ (1060, 0) = (1240, 0) := by
    unfold Globals.passed
    rw [hturns, hiv]
    rfl
  have hmeasures : g.measures ⟨1200, fun _ _ => []⟩ (1060, 0)
      = [(1060, 0), (1120, 0), (1180, 0)] := by
    unfold Globals.measures
    rw [hturns, hiv]
    rfl
  have hpos : ∀ e ∈ g.schedule, 0 < g.interval e.2 := by
    rw [hs, List.forall_mem_singleton, hiv]
    decide
  have hover : ∀ e ∈ g.schedule, (g.passed ⟨1200, fun _ _ => []⟩ e).1 < 2 ^ 63 := by
    rw [hs, List.forall_mem_singleton, hpassed]
    decide
  obtain ⟨-, measured, g', hpoll, -, -, -, hperm, hlog⟩ :=
    select_poll_pass (schedulable_of_run h) hpos hover
  rw [hs, List.map_singleton, hpassed, List.perm_singleton] at hperm
  rw [hs, List.flatMap_singleton, hmeasures] at hlog
  exact ⟨g, h, hs, measured, g', hpoll, hperm, hlog⟩

end Qigong.Probe
