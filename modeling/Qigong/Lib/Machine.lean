import Mathlib.Data.List.Basic

/-!
# Runs of partial deterministic machines

A machine is a step function `S → E → Option S`: one event takes a state to the
next one, and `none` says that the machine has no next state (it threw, or its
behaviour is undefined). Everything here is about whole runs:

- `run`: the state a list of events leads to;
- `Reaches`: the states a run goes through, also when it later gets stuck;
- `StepsMeet`: every step the run takes meets a condition on the state before it
  and its event;
- `steps`: the steps a run takes, as (before, event, after) triples, for
  properties of a run that look back at an earlier step of it.

The induction rules (`run_invariant`, `Reaches.invariant`, `steps_history`, `run_history`,
and `run_related` for two machines) turn a lemma about one step into the fact about whole
runs.

Two more kinds of runs in pairs are behind them. `Unwinds`: the events of a machine are its own
observer's or those of others, and an observer who does not notice one step of the others does
not notice a run of them. `Lockstep`: two programs that may fail do so together, or return what
is related; its rules follow the programs.
-/

namespace Lib

universe u v w

section machine

variable {S : Type u} {E : Type v}

/-- The state a list of events leads to, `none` once a step has no successor. -/
def run (step : S → E → Option S) : S → List E → Option S
  | s, [] => some s
  | s, e :: es => (step s e).bind fun s' => run step s' es

/-- Every step the run takes meets `P`, a condition on the state before the step
and on its event. -/
def StepsMeet (step : S → E → Option S) (P : S → E → Prop) : S → List E → Prop
  | _, [] => True
  | s, e :: es => P s e ∧ ∀ s', step s e = some s' → StepsMeet step P s' es

/-- The steps a run takes, as (state before, event, state after). -/
def steps (step : S → E → Option S) : S → List E → List (S × E × S)
  | _, [] => []
  | s, e :: es =>
    match step s e with
    | none => []
    | some s' => (s, e, s') :: steps step s' es

/-- `t` is one of the states the run of `es` from `s` goes through. -/
def Reaches (step : S → E → Option S) (s : S) (es : List E) (t : S) : Prop :=
  ∃ pre, pre <+: es ∧ run step s pre = some t

variable {step : S → E → Option S}

@[simp] theorem run_nil (s : S) : run step s [] = some s := rfl

@[simp] theorem run_cons (s : S) (e : E) (es : List E) :
    run step s (e :: es) = (step s e).bind fun s' => run step s' es := rfl

theorem run_cons_some {s s' : S} {e : E} (h : step s e = some s') (es : List E) :
    run step s (e :: es) = run step s' es := by
  rw [run_cons, h]
  rfl

/-- A run of two lists of events is one behind the other. -/
theorem run_append (s : S) (es fs : List E) :
    run step s (es ++ fs) = (run step s es).bind fun t => run step t fs := by
  induction es generalizing s with
  | nil => rfl
  | cons e es ih =>
    rw [List.cons_append, run_cons, run_cons]
    cases h : step s e with
    | none => rfl
    | some s' => exact ih s'

/-- A run gets stuck at the first event that has no successor. -/
theorem run_eq_none_iff {s : S} {es : List E} :
    run step s es = none ↔
      ∃ pre e post t, es = pre ++ e :: post ∧ run step s pre = some t ∧ step t e = none := by
  constructor
  · intro h
    -- the stuck event is the first one, or one of the run behind it
    induction es generalizing s with
    | nil => cases h
    | cons e es ih =>
      cases he : step s e with
      | none => exact ⟨[], e, es, s, rfl, rfl, he⟩
      | some s' =>
        rw [run_cons_some he] at h
        obtain ⟨pre, f, post, t, rfl, hpre, hf⟩ := ih h
        exact ⟨e :: pre, f, post, t, rfl, (run_cons_some he pre).trans hpre, hf⟩
  · rintro ⟨pre, e, post, t, rfl, hpre, he⟩
    rw [run_append, hpre, Option.bind_some, run_cons, he]
    rfl

/-! ## States a run goes through -/

theorem Reaches.refl (s : S) (es : List E) : Reaches step s es s :=
  ⟨[], List.nil_prefix, rfl⟩

/-- A run either is still at its first state or has taken its first step. -/
theorem reaches_cons_iff {s t : S} {e : E} {es : List E} :
    Reaches step s (e :: es) t ↔
      t = s ∨ ∃ s', step s e = some s' ∧ Reaches step s' es t := by
  constructor
  · rintro ⟨pre, hpre, hrun⟩
    cases pre with
    | nil => exact .inl (Option.some.inj hrun).symm
    | cons f pre =>
      obtain ⟨rfl, hpre'⟩ := List.cons_prefix_cons.mp hpre
      rw [run_cons] at hrun
      obtain ⟨s', hs', hrun'⟩ := Option.bind_eq_some_iff.mp hrun
      exact .inr ⟨s', hs', pre, hpre', hrun'⟩
  · rintro (rfl | ⟨s', hs', pre, hpre, hrun⟩)
    · exact Reaches.refl _ _
    · exact ⟨e :: pre, List.cons_prefix_cons.mpr ⟨rfl, hpre⟩,
        (run_cons_some hs' pre).trans hrun⟩

theorem reaches_nil_iff {s t : S} : Reaches step s ([] : List E) t ↔ t = s := by
  constructor
  · rintro ⟨pre, hpre, hrun⟩
    rw [List.prefix_nil.mp hpre] at hrun
    exact (Option.some.inj hrun).symm
  · rintro rfl
    exact Reaches.refl _ _

theorem Reaches.of_run {s t : S} {es : List E} (h : run step s es = some t) :
    Reaches step s es t := ⟨es, List.prefix_rfl, h⟩

/-- States reached behind a first part of a run. -/
theorem Reaches.append {s t u : S} {es fs : List E} (h : run step s es = some t)
    (hu : Reaches step t fs u) : Reaches step s (es ++ fs) u := by
  obtain ⟨pre, hpre, hrun⟩ := hu
  refine ⟨es ++ pre, (List.prefix_append_right_inj es).mpr hpre, ?_⟩
  rw [run_append, h]
  exact hrun

/-! ## Induction rules -/

/-- **Invariant rule.** What every step meeting `P` preserves holds in every
state of a run whose steps meet `P`. -/
theorem Reaches.invariant {P : S → E → Prop} {I : S → Prop}
    (hstep : ∀ s e s', I s → P s e → step s e = some s' → I s') :
    ∀ {es : List E} {s t : S}, I s → StepsMeet step P s es →
      Reaches step s es t → I t := by
  intro es
  induction es with
  | nil =>
    intro s t hs _ ht
    rwa [reaches_nil_iff.mp ht]
  | cons e es ih =>
    intro s t hs hmeet ht
    rcases reaches_cons_iff.mp ht with rfl | ⟨s', hs', ht'⟩
    · exact hs
    · exact ih (hstep s e s' hs hmeet.1 hs') (hmeet.2 s' hs') ht'

/-- An unconditional condition is met by every run. -/
theorem stepsMeet_of_forall {P : S → E → Prop} (h : ∀ s e, P s e) :
    ∀ (es : List E) (s : S), StepsMeet step P s es
  | [], _ => trivial
  | e :: es, s => ⟨h s e, fun s' _ => stepsMeet_of_forall h es s'⟩

/-- **Simulation rule.** Two machines whose steps keep their states related, and get
stuck together, run together. -/
theorem run_related {T : Type w} {step' : T → E → Option T} {R : S → T → Prop}
    (hstep : ∀ s t e, R s t → Option.Rel R (step s e) (step' t e)) (es : List E) {s : S} {t : T}
    (h : R s t) : Option.Rel R (run step s es) (run step' t es) := by
  induction es generalizing s t with
  | nil => exact .some h
  | cons e es ih =>
    rw [run_cons, run_cons]
    have hnext := hstep s t e h
    generalize step s e = a, step' t e = b at hnext
    -- both are stuck, or both go on
    cases hnext with
    | none => exact .none
    | some hnext => exact ih hnext

/-- The invariant rule for a whole run, with no condition on its steps. -/
theorem run_invariant {I : S → Prop}
    (hstep : ∀ s e s', I s → step s e = some s' → I s')
    {es : List E} {s t : S} (hs : I s) (h : run step s es = some t) : I t :=
  Reaches.invariant (P := fun _ _ => True)
    (fun s e s' hi _ he => hstep s e s' hi he) hs
    (stepsMeet_of_forall (fun _ _ => trivial) es s) (.of_run h)

/-- A condition that holds of the events in every state is met. -/
theorem stepsMeet_of_mem {P : S → E → Prop} {es : List E} (h : ∀ e ∈ es, ∀ s, P s e) (s : S) :
    StepsMeet step P s es := by
  induction es generalizing s with
  | nil => trivial
  | cons e es ih =>
    exact ⟨h e List.mem_cons_self s, fun s' _ => ih (fun f hf => h f (List.mem_cons_of_mem _ hf)) s'⟩

/-- Two conditions are met together. -/
theorem StepsMeet.and {P Q : S → E → Prop} :
    ∀ {es : List E} {s : S}, StepsMeet step P s es → StepsMeet step Q s es →
      StepsMeet step (fun s e => P s e ∧ Q s e) s es
  | [], _, _, _ => trivial
  | _ :: _, _, hp, hq =>
    ⟨⟨hp.1, hq.1⟩, fun s' hs' => StepsMeet.and (hp.2 s' hs') (hq.2 s' hs')⟩

theorem run_singleton (s : S) (e : E) : run step s [e] = step s e := by
  rw [run_cons]
  cases step s e <;> rfl

/-- A condition met by a first part of a run and by what follows it. -/
theorem stepsMeet_append {P : S → E → Prop} {es : List E} {s t : S}
    (h : run step s es = some t) (fs : List E) :
    StepsMeet step P s (es ++ fs) ↔ StepsMeet step P s es ∧ StepsMeet step P t fs := by
  induction es generalizing s with
  | nil =>
    obtain rfl := Option.some.inj h
    exact ⟨fun hf => ⟨trivial, hf⟩, fun hf => hf.2⟩
  | cons e es ih =>
    rw [run_cons] at h
    obtain ⟨s', hs', hrun⟩ := Option.bind_eq_some_iff.mp h
    have hnext : ∀ {Q : S → Prop}, (∀ u, step s e = some u → Q u) ↔ Q s' := by
      intro Q
      refine ⟨fun hq => hq s' hs', fun hq u hu => ?_⟩
      rwa [← Option.some.inj (hs'.symm.trans hu)]
    show (_ ∧ ∀ u, _ → StepsMeet step P u (es ++ fs)) ↔ (_ ∧ ∀ u, _ → StepsMeet step P u es) ∧ _
    rw [hnext, hnext, ih hrun, and_assoc]

/-- What a run meets its first part meets. -/
theorem StepsMeet.of_append {P : S → E → Prop} {es fs : List E} {s : S}
    (h : StepsMeet step P s (es ++ fs)) : StepsMeet step P s es := by
  induction es generalizing s with
  | nil => trivial
  | cons e es ih => exact ⟨h.1, fun s' hs' => ih (h.2 s' hs')⟩

/-- A weaker condition is met too, weaker where the invariant holds. -/
theorem StepsMeet.imp {I : S → Prop} {P : E → Prop} {D D' : S → E → Prop}
    (hstep : ∀ s e s', I s → P e → step s e = some s' → I s')
    (himp : ∀ s e, I s → P e → D s e → D' s e) {es : List E} {s : S} (hP : ∀ e ∈ es, P e)
    (hs : I s) (h : StepsMeet step D s es) : StepsMeet step D' s es := by
  induction es generalizing s with
  | nil => trivial
  | cons e es ih =>
    have hPe := hP e List.mem_cons_self
    refine ⟨himp s e hs hPe h.1, fun s' hs' => ?_⟩
    exact ih (fun f hf => hP f (List.mem_cons_of_mem e hf)) (hstep s e s' hs hPe hs') (h.2 s' hs')

/-- A condition without which a step leads out of `Q` is met by a run that stays in `Q`. -/
theorem stepsMeet_of_reaches {P : S → E → Prop} {I Q : S → Prop}
    (hstep : ∀ s e s', I s → step s e = some s' → I s')
    (hmeet : ∀ s e s', I s → step s e = some s' → Q s' → P s e) {es : List E} {s t : S}
    (hs : I s) (hrun : run step s es = some t) (h : ∀ u, Reaches step s es u → Q u) :
    StepsMeet step P s es := by
  induction es generalizing s with
  | nil => trivial
  | cons e es ih =>
    rw [run_cons] at hrun
    obtain ⟨s', hs', hrun⟩ := Option.bind_eq_some_iff.mp hrun
    -- the states behind the first step are states of the whole run
    have hreach : ∀ u, Reaches step s' es u → Reaches step s (e :: es) u :=
      fun u hu => reaches_cons_iff.mpr (.inr ⟨s', hs', hu⟩)
    refine ⟨hmeet s e s' hs hs' (h s' (hreach s' (.refl s' es))), fun u hu => ?_⟩
    obtain rfl := Option.some.inj (hs'.symm.trans hu)
    exact ih (hstep s e s' hs hs') hrun fun u hu => h u (hreach u hu)

/-- A run goes through exactly where every step does. -/
theorem exists_run_iff {es : List E} {s : S} :
    (∃ t, run step s es = some t) ↔ StepsMeet step (fun s e => ∃ s', step s e = some s') s es := by
  induction es generalizing s with
  | nil => exact iff_of_true ⟨s, rfl⟩ trivial
  | cons e es ih =>
    constructor
    · rintro ⟨t, ht⟩
      rw [run_cons] at ht
      obtain ⟨s', hs', ht⟩ := Option.bind_eq_some_iff.mp ht
      refine ⟨⟨s', hs'⟩, fun s'' hs'' => ih.mp ⟨t, ?_⟩⟩
      rwa [← Option.some.inj (hs'.symm.trans hs'')]
    · rintro ⟨⟨s', hs'⟩, hrest⟩
      obtain ⟨t, ht⟩ := ih.mpr (hrest s' hs')
      exact ⟨t, (run_cons_some hs' es).trans ht⟩

/-- Whether the steps of a run meet a condition is found by running it. -/
instance decidableStepsMeet {P : S → E → Prop} [hP : ∀ s e, Decidable (P s e)] :
    ∀ (s : S) (es : List E), Decidable (StepsMeet step P s es)
  | _, [] => isTrue trivial
  | s, e :: es =>
    match h : step s e with
    | none =>
      decidable_of_iff (P s e) ⟨fun hp => ⟨hp, fun _ hs => (nomatch h.symm.trans hs)⟩, And.left⟩
    | some s' =>
      have := decidableStepsMeet (P := P) s' es
      decidable_of_iff (P s e ∧ StepsMeet step P s' es)
        ⟨fun hp => ⟨hp.1, fun _ hs => Option.some.inj (h.symm.trans hs) ▸ hp.2⟩,
          fun hp => ⟨hp.1, hp.2 s' h⟩⟩

/-! ## The steps of a run -/

theorem steps_cons_some {s s' : S} {e : E} (h : step s e = some s') (es : List E) :
    steps step s (e :: es) = (s, e, s') :: steps step s' es := by
  rw [steps, h]

/-- The steps of two lists of events, one behind the other. -/
theorem steps_append {s t : S} {es : List E} (h : run step s es = some t) (fs : List E) :
    steps step s (es ++ fs) = steps step s es ++ steps step t fs := by
  induction es generalizing s with
  | nil =>
    cases h
    rfl
  | cons e es ih =>
    rw [run_cons] at h
    obtain ⟨s', hs', hrun⟩ := Option.bind_eq_some_iff.mp h
    rw [List.cons_append, steps_cons_some hs', steps_cons_some hs', ih hrun, List.cons_append]

/-- The events of the steps are events of the run. -/
theorem event_mem_of_mem_steps {s : S} {es : List E} {x : S × E × S} (h : x ∈ steps step s es) :
    x.2.1 ∈ es := by
  induction es generalizing s with
  | nil => cases h
  | cons e es ih =>
    unfold steps at h
    cases he : step s e with
    | none => rw [he] at h; cases h
    | some s' =>
      rw [he] at h
      rcases List.mem_cons.mp h with rfl | h
      · exact List.mem_cons_self
      · exact List.mem_cons_of_mem _ (ih h)

/-- **Invariant rule with a history.** An invariant that ties the state to the steps
taken so far holds before every step of a run whose steps meet `P`. -/
theorem steps_history {P : S → E → Prop} {I : List (S × E × S) → S → Prop}
    (hstep : ∀ hist s e s', I hist s → P s e → step s e = some s' →
      I (hist ++ [(s, e, s')]) s') :
    ∀ {es : List E} {hist pre post : List (S × E × S)} {s : S} {x : S × E × S},
      I hist s → StepsMeet step P s es → steps step s es = pre ++ x :: post →
      I (hist ++ pre) x.1 ∧ P x.1 x.2.1 ∧ step x.1 x.2.1 = some x.2.2 := by
  intro es
  induction es with
  | nil =>
    intro hist pre post s x _ _ hx
    exact absurd hx.symm (List.append_ne_nil_of_right_ne_nil _ (List.cons_ne_nil _ _))
  | cons e es ih =>
    intro hist pre post s x hs hmeet hx
    cases he : step s e with
    | none =>
      rw [steps, he] at hx
      exact absurd hx.symm (List.append_ne_nil_of_right_ne_nil _ (List.cons_ne_nil _ _))
    | some s' =>
      rw [steps_cons_some he] at hx
      -- the step looked at is the first one, or one behind it, its history then one longer
      cases pre with
      | nil =>
        obtain ⟨rfl, -⟩ := List.cons_eq_cons.mp hx
        rw [List.append_nil]
        exact ⟨hs, hmeet.1, he⟩
      | cons y pre =>
        obtain ⟨hy, hrest⟩ := List.cons_eq_cons.mp hx
        have := ih (hstep hist s e s' hs hmeet.1 he) (hmeet.2 s' he) hrest
        rwa [hy, List.append_assoc] at this

/-- The invariant rule with a history, for the state a run leads to. -/
theorem run_history {P : S → E → Prop} {I : List (S × E × S) → S → Prop}
    (hstep : ∀ hist s e s', I hist s → P s e → step s e = some s' → I (hist ++ [(s, e, s')]) s')
    {es : List E} {s t : S} (hs : I [] s) (hmeet : StepsMeet step P s es)
    (h : run step s es = some t) : I (steps step s es) t := by
  suffices hgen : ∀ (es : List E) (hist : List (S × E × S)) (s : S), I hist s →
      StepsMeet step P s es → run step s es = some t → I (hist ++ steps step s es) t from
    hgen es [] s hs hmeet h
  intro es
  induction es with
  | nil =>
    intro hist s hs _ h
    obtain rfl := Option.some.inj h
    rwa [steps, List.append_nil]
  | cons e es ih =>
    intro hist s hs hmeet h
    rw [run_cons] at h
    obtain ⟨s', hs', hrun⟩ := Option.bind_eq_some_iff.mp h
    have hnext := ih (hist ++ [(s, e, s')]) s' (hstep hist s e s' hs hmeet.1 hs') (hmeet.2 s' hs') hrun
    rwa [List.append_assoc, List.singleton_append, ← steps_cons_some hs'] at hnext

end machine

/-! ## Noninterference by unwinding -/

section unwinding

variable {S : Type u} {E : Type v} {step : S → E → Option S} {own : E → Bool} {P : E → Prop}
variable {R : S → S → Prop} {s s' t t' : S} {es : List E}

/-- The unwinding conditions, for events of which `P` holds. -/
structure Unwinds (step : S → E → Option S) (own : E → Bool) (P : E → Prop)
    (R : S → S → Prop) : Prop where
  sees : ∀ s t e, P e → own e = true → R s t → Option.Rel R (step s e) (step t e)
  ignores : ∀ s s' t e, P e → own e = false → R s t → step s e = some s' → R s' t

/-- **Who observes does not notice the others.** -/
theorem Unwinds.run (hu : Unwinds step own P R) (hP : ∀ e ∈ es, P e) (h : R s t)
    (hs : run step s es = some s') : ∃ t', Lib.run step t (es.filter own) = some t' ∧ R s' t' := by
  induction es generalizing s t with
  | nil =>
    obtain rfl := Option.some.inj hs
    exact ⟨t, rfl, h⟩
  | cons e es ih =>
    rw [run_cons] at hs
    obtain ⟨s₁, hs₁, hs⟩ := Option.bind_eq_some_iff.mp hs
    have hPe := hP e List.mem_cons_self
    have hPes : ∀ f ∈ es, P f := fun f hf => hP f (List.mem_cons_of_mem e hf)
    -- an event of its own is taken by both, one of the others by the first only
    cases hown : own e with
    | true =>
      have hrel := hu.sees s t e hPe hown h
      rw [hs₁] at hrel
      generalize ht₁ : step t e = o at hrel
      cases hrel with
      | some hr =>
        rw [List.filter_cons_of_pos hown, run_cons, ht₁]
        exact ih hPes hr hs
    | false =>
      rw [List.filter_cons_of_neg (by rw [hown]; exact Bool.false_ne_true)]
      exact ih hPes (hu.ignores s s₁ t e hPe hown h hs₁) hs

/-- And where no other gets stuck, neither does who observes, if not alone. -/
theorem Unwinds.run_back (hu : Unwinds step own P R) (hP : ∀ e ∈ es, P e) (h : R s t)
    (hother : StepsMeet step (fun s e => own e = false → ∃ s', step s e = some s') s es)
    (ht : Lib.run step t (es.filter own) = some t') :
    ∃ s', Lib.run step s es = some s' ∧ R s' t' := by
  induction es generalizing s t with
  | nil =>
    obtain rfl := Option.some.inj ht
    exact ⟨s, rfl, h⟩
  | cons e es ih =>
    have hPe := hP e List.mem_cons_self
    have hPes : ∀ f ∈ es, P f := fun f hf => hP f (List.mem_cons_of_mem e hf)
    cases hown : own e with
    | true =>
      rw [List.filter_cons_of_pos hown, run_cons] at ht
      obtain ⟨t₁, ht₁, ht⟩ := Option.bind_eq_some_iff.mp ht
      have hrel := hu.sees s t e hPe hown h
      rw [ht₁] at hrel
      generalize hs₁ : step s e = o at hrel
      cases hrel with
      | @some s₁ _ hr =>
        rw [run_cons, hs₁]
        exact ih hPes hr (hother.2 s₁ hs₁) ht
    | false =>
      rw [List.filter_cons_of_neg (by rw [hown]; exact Bool.false_ne_true)] at ht
      obtain ⟨s₁, hs₁⟩ := hother.1 hown
      rw [run_cons, hs₁]
      exact ih hPes (hu.ignores s s₁ t e hPe hown h hs₁) (hother.2 s₁ hs₁) ht

end unwinding

/-! ## Two programs in lockstep -/

section lockstep

variable {ε : Type u} {α α' β β' γ : Type v}

/-- Both fail with one error, or both return what `R` relates. -/
inductive Lockstep (R : α → β → Prop) : Except ε α → Except ε β → Prop
  | ok {a : α} {b : β} (h : R a b) : Lockstep R (.ok a) (.ok b)
  | error {e : ε} : Lockstep R (.error e) (.error e)

namespace Lockstep

variable {R : α → β → Prop} {x : Except ε α} {y : Except ε β}

theorem refl (x : Except ε α) : Lockstep Eq x x := by
  cases x with
  | error e => exact .error
  | ok a => exact .ok rfl

/-- Programs in a row. -/
theorem bind {R' : α' → β' → Prop} {f : α → Except ε α'} {k : β → Except ε β'}
    (h : Lockstep R x y) (hf : ∀ a b, R a b → Lockstep R' (f a) (k b)) :
    Lockstep R' (x.bind f) (y.bind k) := by
  cases h with
  | ok h => exact hf _ _ h
  | error => exact .error

/-- What is made of the results. -/
theorem map {R' : α' → β' → Prop} {f : α → α'} {k : β → β'} (h : Lockstep R x y)
    (hf : ∀ a b, R a b → R' (f a) (k b)) : Lockstep R' (x.map f) (y.map k) := by
  cases h with
  | ok h => exact .ok (hf _ _ h)
  | error => exact .error

/-- A loop over one list keeps what its body keeps. -/
theorem foldlM {f : α → γ → Except ε α} {k : β → γ → Except ε β} {l : List γ}
    (hbody : ∀ i ∈ l, ∀ a b, R a b → Lockstep R (f a i) (k b i)) {a : α} {b : β} (h : R a b) :
    Lockstep R (l.foldlM f a) (l.foldlM k b) := by
  induction l generalizing a b with
  | nil => exact .ok h
  | cons i l ih =>
    rw [List.foldlM_cons, List.foldlM_cons]
    refine bind (hbody i List.mem_cons_self a b h) fun a' b' h' => ?_
    exact ih (fun j hj => hbody j (List.mem_cons_of_mem i hj)) h'

/-- What is returned is what each returns. -/
theorem and_eq (h : Lockstep R x y) :
    Lockstep (fun a b => R a b ∧ x = .ok a ∧ y = .ok b) x y := by
  cases h with
  | ok h => exact .ok ⟨h, rfl, rfl⟩
  | error => exact .error

end Lockstep

/-- A loop that returns keeps what its body keeps. -/
theorem foldlM_keeps {I : α → Prop} {f : α → γ → Except ε α} {l : List γ}
    (hbody : ∀ i ∈ l, ∀ a a', f a i = .ok a' → I a → I a') {a b : α}
    (h : l.foldlM f a = .ok b) (ha : I a) : I b := by
  induction l generalizing a with
  | nil =>
    obtain rfl := Except.ok.inj h
    exact ha
  | cons i l ih =>
    rw [List.foldlM_cons] at h
    cases hf : f a i with
    | error e =>
      rw [hf] at h
      cases h
    | ok a' =>
      rw [hf] at h
      exact ih (fun j hj => hbody j (List.mem_cons_of_mem i hj)) h
        (hbody i List.mem_cons_self a a' hf ha)

/-- A loop returns where its body does, as long as `I` holds. -/
theorem foldlM_returns {I : α → Prop} {f : α → γ → Except ε α} {l : List γ}
    (hbody : ∀ i ∈ l, ∀ a, I a → ∃ a', f a i = .ok a' ∧ I a') {a : α} (ha : I a) :
    ∃ b, l.foldlM f a = .ok b := by
  induction l generalizing a with
  | nil => exact ⟨a, rfl⟩
  | cons i l ih =>
    obtain ⟨a', hf, ha'⟩ := hbody i List.mem_cons_self a ha
    rw [List.foldlM_cons, hf]
    exact ih (fun j hj => hbody j (List.mem_cons_of_mem i hj)) ha'

end lockstep

end Lib
