import Qigong.Conf.Archives

/-!
# Frequencies as they are read (qicollect.cpp:775–936)

A set reaches its check from two states of the reader. Both lie behind the first tag, and a
tag may stand where a frequency may: so a set comes to its check without a frequency exactly
where a tag follows its connection (`frequent_iff`).

The numbers of a frequency are multiplied by their units without a look at the result, which
is that of the machine: it is the exact product as long as that fits (`frequencies_exact_iff`).
-/

namespace Qigong.Conf

variable {E : ConfEnv} {s text : Bytes} {x x' : Cursor} {y y' z : Reading} {cs cs' : CollectionSet}

/-! ## Turns of the inner loop -/

/-- The turn at the place of a frequency or a tag. -/
theorem readstate_colentry (hst : x.r.state = .seekcolentry) (h : readstate E s x = .ok x') :
    E.seekspace s x.p = npos ∧ x' = { x with p := npos } ∨
      E.seekspace s x.p ≠ npos ∧ s[E.seekspace s x.p]? = some 40 ∧
        x' = { x with r := { x.r with state := .seekrddtabledef }, p := E.seekspace s x.p + 1 } ∨
      E.seekspace s x.p ≠ npos ∧ s[E.seekspace s x.p]? ≠ some 40 ∧
        x' = { x with r := { x.r with state := .seektagname }, p := E.seekspace s x.p } := by
  unfold readstate at h
  rw [hst] at h
  dsimp only at h
  split at h
  case isTrue hp => exact .inl ⟨hp, (Except.ok.inj h).symm⟩
  case isFalse hp =>
    split at h
    case isTrue hc => exact .inr (.inl ⟨hp, hc, (Except.ok.inj h).symm⟩)
    case isFalse hc => exact .inr (.inr ⟨hp, hc, (Except.ok.inj h).symm⟩)

/-! ## Sets without a frequency -/

/-- The reader is where `validate_freqs` is called. -/
def AtCheck (E : ConfEnv) (s : Bytes) (x : Cursor) : Prop :=
  x.r.state = .seektagorend ∧ s[x.p]? = some 125 ∨
    x.r.state = .seektagname ∧ (E.getidentifier s x.p).1 = str "collect"

/-- The reader calls `validate_freqs` on a set. -/
def Validates (E : ConfEnv) (y : Reading) (cs : CollectionSet) : Prop :=
  y.InLine ∧ AtCheck E y.s y.toCursor ∧ y.r.pcurcs = some cs

/-- The reader comes to something else than a frequency while the set has none. -/
def Skips (E : ConfEnv) (y : Reading) : Prop :=
  y.InLine ∧ y.r.state = .seekcolentry ∧ (∃ cs, y.r.pcurcs = some cs ∧ cs.lfreq = []) ∧
    E.seekspace y.s y.p ≠ npos ∧ y.s[E.seekspace y.s y.p]? ≠ some 40

/-- The reader is at the tags of a set. -/
def AtTags (r : ReadConf) : Prop :=
  r.state = .seektagorend ∨ r.state = .seektagname ∨ r.state = .seekequal ∨
    r.state = .seekcollectfn ∨ r.state = .seekendparam

/-- The set of which the tags are read has a frequency. -/
def Frequented (r : ReadConf) : Prop := AtTags r → ∀ cs, r.pcurcs = some cs → cs.lfreq ≠ []

/-- It has none. -/
def Bare (r : ReadConf) : Prop := AtTags r ∧ ∃ cs, r.pcurcs = some cs ∧ cs.lfreq = []

/-- **What a turn does at the tags**: the set keeps its frequencies, unless it is checked. -/
theorem atTags_step (h : Step E s x x') (htags : AtTags x.r) :
    AtTags x'.r ∧ x'.r.pcurcs.map (·.lfreq) = x.r.pcurcs.map (·.lfreq) ∨
      ¬ AtTags x'.r ∧ AtCheck E s x := by
  cases h with
  | lineEnds => exact .inl ⟨htags, rfl⟩
  | tagnext => exact .inl ⟨.inr (.inl rfl), rfl⟩
  | tagname => exact .inl ⟨.inr (.inr (.inl rfl)), rfl⟩
  | equal => exact .inl ⟨.inr (.inr (.inr (.inl rfl))), rfl⟩
  | parambegin => exact .inl ⟨.inr (.inr (.inr (.inr rfl))), rfl⟩
  | fn n p cs _ _ _ _ _ hcs | param q params cs _ _ _ hcs =>
    refine .inl ⟨.inl rfl, ?_⟩
    rw [hcs]
    rfl
  | close _ _ _ hst hc => exact .inr ⟨by simp [AtTags], .inl ⟨hst, hc⟩⟩
  | closeCollect p _ _ _ hst hi => exact .inr ⟨by simp [AtTags], .inr ⟨hst, congrArg Prod.fst hi⟩⟩
  -- the other steps are from states away from the tags
  | host _ hst | serverkey _ hst | hostname _ _ hst | serverkeyname _ _ hst | hostbegin hst
  | collect _ hst | collectname _ _ hst | connection _ _ _ _ _ hst | freqbegin hst | nofreq hst
  | interval _ hst | multiplier hst | duration _ hst | freqend _ hst =>
    simp [AtTags, hst] at htags

/-- The tags of a set are come to from its frequencies. -/
theorem step_atTags (h : Step E s x x') (htags : AtTags x'.r) :
    AtTags x.r ∨ x.r.state = .seekcolentry := by
  cases h with
  | lineEnds => exact .inl htags
  | nofreq hst => exact .inr hst
  | tagnext hst => exact .inl (.inl hst)
  | tagname _ _ hst => exact .inl (.inr (.inl hst))
  | equal hst => exact .inl (.inr (.inr (.inl hst)))
  | parambegin _ _ hst | fn _ _ _ hst => exact .inl (.inr (.inr (.inr (.inl hst))))
  | param _ _ _ hst => exact .inl (.inr (.inr (.inr (.inr hst))))
  | host | serverkey | hostname | serverkeyname | hostbegin | collect | collectname | connection
  | freqbegin | interval | multiplier | duration | freqend | close | closeCollect =>
    simp [AtTags] at htags

/-- The configuration gets a set only where it is checked. -/
theorem atCheck_of_conf (h : Step E s x x') : x'.conf = x.conf ∨
    ∃ cs cs', AtCheck E s x ∧ x.r.pcurcs = some cs ∧
      cs.validate_freqs E.beyond = some (cs', 0) ∧ x.conf.push_back cs' = some x'.conf := by
  cases h with
  | close cs cs' conf hst hc hcs hv hpush => exact .inr ⟨cs, cs', .inl ⟨hst, hc⟩, hcs, hv, hpush⟩
  | closeCollect p cs cs' conf hst hi hcs hv hpush =>
    exact .inr ⟨cs, cs', .inr ⟨hst, congrArg Prod.fst hi⟩, hcs, hv, hpush⟩
  | lineEnds | host | serverkey | hostname | serverkeyname | hostbegin | collect | collectname
  | connection | freqbegin | nofreq | interval | multiplier | duration | freqend | tagnext
  | tagname | equal | parambegin | fn | param => exact .inl rfl

/-- A set that is checked is at its tags. -/
theorem Validates.atTags (h : Validates E y cs) : AtTags y.r := by
  rcases h.2.1 with ⟨hst, -⟩ | ⟨hst, -⟩
  · exact .inl hst
  · exact .inr (.inl hst)

/-- Behind a tag in the place of a frequency, the set is without one. -/
theorem Skips.bare (h : Skips E y) (hturn : turn E y = .inl y') : Bare y'.r := by
  obtain ⟨hin, hst, ⟨cs, hcs, hnil⟩, hp, hc⟩ := h
  -- the third of the cases of the state is the only one left
  have hr : y'.r = { y.r with state := .seektagname } := by
    rcases readstate_colentry hst (turn_inLine hin hturn) with ⟨hp', -⟩ | ⟨-, hc', -⟩ | ⟨-, -, heq⟩
    · exact absurd hp' hp
    · exact absurd hc' hc
    · exact congrArg Cursor.r heq
  rw [hr]
  exact ⟨.inr (.inl rfl), cs, hcs, hnil⟩

/-- A set without a frequency stays so until it is checked. -/
theorem Bare.turn (h : Bare y.r) (hturn : Conf.turn E y = .inl y')
    (hcheck : ∀ cs, Validates E y cs → cs.lfreq ≠ []) : Bare y'.r := by
  obtain ⟨htags, cs, hcs, hnil⟩ := h
  rcases turn_eq_inl hturn with ⟨hin, hstep, -, -⟩ | ⟨-, s, rest, -, rfl⟩
  · rcases atTags_step hstep htags with ⟨htags', hkeep⟩ | ⟨-, hat⟩
    · rw [hcs] at hkeep
      obtain ⟨cs', hcs', hl⟩ := Option.map_eq_some_iff.mp hkeep
      exact ⟨htags', cs', hcs', hl.trans hnil⟩
    · exact absurd hnil (hcheck cs ⟨hin, hat, hcs⟩)
  · exact ⟨htags, cs, hcs, hnil⟩

/-- A set keeps having a frequency, unless a tag comes where none has been read. -/
theorem Frequented.turn (h : Frequented y.r) (hturn : Conf.turn E y = .inl y')
    (hskip : ¬ Skips E y) : Frequented y'.r := by
  rcases turn_eq_inl hturn with ⟨hin, hstep, -, -⟩ | ⟨-, s, rest, -, rfl⟩
  · intro htags' cs' hcs'
    rcases step_atTags hstep htags' with htags | hst
    · rcases atTags_step hstep htags with ⟨-, hkeep⟩ | ⟨hno, -⟩
      · rw [hcs'] at hkeep
        obtain ⟨cs, hcs, hl⟩ := Option.map_eq_some_iff.mp hkeep.symm
        have hl : cs.lfreq = cs'.lfreq := hl
        exact hl ▸ h htags cs hcs
      · exact absurd htags' hno
    · -- the tag stands where a frequency may
      rcases readstate_colentry hst (turn_inLine hin hturn) with
        ⟨-, heq⟩ | ⟨-, -, heq⟩ | ⟨hp, hc, heq⟩
      · rw [heq] at htags'
        simp [AtTags, hst] at htags'
      · rw [heq] at htags'
        simp [AtTags] at htags'
      · rw [heq] at hcs'
        exact fun hnil => hskip ⟨hin, hst, ⟨cs', hcs', hnil⟩, hp, hc⟩
  · exact h

/-- Every set that is checked has a frequency, and every set of the configuration an
archive. -/
def Frequent (E : ConfEnv) (text : Bytes) : Prop :=
  (∀ y cs, Comes E text y → Validates E y cs → cs.lfreq ≠ []) ∧
    ∀ y k cs, Comes E text y → y.conf.find? k = some cs → ∃ as, cs.archives = some as ∧ as ≠ []

/-- The check keeps the entries. -/
theorem mem_validate_freqs {beyond : Int} {nbw : Nat}
    (hv : cs.validate_freqs beyond = some (cs', nbw)) {f : CollectFreqDuration} :
    f ∈ cs'.lfreq ↔ f ∈ cs.lfreq := by
  unfold CollectionSet.validate_freqs at hv
  obtain ⟨n, -, hv⟩ := Option.map_eq_some_iff.mp hv
  obtain ⟨rfl, -⟩ := Prod.mk.inj hv
  exact List.mem_insertionSort _

theorem validate_freqs_ne_nil {beyond : Int} {nbw : Nat} (hne : cs.lfreq ≠ [])
    (hv : cs.validate_freqs beyond = some (cs', nbw)) : cs'.lfreq ≠ [] := by
  obtain ⟨f, hf⟩ := List.exists_mem_of_ne_nil _ hne
  exact List.ne_nil_of_mem ((mem_validate_freqs hv).mpr hf)

theorem Validated.archives_ne_nil (h : Validated cs) (hne : cs.lfreq ≠ []) :
    ∃ as, cs.archives = some as ∧ as ≠ [] := by
  obtain ⟨as, has, hall⟩ := h.archives (R := fun _ _ => True) fun _ _ _ _ _ => trivial
  refine ⟨as, has, fun hnil => hne ?_⟩
  rw [hnil] at hall
  exact List.forall₂_nil_right_iff.mp hall

/-- Where all sets that are checked have a frequency, those of the configuration have. -/
theorem conf_ne_nil (hall : ∀ y cs, Comes E text y → Validates E y cs → cs.lfreq ≠ [])
    (h : Comes E text y) {k : Bytes} (hcs : y.conf.find? k = some cs) : cs.lfreq ≠ [] := by
  have hboth : Comes E text y ∧ ∀ k cs, y.conf.find? k = some cs → cs.lfreq ≠ [] := by
    refine Lib.Turns.invariant (I := fun z => Comes E text z ∧
      ∀ k cs, z.conf.find? k = some cs → cs.lfreq ≠ []) (fun a b ⟨ha, hconf⟩ hab => ?_) h
      ⟨.refl, fun k cs hk => nomatch hk⟩
    refine ⟨ha.tail hab, ?_⟩
    -- a set goes into the configuration behind its check, with the entries it had
    have hclose : ∀ {cs cs' : CollectionSet} {conf' : CollectionsConf}, Validates E a cs →
        cs.validate_freqs E.beyond = some (cs', 0) → a.conf.push_back cs' = some conf' →
        ∀ k cs, conf'.find? k = some cs → cs.lfreq ≠ [] := by
      intro cs cs' conf' hval hv hpush k cs₁ hk
      obtain ⟨-, rfl⟩ := CollectionsConf.push_back_eq_some.mp hpush
      rw [Lib.OrdMap.find?_insert] at hk
      split at hk
      · exact Option.some.inj hk ▸ validate_freqs_ne_nil (hall a cs ha hval) hv
      · exact hconf k cs₁ hk
    rcases turn_eq_inl hab with ⟨hin, hstep, -, -⟩ | ⟨-, s, rest, -, rfl⟩
    · rcases atCheck_of_conf hstep with hsame | ⟨cs, cs', hat, hcs, hv, hpush⟩
      · rw [hsame]
        exact hconf
      · exact hclose ⟨hin, hat, hcs⟩ hv hpush
    · exact hconf
  exact hboth.2 k cs hcs

/-- **When every set has a frequency**: where no tag comes in the place of the first
frequency, or the text breaks off before the set is checked. -/
theorem frequent_iff : Frequent E text ↔
    ∀ y, Comes E text y → Skips E y → ∀ z cs, Lib.Turns (turn E) y z → ¬ Validates E z cs := by
  constructor
  · rintro ⟨hall, -⟩ y hy hskip z cs hz hval
    rcases hz.cases_head with rfl | ⟨y₁, hy₁, hz⟩
    · have htags := hval.atTags
      simp [AtTags, hskip.2.1] at htags
    · -- the set is without a frequency all the way to its check
      have hbare : Comes E text z ∧ Bare z.r :=
        Lib.Turns.invariant (I := fun z => Comes E text z ∧ Bare z.r)
          (fun a b ⟨ha, hbare⟩ hab => ⟨ha.tail hab, hbare.turn hab fun cs => hall a cs ha⟩) hz
          ⟨hy.tail hy₁, hskip.bare hy₁⟩
      obtain ⟨hcomes, -, cs', hcs', hnil⟩ := hbare
      obtain rfl := Option.some.inj (hcs'.symm.trans hval.2.2)
      exact hall z cs' hcomes hval hnil
  · intro hno
    have hall : ∀ y cs, Comes E text y → Validates E y cs → cs.lfreq ≠ [] := by
      intro y cs hy hval
      -- along the turns: a frequency has been read, or a tag came in its place
      have hor : Comes E text y ∧
          (Frequented y.r ∨ ∃ w, Comes E text w ∧ Skips E w ∧ Lib.Turns (turn E) w y) := by
        refine Lib.Turns.invariant (I := fun y => Comes E text y ∧ (Frequented y.r ∨
          ∃ w, Comes E text w ∧ Skips E w ∧ Lib.Turns (turn E) w y)) ?_ hy ⟨.refl, .inl ?_⟩
        · rintro a b ⟨ha, hfreq | ⟨w, hw, hskip, hturns⟩⟩ hab
          · by_cases hskip : Skips E a
            · exact ⟨ha.tail hab, .inr ⟨a, ha, hskip, .single hab⟩⟩
            · exact ⟨ha.tail hab, .inl (hfreq.turn hab hskip)⟩
          · exact ⟨ha.tail hab, .inr ⟨w, hw, hskip, hturns.tail hab⟩⟩
        · intro htags
          simp [AtTags, begin, ReadConf.fresh] at htags
      rcases hor.2 with hfreq | ⟨w, hw, hskip, hturns⟩
      · exact hfreq hval.atTags cs hval.2.2
      · exact absurd hval (hno w hw hskip y cs hturns)
    refine ⟨hall, fun y k cs hy hcs => ?_⟩
    exact (comes_validated hy hcs).archives_ne_nil (conf_ne_nil hall hy hcs)

/-- A set without a frequency is checked. -/
theorem checked_without_frequency :
    ¬ ∀ (E : ConfEnv) (text : Bytes) (y : Reading) (cs : CollectionSet), Comes E text y →
      Validates E y cs → cs.lfreq ≠ [] := by
  intro h
  have hany : (Lib.after (turn (sampleEnv [str "f"])) 14 (begin (frequenciesText ""))).any (fun y =>
      y.p == 0 && y.s == [125] && y.r.state == .seektagorend && y.r.pcurcs.any (·.lfreq.isEmpty))
      = true := by decide +kernel
  obtain ⟨y, hafter, hand⟩ := (Option.any_eq_true _ _).mp hany
  simp only [Bool.and_eq_true, beq_iff_eq] at hand
  obtain ⟨⟨⟨hp, hs⟩, hst⟩, hcs⟩ := hand
  obtain ⟨cs, hcs, hnil⟩ := (Option.any_eq_true _ _).mp hcs
  have hin : y.InLine := by
    rw [Reading.InLine, hp, hs]
    decide
  have hat : AtCheck (sampleEnv [str "f"]) y.s y.toCursor := by
    refine .inl ⟨hst, ?_⟩
    rw [hs, hp]
    rfl
  exact h _ _ y cs (Lib.Turns.of_after hafter) ⟨hin, hat, hcs⟩ (List.isEmpty_iff.mp hnil)

/-! ## Numbers and units -/

/-- The number and the unit that a turn reads, where it reads a time. -/
def timeAt (E : ConfEnv) (y : Reading) : Option (Int × Int) :=
  if y.InLine ∧ (y.r.state = .seekrddtabledef ∨ y.r.state = .seekrddtable2nd) then
    let v := E.getinteger y.s y.p
    if v.1 = 0 ∨ v.2 = npos then none else (y.s[v.2]?.bind unitOf).map (v.1, ·)
  else none

/-- What the turn from `y` to `y'` has stored. -/
def stored (y y' : Reading) : Int :=
  if y.r.state = .seekrddtabledef then y'.r.freq.interval else y'.r.freq.duration

theorem unitOf_pos {c : UInt8} {u : Int} (h : unitOf c = some u) : 0 < u := by
  unfold unitOf at h
  repeat' split at h
  all_goals cases h
  all_goals decide

theorem timeAt_eq_some {v u : Int} : timeAt E y = some (v, u) ↔
    (y.InLine ∧ (y.r.state = .seekrddtabledef ∨ y.r.state = .seekrddtable2nd)) ∧
      ((E.getinteger y.s y.p).1 ≠ 0 ∧ (E.getinteger y.s y.p).2 ≠ npos) ∧
      v = (E.getinteger y.s y.p).1 ∧ y.s[(E.getinteger y.s y.p).2]?.bind unitOf = some u := by
  unfold timeAt
  dsimp only
  rw [Option.ite_none_right_eq_some, Option.ite_none_left_eq_some, not_or, Option.map_eq_some_iff]
  -- what is left is the unit behind the number
  refine and_congr_right fun _ => and_congr_right fun _ => ⟨?_, ?_⟩
  · rintro ⟨u', hu, heq⟩
    obtain ⟨rfl, rfl⟩ := Prod.mk.inj heq
    exact ⟨rfl, hu⟩
  · rintro ⟨rfl, hu⟩
    exact ⟨u, hu, rfl⟩

/-- The turn that reads a time goes on, and stores what the machine multiplies. -/
theorem turn_timeAt {v u : Int} (h : timeAt E y = some (v, u)) :
    ∃ y', turn E y = .inl y' ∧ stored y y' = mulLong v u := by
  obtain ⟨⟨hin, hst⟩, ⟨hv, hp⟩, rfl, hu⟩ := timeAt_eq_some.mp h
  unfold turn readstate
  rw [if_pos hin]
  rcases hst with hst | hst <;> rw [hst] <;> dsimp only [readtime] <;>
    rw [if_neg hv, if_neg hp, hu]
  · exact ⟨_, rfl, if_pos hst⟩
  · exact ⟨_, rfl, if_neg (by rw [hst]; decide)⟩

theorem pos_of_timeAt {v u : Int} (h : timeAt E y = some (v, u)) : 0 < u := by
  obtain ⟨-, -, -, hu⟩ := timeAt_eq_some.mp h
  obtain ⟨c, -, hc⟩ := Option.bind_eq_some_iff.mp hu
  exact unitOf_pos hc

/-- The product of the machine is the exact one where that fits. -/
theorem mulLong_eq_iff {v u : Int} (hv : 0 ≤ v) (hu : 0 < u) :
    mulLong v u = v * u ↔ v * u ≤ 2 ^ 63 - 1 := by
  have hnonneg : 0 ≤ v * u := Int.mul_nonneg hv (Int.le_of_lt hu)
  constructor
  · intro h
    have hlt : mulLong v u < 2 ^ 63 := Int.bmod_lt (by decide)
    omega
  · intro hle
    unfold mulLong
    exact Int.bmod_eq_of_le (by omega) (by omega)

/-- An interval that the text gives, as an exact number of seconds. -/
def WrittenInterval (E : ConfEnv) (text : Bytes) (n : Int) : Prop :=
  ∃ y v u, Comes E text y ∧ y.r.state = .seekrddtabledef ∧ timeAt E y = some (v, u) ∧
    n = v * u ∧ 0 < n

/-- A duration that it gives. -/
def WrittenDuration (E : ConfEnv) (text : Bytes) (n : Int) : Prop :=
  ∃ y v u, Comes E text y ∧ y.r.state = .seekrddtable2nd ∧ timeAt E y = some (v, u) ∧
    n = v * u ∧ 0 < n

/-- The entry is one of the text, as exact numbers of seconds. -/
def Written (E : ConfEnv) (text : Bytes) (f : CollectFreqDuration) : Prop :=
  WrittenInterval E text f.interval ∧ WrittenDuration E text f.duration

/-- What the reader holds of frequencies is what is written. -/
structure HoldsWritten (E : ConfEnv) (text : Bytes) (r : ReadConf) (conf : CollectionsConf) :
    Prop where
  interval : r.state = .seekmultiplier ∨ r.state = .seekrddtable2nd ∨ r.state = .seekrddenpar →
    WrittenInterval E text r.freq.interval
  duration : r.state = .seekrddenpar → WrittenDuration E text r.freq.duration
  pcurcs : ∀ cs, r.pcurcs = some cs → ∀ f ∈ cs.lfreq, Written E text f
  conf : ∀ k cs, conf.find? k = some cs → ∀ f ∈ cs.lfreq, Written E text f

/-- Every time is stored as it is written, and is positive. -/
def Exact (E : ConfEnv) (text : Bytes) : Prop :=
  ∀ y y' v u, Comes E text y → timeAt E y = some (v, u) → turn E y = .inl y' →
    stored y y' = v * u ∧ 0 < stored y y'

/-- The product of every number with its unit fits. -/
def Fits (E : ConfEnv) (text : Bytes) : Prop :=
  ∀ y v u, Comes E text y → timeAt E y = some (v, u) → v * u ≤ 2 ^ 63 - 1

theorem readtime_cases {found : Int → ReadConf} (h : readtime E s x found = .ok x') :
    x'.r = x.r ∨ (E.getinteger s x.p).1 ≠ 0 ∧ (E.getinteger s x.p).2 ≠ npos ∧
      ∃ u, s[(E.getinteger s x.p).2]?.bind unitOf = some u := by
  unfold readtime at h
  dsimp only at h
  split at h
  case isTrue =>
    split at h
    case isTrue => exact .inl (congrArg Cursor.r (Except.ok.inj h)).symm
    case isFalse =>
      split at h
      · cases h
      · cases h
  case isFalse hv =>
    split at h
    case isTrue => cases h
    case isFalse hp =>
      split at h
      case h_1 u hu => exact .inr ⟨hv, hp, u, hu⟩
      case h_2 => cases h

/-- A turn where a time is expected reads one, or ends the line. -/
theorem turn_time (hin : y.InLine)
    (hst : y.r.state = .seekrddtabledef ∨ y.r.state = .seekrddtable2nd)
    (h : turn E y = .inl y') : y'.r = y.r ∨ ∃ v u, timeAt E y = some (v, u) := by
  have hread := turn_inLine hin h
  have hcases : y'.r = y.r ∨ (E.getinteger y.s y.p).1 ≠ 0 ∧ (E.getinteger y.s y.p).2 ≠ npos ∧
      ∃ u, y.s[(E.getinteger y.s y.p).2]?.bind unitOf = some u := by
    unfold readstate at hread
    rcases hst with hst | hst <;> rw [hst] at hread <;> exact readtime_cases hread
  refine hcases.imp_right fun ⟨hv, hp, u, hu⟩ => ?_
  exact ⟨(E.getinteger y.s y.p).1, u, timeAt_eq_some.mpr ⟨⟨hin, hst⟩, ⟨hv, hp⟩, rfl, hu⟩⟩

/-- Times are stored exactly where all the products fit. -/
theorem exact_iff (hint : ∀ s p, 0 ≤ (E.getinteger s p).1) : Exact E text ↔ Fits E text := by
  have hone : ∀ {y y' : Reading} {v u : Int}, timeAt E y = some (v, u) → turn E y = .inl y' →
      (stored y y' = v * u ∧ 0 < stored y y' ↔ v * u ≤ 2 ^ 63 - 1) := by
    intro y y' v u h hturn
    obtain ⟨y₁, hy₁, hstored⟩ := turn_timeAt h
    obtain rfl := Sum.inl.inj (hturn.symm.trans hy₁)
    obtain ⟨-, ⟨hne, -⟩, hv, -⟩ := timeAt_eq_some.mp h
    -- no sign is read, and 0 is taken for no number
    have hpos : 0 < v := by
      have hnonneg := hint y.s y.p
      omega
    have hu := pos_of_timeAt h
    rw [hstored, ← mulLong_eq_iff (Int.le_of_lt hpos) hu]
    exact and_iff_left_of_imp fun heq => heq ▸ Int.mul_pos hpos hu
  constructor
  · intro hexact y v u hy h
    obtain ⟨y', hy', -⟩ := turn_timeAt h
    exact (hone h hy').mp (hexact y y' v u hy h hy')
  · exact fun hfits y y' v u hy h hturn => (hone h hturn).mpr (hfits y v u hy h)

theorem HoldsWritten.close (h : HoldsWritten E text x.r x.conf) {beyond : Int} {nbw : Nat}
    {conf' : CollectionsConf} (hcs : x.r.pcurcs = some cs)
    (hv : cs.validate_freqs beyond = some (cs', nbw)) (hpush : x.conf.push_back cs' = some conf') :
    ∀ k cs, conf'.find? k = some cs → ∀ f ∈ cs.lfreq, Written E text f := by
  intro k cs₁ hk f hf
  obtain ⟨-, rfl⟩ := CollectionsConf.push_back_eq_some.mp hpush
  rw [Lib.OrdMap.find?_insert] at hk
  split at hk
  · obtain rfl := Option.some.inj hk
    exact h.pcurcs cs hcs f ((mem_validate_freqs hv).mp hf)
  · exact h.conf k cs₁ hk f hf

/-- Between the frequencies, it is the sets that count. -/
theorem HoldsWritten.of_sets {r : ReadConf} {conf : CollectionsConf}
    (hm : r.state ≠ .seekmultiplier) (h2 : r.state ≠ .seekrddtable2nd) (he : r.state ≠ .seekrddenpar)
    (hpcurcs : ∀ cs, r.pcurcs = some cs → ∀ f ∈ cs.lfreq, Written E text f)
    (hconf : ∀ k cs, conf.find? k = some cs → ∀ f ∈ cs.lfreq, Written E text f) :
    HoldsWritten E text r conf where
  interval hst := by simp [hm, h2, he] at hst
  duration hst := absurd hst he
  pcurcs := hpcurcs
  conf := hconf

/-- What is read of a frequency is what is written, where times are stored exactly. -/
theorem HoldsWritten.turn (hexact : Exact E text) (hy : Comes E text y)
    (h : HoldsWritten E text y.r y.conf) (hturn : Conf.turn E y = .inl y') :
    HoldsWritten E text y'.r y'.conf := by
  rcases turn_eq_inl hturn with ⟨hin, hstep, -, -⟩ | ⟨-, s, rest, -, rfl⟩
  · obtain ⟨⟨r', conf', p'⟩, s', rest'⟩ := y'
    obtain ⟨⟨r, conf, p⟩, s, rest⟩ := y
    dsimp only at hstep h ⊢
    -- both states of times read one, or end the line
    have htime : ∀ hst, r' = r ∨ ∃ v u, timeAt E ⟨⟨r, conf, p⟩, s, rest⟩ = some (v, u) :=
      fun hst => turn_time hin hst hturn
    have hexact := fun v u ht => hexact _ _ v u hy ht hturn
    cases hstep with
    | lineEnds => exact h
    | interval v hst =>
      rcases htime (.inl hst) with heq | ⟨v', u, ht⟩
      · exact heq ▸ h
      · -- the interval stays, and its turn is what it is known by
        have hstored := hexact v' u ht
        rw [stored, if_pos hst] at hstored
        exact ⟨fun _ => ⟨_, v', u, hy, hst, ht, hstored⟩, nofun, h.pcurcs, h.conf⟩
    | duration v hst =>
      rcases htime (.inr hst) with heq | ⟨v', u, ht⟩
      · exact heq ▸ h
      · have hstored := hexact v' u ht
        have hother : r.state ≠ .seekrddtabledef := fun hfirst => nomatch hst.symm.trans hfirst
        rw [stored, if_neg hother] at hstored
        exact ⟨fun _ => h.interval (.inr (.inl hst)), fun _ => ⟨_, v', u, hy, hst, ht, hstored⟩,
          h.pcurcs, h.conf⟩
    | multiplier hst => exact ⟨fun _ => h.interval (.inl hst), nofun, h.pcurcs, h.conf⟩
    | freqend cs hst _ hcs =>
      refine .of_sets nofun nofun nofun (fun cs' hcs' f hf => ?_) h.conf
      obtain rfl := Option.some.inj hcs'
      rcases List.mem_append.mp hf with hf | hf
      · exact h.pcurcs cs hcs f hf
      · obtain rfl := List.mem_singleton.mp hf
        exact ⟨h.interval (.inr (.inr hst)), h.duration hst⟩
    | connection =>
      exact .of_sets nofun nofun nofun (fun _ hcs _ hf => nomatch Option.some.inj hcs ▸ hf) h.conf
    | close cs cs' conf' _ _ hcs hv hpush =>
      exact .of_sets nofun nofun nofun nofun (h.close hcs hv hpush)
    | closeCollect p cs cs' conf' _ _ hcs hv hpush =>
      exact .of_sets nofun nofun nofun nofun (h.close hcs hv hpush)
    | host | serverkey | hostname | serverkeyname | hostbegin | collect | collectname
    | freqbegin | nofreq | tagnext | tagname | equal | parambegin =>
      exact .of_sets nofun nofun nofun h.pcurcs h.conf
    | fn _ _ cs _ _ _ _ _ hcs | param _ _ cs _ _ _ hcs =>
      refine .of_sets nofun nofun nofun (fun cs' hcs' f hf => ?_) h.conf
      obtain rfl := Option.some.inj hcs'
      exact h.pcurcs cs hcs f hf
  · exact h

/-- Every set of the configuration has the frequencies of the text. -/
theorem comes_written (hexact : Exact E text) (h : Comes E text y) {k : Bytes}
    (hcs : y.conf.find? k = some cs) : ∀ f ∈ cs.lfreq, Written E text f := by
  have hboth : Comes E text y ∧ HoldsWritten E text y.r y.conf :=
    Lib.Turns.invariant (I := fun y => Comes E text y ∧ HoldsWritten E text y.r y.conf)
      (fun a b ⟨ha, hholds⟩ hab => ⟨ha.tail hab, hholds.turn hexact ha hab⟩) h
      ⟨.refl, .of_sets nofun nofun nofun nofun fun _ _ hk => nomatch hk⟩
  exact hboth.2.conf k cs hcs

theorem close_traps (hcs : x.r.pcurcs = some cs) (hv : cs.validate_freqs E.beyond = none) (p : Nat)
    (next : ReadConf → ReadConf) : close E x p next = .error (.throws .overflow) := by
  unfold close
  rw [hcs]
  dsimp only
  rw [hv]

/-- A set that cannot be checked ends the reading. -/
theorem readstate_traps (hat : AtCheck E s x) (hcs : x.r.pcurcs = some cs)
    (hv : cs.validate_freqs E.beyond = none) : readstate E s x = .error (.throws .overflow) := by
  unfold readstate
  -- the set is checked at its brace, or at the next `collect`
  rcases hat with ⟨hst, hc⟩ | ⟨hst, hi⟩
  · rw [hst]
    dsimp only
    rw [if_pos hc]
    exact close_traps hcs hv _ _
  · rw [hst]
    dsimp only
    unfold readword
    rw [hi, if_neg (by decide)]
    dsimp only
    rw [if_pos rfl]
    exact close_traps hcs hv _ _

/-- Where the text is read to its end, no check has divided by zero. -/
theorem validated_of_returns {conf : CollectionsConf} (h : Reads E text (.returns 0) conf)
    (hy : Comes E text y) (hval : Validates E y cs) : (cs.validate_freqs E.beyond).isSome := by
  obtain ⟨hin, hat, hcs⟩ := hval
  by_contra hnone
  have hv : cs.validate_freqs E.beyond = none := Option.not_isSome_iff_eq_none.mp hnone
  have hturn : Conf.turn E y = .inr (.throws .overflow, y.conf) := by
    unfold Conf.turn
    rw [if_pos hin, readstate_traps hat hcs hv]
  -- the loops end once: with 0, or in the trap
  cases (h.turns hy).unique (.of_inr hturn)

/-- **When frequencies are exact**: where the products of all numbers with their units fit. -/
theorem frequencies_exact_iff (hint : ∀ s p, 0 ≤ (E.getinteger s p).1) {conf : CollectionsConf}
    (h : Reads E text (.returns 0) conf) :
    (Exact E text ∧
      (∀ y cs, Comes E text y → Validates E y cs → (cs.validate_freqs E.beyond).isSome) ∧
      ∀ k cs, conf.find? k = some cs → cs.archives.isSome ∧ ∀ f ∈ cs.lfreq, Written E text f) ↔
    Fits E text := by
  refine ⟨fun ⟨hexact, _⟩ => (exact_iff hint).mp hexact, fun hfits => ?_⟩
  have hexact := (exact_iff hint).mpr hfits
  refine ⟨hexact, fun y cs hy hval => validated_of_returns h hy hval, fun k cs hcs => ?_⟩
  obtain ⟨y, hy, hend⟩ := Lib.returns_iff.mp h
  obtain ⟨rfl, -⟩ := turn_eq_inr hend
  obtain ⟨as, has, -⟩ :=
    (comes_validated hy hcs).archives (R := fun _ _ => True) fun _ _ _ _ _ => trivial
  exact ⟨Option.isSome_of_eq_some has, comes_written hexact hy hcs⟩

theorem frequencies_exact_iff_hour :
    ∃ conf, Reads (sampleEnv [str "f"]) (frequenciesText "(60s x 1h)") (.returns 0) conf ∧
      ((Exact (sampleEnv [str "f"]) (frequenciesText "(60s x 1h)") ∧
        (∀ y cs, Comes (sampleEnv [str "f"]) (frequenciesText "(60s x 1h)") y →
          Validates (sampleEnv [str "f"]) y cs → (cs.validate_freqs 0).isSome) ∧
        ∀ k cs, conf.find? k = some cs → cs.archives.isSome ∧
          ∀ f ∈ cs.lfreq, Written (sampleEnv [str "f"]) (frequenciesText "(60s x 1h)") f) ↔
      Fits (sampleEnv [str "f"]) (frequenciesText "(60s x 1h)")) := by
  obtain ⟨conf, hreads, -⟩ := exists_reads "(60s x 1h)" (frequenciesSet 60 [⟨60, 3600⟩])
    (by decide +kernel)
  exact ⟨conf, hreads, frequencies_exact_iff sampleScanners_nonneg hreads⟩

/-- 307445734561825861 minutes are stored as 44 seconds. -/
theorem long_duration_inexact :
    ¬ ∀ (E : ConfEnv) (text : Bytes) (conf : CollectionsConf), (∀ s p, 0 ≤ (E.getinteger s p).1) →
      Reads E text (.returns 0) conf → (∀ k cs, conf.find? k = some cs → cs.lfreq ≠ []) →
      Exact E text := by
  intro h
  obtain ⟨conf, hreads, hconf⟩ := exists_reads "(1s x 307445734561825861m)"
    (frequenciesSet 1 [⟨1, 44⟩]) (by decide +kernel)
  have hexact := h _ _ conf sampleScanners_nonneg hreads fun k cs hcs => by
    obtain ⟨-, rfl⟩ := (hconf k cs).mp hcs
    exact List.cons_ne_nil _ _
  have hany : (Lib.after (turn (sampleEnv [str "f"])) 10
      (begin (frequenciesText "(1s x 307445734561825861m)"))).any (fun y =>
        timeAt (sampleEnv [str "f"]) y == some (307445734561825861, 60)) = true := by decide +kernel
  obtain ⟨y, hafter, ht⟩ := (Option.any_eq_true _ _).mp hany
  rw [beq_iff_eq] at ht
  have hfits := (exact_iff sampleScanners_nonneg).mp hexact y _ _ (Lib.Turns.of_after hafter) ht
  exact absurd hfits (by decide)

end Qigong.Conf
