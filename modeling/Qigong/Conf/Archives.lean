import Mathlib.Algebra.Order.Group.Unbundled.Int
import Qigong.Conf.Steps
import Qigong.Lib.Fields

/-!
# The archives of a set (qicollect.cpp:454–518)

`validate_freqs` refuses a set with an interval that is no multiple of the shortest one. Of a
duration that is no multiple of its interval it only tells that it will be rounded up;
`buildmissing_rrd` divides it, and rounds it down (`archives_keep_iff`).
-/

namespace Qigong.Conf

/-! ## `CollectionSet::buildmissing_rrd` -/

/-- A round-robin archive: how many steps make a row, and how many rows it has. -/
structure Archive where
  cf : Bytes
  steps : Int
  rows : Int

/-- The argument that defines an archive. -/
def Archive.text (a : Archive) : Bytes :=
  Lib.joined 58 [str "RRA", a.cf, str "0.5", decimal a.steps, decimal a.rows]

theorem Archive.text_eq (a : Archive) : a.text
    = str "RRA:" ++ a.cf ++ str ":0.5:" ++ decimal a.steps ++ str ":" ++ decimal a.rows := by
  show str "RRA" ++ ([58] ++ (a.cf ++ ([58] ++ (str "0.5" ++ ([58] ++ (decimal a.steps ++
    ([58] ++ (decimal a.rows ++ []))))))))
      = str "RRA:" ++ a.cf ++ str ":0.5:" ++ decimal a.steps ++ str ":" ++ decimal a.rows
  rw [show str "RRA:" = str "RRA" ++ [58] from rfl,
    show str ":0.5:" = [58] ++ (str "0.5" ++ [58]) from rfl, show str ":" = [58] from rfl]
  simp only [List.append_assoc, List.append_nil]

/-- One turn of the loop over the frequencies; `none` where a division has no result. -/
def archiveOf (base_interval : Int) (first : Bool) (li : CollectFreqDuration) : Option Archive :=
  (ldiv li.interval base_interval).bind fun steps =>
    (ldiv li.duration li.interval).map fun rows =>
      ⟨if first then str "LAST" else str "AVERAGE", steps.1, rows.1⟩

def archivesFrom (base_interval : Int) : (first : Bool) → List CollectFreqDuration →
    Option (List Archive)
  | _, [] => some []
  | first, li :: l =>
    (archiveOf base_interval first li).bind fun a =>
      (archivesFrom base_interval false l).map (a :: ·)

namespace CollectionSet

/-- The archives of a set (qicollect.cpp:507–518). -/
def archives (cs : CollectionSet) : Option (List Archive) :=
  archivesFrom cs.base_interval true cs.lfreq

/-- `CollectionSet::buildmissing_rrd` (qicollect.cpp:477–535): the arguments of `rrd_create`,
none where the file is there already. `get_DSdef` is that of the points. -/
def buildmissing_rrd (cs : CollectionSet) (rrd_path : Bytes) (stat : Bytes → Bool) (now : Int)
    (get_DSdef : TaggedMeasuredPoint → Int → Bytes) : Option (Option (List Bytes)) :=
  let fullname := rrd_path ++ str "/" ++ cs.key ++ str ".rrd"
  if stat fullname then some none
  else
    let heartbeat := 2 * cs.base_interval
    cs.archives.map fun as =>
      some ([str "create", fullname, str "--start", decimal now, str "--step",
          decimal cs.base_interval]
        ++ cs.lptagmp.map (get_DSdef · heartbeat) ++ as.map Archive.text)

end CollectionSet

/-! ## Sets that have passed their check -/

variable {E : ConfEnv} {cs cs' : CollectionSet} {base_interval beyond : Int}

theorem ldiv_eq_some {a b : Int} {q : Int × Int} (h : ldiv a b = some q) :
    b ≠ 0 ∧ q = (a.tdiv b, a.tmod b) := by
  unfold ldiv at h
  split at h
  case isTrue => cases h
  case isFalse hb => exact ⟨fun h0 => hb (.inl h0), (Option.some.inj h).symm⟩

/-- An entry that is not counted is a multiple of the base interval, and its duration can be
divided by it. -/
theorem warned_eq_self {n : Nat} {f : CollectFreqDuration}
    (h : warned base_interval n f = some n) :
    (∃ q, ldiv f.interval base_interval = some (q, 0) ∧ q * base_interval = f.interval) ∧
      ∃ r, ldiv f.duration f.interval = some r := by
  obtain ⟨q, hq, h⟩ := Option.bind_eq_some_iff.mp h
  obtain ⟨r, hr, hn⟩ := Option.map_eq_some_iff.mp h
  have hzero : q.2 = 0 := by
    by_contra hne
    rw [if_pos hne] at hn
    omega
  obtain ⟨hb, heq⟩ := ldiv_eq_some hq
  have hmul : q.1 * base_interval = f.interval := by
    have hsplit := Int.tdiv_mul_add_tmod f.interval base_interval
    rw [heq] at hzero ⊢
    dsimp only at hzero ⊢
    omega
  rw [hmul] at hr
  exact ⟨⟨q.1, hq.trans (congrArg some (Prod.ext rfl hzero)), hmul⟩, r, hr⟩

theorem le_of_warned {n m : Nat} {f : CollectFreqDuration}
    (h : warned base_interval n f = some m) : n ≤ m := by
  obtain ⟨q, -, h⟩ := Option.bind_eq_some_iff.mp h
  obtain ⟨r, -, hm⟩ := Option.map_eq_some_iff.mp h
  split at hm <;> omega

/-- Counting goes up only, so where nothing is counted no entry is. -/
theorem forall_warned {l : List CollectFreqDuration} {n m : Nat}
    (h : l.foldlM (warned base_interval) n = some m) :
    n ≤ m ∧ (n = m → ∀ f ∈ l, warned base_interval n f = some n) := by
  induction l generalizing n with
  | nil => exact ⟨Nat.le_of_eq (Option.some.inj h), fun _ _ hf => nomatch hf⟩
  | cons f l ih =>
    obtain ⟨k, hk, h⟩ := Option.bind_eq_some_iff.mp h
    have hle := le_of_warned hk
    obtain ⟨hle', hall⟩ := ih h
    refine ⟨hle.trans hle', fun hn => ?_⟩
    obtain rfl : n = k := by omega
    exact List.forall_mem_cons.mpr ⟨hk, hall hn⟩

/-- What is known of a set that has passed its check. -/
structure Validated (cs : CollectionSet) : Prop where
  multiple : ∀ f ∈ cs.lfreq, ∃ q, ldiv f.interval cs.base_interval = some (q, 0) ∧
    q * cs.base_interval = f.interval
  divided : ∀ f ∈ cs.lfreq, ∃ r, ldiv f.duration f.interval = some r
  least : ∀ f ∈ cs.lfreq, cs.base_interval ≤ f.interval
  first : cs.lfreq = [] ∨ ∃ f ∈ cs.lfreq, f.interval = cs.base_interval

theorem pairwise_sorted (l : List CollectFreqDuration) :
    (l.insertionSort fun a b => a.interval ≤ b.interval).Pairwise
      fun a b => a.interval ≤ b.interval := by
  have htotal : Std.Total fun a b : CollectFreqDuration => a.interval ≤ b.interval :=
    ⟨fun _ _ => Int.le_total _ _⟩
  have htrans : IsTrans CollectFreqDuration fun a b => a.interval ≤ b.interval :=
    ⟨fun _ _ _ => Int.le_trans⟩
  exact List.pairwise_insertionSort _ l

theorem validated (hv : cs.validate_freqs beyond = some (cs', 0)) : Validated cs' := by
  unfold CollectionSet.validate_freqs at hv
  obtain ⟨n, hfold, hv⟩ := Option.map_eq_some_iff.mp hv
  obtain ⟨rfl, rfl⟩ := Prod.mk.inj hv
  obtain ⟨-, hall⟩ := forall_warned hfold
  have hwarned := fun f hf => warned_eq_self (hall rfl f hf)
  have hsorted := pairwise_sorted cs.lfreq
  refine ⟨fun f hf => (hwarned f hf).1, fun f hf => (hwarned f hf).2, ?_, ?_⟩ <;> dsimp only
  · intro f hf
    cases hl : cs.lfreq.insertionSort fun a b => a.interval ≤ b.interval with
    | nil =>
      rw [hl] at hf
      cases hf
    | cons g l =>
      rw [hl] at hf hsorted
      rcases List.mem_cons.mp hf with rfl | hf
      · exact Int.le_refl _
      · exact List.rel_of_pairwise_cons hsorted hf
  · cases hl : cs.lfreq.insertionSort fun a b => a.interval ≤ b.interval with
    | nil => exact .inl rfl
    | cons g l => exact .inr ⟨g, List.mem_cons_self, rfl⟩

/-- The sets of the configuration have passed their check. -/
theorem comes_validated {text : Bytes} {y : Reading} (h : Comes E text y) {k : Bytes}
    (hcs : y.conf.find? k = some cs) : Validated cs := by
  have hclose : ∀ {conf conf' : CollectionsConf} {cs cs' : CollectionSet},
      (∀ k cs, conf.find? k = some cs → Validated cs) →
      cs.validate_freqs E.beyond = some (cs', 0) → conf.push_back cs' = some conf' →
      ∀ k cs, conf'.find? k = some cs → Validated cs := by
    intro conf conf' cs cs' hall hv hpush k cs₁ hk
    obtain ⟨-, rfl⟩ := CollectionsConf.push_back_eq_some.mp hpush
    rw [Lib.OrdMap.find?_insert] at hk
    split at hk
    · exact Option.some.inj hk ▸ validated hv
    · exact hall k cs₁ hk
  refine turns_invariant (I := fun _ conf => ∀ k cs, conf.find? k = some cs → Validated cs)
    (fun s x x' hstep hall => ?_) h (fun _ _ hk => nomatch hk) k cs hcs
  cases hstep with
  | close _ _ _ _ _ _ hv hpush | closeCollect _ _ _ _ _ _ _ hv hpush => exact hclose hall hv hpush
  | lineEnds | host | serverkey | hostname | serverkeyname | hostbegin | collect | collectname
  | connection | freqbegin | nofreq | interval | multiplier | duration | freqend | tagnext
  | tagname | equal | parambegin | fn | param => exact hall

/-! ## What is kept -/

/-- The archive of an entry of a set that has passed its check. -/
theorem Validated.archiveOf (h : Validated cs) {f : CollectFreqDuration} (hf : f ∈ cs.lfreq)
    (first : Bool) : ∃ a, Conf.archiveOf cs.base_interval first f = some a ∧
      a.steps * cs.base_interval = f.interval ∧ a.rows = f.duration.tdiv f.interval := by
  obtain ⟨q, hq, hmul⟩ := h.multiple f hf
  obtain ⟨r, hr⟩ := h.divided f hf
  unfold Conf.archiveOf
  rw [hq, hr]
  exact ⟨_, rfl, hmul, congrArg Prod.fst (ldiv_eq_some hr).2⟩

/-- A set that has passed its check gets an archive for each entry. -/
theorem Validated.archives (h : Validated cs) {R : CollectFreqDuration → Archive → Prop}
    (hR : ∀ f ∈ cs.lfreq, ∀ a, a.steps * cs.base_interval = f.interval →
      a.rows = f.duration.tdiv f.interval → R f a) :
    ∃ as, cs.archives = some as ∧ List.Forall₂ R cs.lfreq as := by
  have hall : ∀ (l : List CollectFreqDuration) (first : Bool), (∀ f ∈ l, f ∈ cs.lfreq) →
      ∃ as, archivesFrom cs.base_interval first l = some as ∧ List.Forall₂ R l as := by
    intro l
    induction l with
    | nil => exact fun _ _ => ⟨[], rfl, .nil⟩
    | cons f l ih =>
      intro first hl
      rw [List.forall_mem_cons] at hl
      obtain ⟨a, ha, hsteps, hrows⟩ := h.archiveOf hl.1 first
      obtain ⟨as, has, hrest⟩ := ih false hl.2
      rw [archivesFrom, ha, has]
      exact ⟨a :: as, rfl, .cons (hR f hl.1 a hsteps hrows) hrest⟩
  exact hall cs.lfreq true fun _ hf => hf

/-- A duration rounded up to the next multiple of its interval. -/
def RoundedUp (f : CollectFreqDuration) (kept : Int) : Prop :=
  IsLeast {m | f.interval ∣ m ∧ f.duration ≤ m} kept

/-- What `validate_freqs` announces is the duration rounded up. -/
theorem announced_roundedUp {f : CollectFreqDuration} (hi : 0 < f.interval)
    (hd : 0 < f.duration) (hmod : f.duration.tmod f.interval ≠ 0) :
    RoundedUp f ((1 + f.duration.tdiv f.interval) * f.interval) := by
  obtain ⟨interval, duration⟩ := f
  dsimp only at hi hd hmod
  have hsplit := Int.tdiv_mul_add_tmod duration interval
  have hnonneg := Int.tmod_nonneg interval (Int.le_of_lt hd)
  have hlt := Int.tmod_lt_of_pos duration hi
  constructor
  · refine ⟨Int.dvd_mul_left _ _, ?_⟩
    dsimp only
    rw [Int.add_mul, Int.one_mul]
    omega
  · rintro m ⟨⟨k, rfl⟩, hle⟩
    dsimp only at hle ⊢
    -- a multiple below would be the one below the duration
    have hk : duration.tdiv interval < k := by
      by_contra hge
      have hmul := Int.mul_le_mul_of_nonneg_left (Int.not_lt.mp hge) (Int.le_of_lt hi)
      rw [Int.mul_comm interval (duration.tdiv interval)] at hmul
      omega
    rw [Int.mul_comm interval k]
    exact Int.mul_le_mul_of_nonneg_right (by omega) (Int.le_of_lt hi)

/-- Rounded down is rounded up only where there is nothing to round. -/
theorem roundedUp_iff {f : CollectFreqDuration} (hd : 0 < f.duration) :
    RoundedUp f (f.duration.tdiv f.interval * f.interval) ↔ f.interval ∣ f.duration := by
  have hsplit := Int.tdiv_mul_add_tmod f.duration f.interval
  have hnonneg := Int.tmod_nonneg f.interval (Int.le_of_lt hd)
  constructor
  · rintro ⟨⟨-, hle⟩, -⟩
    apply Int.dvd_of_tmod_eq_zero
    omega
  · intro hdvd
    rw [Int.tdiv_mul_cancel hdvd]
    exact ⟨⟨hdvd, Int.le_refl _⟩, fun m hm => hm.2⟩

theorem buildmissing_rrd_archives {as : List Archive} (h : cs.archives = some as)
    (rrd_path : Bytes) {stat : Bytes → Bool}
    (hstat : stat (rrd_path ++ str "/" ++ cs.key ++ str ".rrd") = false) (now : Int)
    (get_DSdef : TaggedMeasuredPoint → Int → Bytes) :
    ∃ args, cs.buildmissing_rrd rrd_path stat now get_DSdef
      = some (some (args ++ as.map Archive.text)) := by
  unfold CollectionSet.buildmissing_rrd
  dsimp only
  rw [hstat, if_neg Bool.false_ne_true, h]
  exact ⟨_, rfl⟩

/-- **What the archives keep**: of each pair an archive is defined, which keeps the interval
always, and the duration rounded up, as it is announced, where there is nothing to round. -/
theorem archives_keep_iff {text : Bytes} {conf : CollectionsConf}
    (h : Reads E text (.returns 0) conf) {k : Bytes} (hcs : conf.find? k = some cs)
    (hpos : ∀ f ∈ cs.lfreq, 0 < f.interval ∧ 0 < f.duration) :
    ∃ as, (∀ rrd_path stat now get_DSdef,
        stat (rrd_path ++ str "/" ++ cs.key ++ str ".rrd") = false →
        ∃ args, cs.buildmissing_rrd rrd_path stat now get_DSdef
          = some (some (args ++ as.map fun a : Archive =>
            str "RRA:" ++ a.cf ++ str ":0.5:" ++ decimal a.steps ++ str ":" ++ decimal a.rows))) ∧
      List.Forall₂ (fun f a => a.steps * cs.base_interval = f.interval ∧
        (RoundedUp f (a.rows * f.interval) ↔ f.interval ∣ f.duration)) cs.lfreq as := by
  obtain ⟨y, hy, hend⟩ := Lib.returns_iff.mp h
  obtain ⟨rfl, -⟩ := turn_eq_inr hend
  obtain ⟨as, has, hall⟩ := (comes_validated hy hcs).archives
    (R := fun f a => a.steps * cs.base_interval = f.interval ∧
      (RoundedUp f (a.rows * f.interval) ↔ f.interval ∣ f.duration)) fun f hf a hsteps hrows =>
    ⟨hsteps, hrows ▸ roundedUp_iff (hpos f hf).2⟩
  refine ⟨as, fun rrd_path _ now get_DSdef hstat => ?_, hall⟩
  obtain ⟨args, hargs⟩ := buildmissing_rrd_archives has rrd_path hstat now get_DSdef
  exact ⟨args, by rw [hargs, funext Archive.text_eq]⟩

/-! ## A set to try -/

/-- A configuration with these frequencies. -/
def frequenciesText (freqs : String) : Bytes :=
  str "host h \x7bcollect k h " ++ str freqs ++ str "\na=f\n\x7d"

/-- Its set, with its frequencies in order. -/
def frequenciesSet (base_interval : Int) (lfreq : List CollectFreqDuration) : CollectionSet :=
  { CollectionSet.make [] (str "k") (str "h") (str "h") defaultPort with
    lptagmp := [⟨str "a", str "f", []⟩], lfreq := lfreq, base_interval := base_interval }

/-- It is read within sixty turns. -/
theorem exists_reads (freqs : String) (cs : CollectionSet)
    (h : (Lib.loop (turn (sampleEnv [str "f"])) 60 (begin (frequenciesText freqs))).any (fun r =>
      r.1 == .returns 0 && r.2.entries == [(str "h_k", cs)]) = true) :
    ∃ conf, Reads (sampleEnv [str "f"]) (frequenciesText freqs) (.returns 0) conf ∧
      ∀ k' cs', conf.find? k' = some cs' ↔ k' = str "h_k" ∧ cs' = cs := by
  obtain ⟨⟨how, conf⟩, hloop, hand⟩ := (Option.any_eq_true _ _).mp h
  rw [Bool.and_eq_true, beq_iff_eq, beq_iff_eq] at hand
  obtain ⟨rfl, hentries⟩ := hand
  refine ⟨conf, ⟨60, hloop⟩, fun k' cs' => ?_⟩
  rw [Lib.OrdMap.find?_eq_some_iff, hentries, List.mem_singleton, Prod.mk.injEq]

/-- Its archives, the durations of which are multiples of the intervals. -/
theorem archives_keep_iff_evenly :
    ∃ as args, (frequenciesSet 60 [⟨60, 3600⟩, ⟨300, 86400⟩]).buildmissing_rrd (str "/srv")
        (fun _ => false) 1000 (fun _ _ => [])
          = some (some (args ++ as.map fun a : Archive =>
            str "RRA:" ++ a.cf ++ str ":0.5:" ++ decimal a.steps ++ str ":" ++ decimal a.rows)) ∧
      List.Forall₂ (fun f a => a.steps * 60 = f.interval ∧
        (RoundedUp f (a.rows * f.interval) ↔ f.interval ∣ f.duration))
          [⟨60, 3600⟩, ⟨300, 86400⟩] as := by
  obtain ⟨conf, hreads, hconf⟩ := exists_reads "(5m x 1D) (60s x 1h)"
    (frequenciesSet 60 [⟨60, 3600⟩, ⟨300, 86400⟩]) (by decide +kernel)
  obtain ⟨as, hmade, hall⟩ := archives_keep_iff hreads ((hconf _ _).mpr ⟨rfl, rfl⟩) (by decide)
  obtain ⟨args, hargs⟩ := hmade (str "/srv") (fun _ => false) 1000 (fun _ _ => []) rfl
  exact ⟨as, args, hargs, hall⟩

/-- A duration of 90 seconds at an interval of 60 becomes one row. -/
theorem archives_drop_rest :
    ¬ ∀ (E : ConfEnv) (text k : Bytes) (conf : CollectionsConf) (cs : CollectionSet),
      Reads E text (.returns 0) conf → conf.find? k = some cs →
      (∀ f ∈ cs.lfreq, 0 < f.interval ∧ 0 < f.duration) →
      ∃ as, cs.archives = some as ∧
        List.Forall₂ (fun f a => a.steps * cs.base_interval = f.interval ∧
          RoundedUp f (a.rows * f.interval)) cs.lfreq as := by
  intro h
  obtain ⟨conf, hreads, hconf⟩ := exists_reads "(60s x 90s)" (frequenciesSet 60 [⟨60, 90⟩])
    (by decide +kernel)
  obtain ⟨as, has, hall⟩ := h _ _ _ conf _ hreads ((hconf _ _).mpr ⟨rfl, rfl⟩) (by decide)
  obtain rfl : [⟨str "LAST", 1, 1⟩] = as := Option.some.inj has
  obtain ⟨⟨-, ⟨-, hle⟩, -⟩, -⟩ := List.forall₂_cons.mp hall
  exact absurd hle (by decide)

end Qigong.Conf
