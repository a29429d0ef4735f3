import Qigong.Collect.Stamps

/-!
# Whose rrd a measure is recorded in

The rrd of a measure line is the key of the set that has the name on the line as its
full key; any other name is taken for an rrd as it stands (`rrdName`). So the updates of
a connection stay on the files of its own sets exactly where every measure line it
receives, while it collects, names one of them by its full key or its key
(`updates_own_iff`); one line that names another changes a foreign file
(`foreign_update`).
-/

namespace Qigong.Collect

open Crypt CollectingConn

variable {P : Platform}

/-- The file of an rrd (qicollect.cpp:159 and 478). -/
def rrdFile (rrd_path rrd_name : Bytes) : Bytes := rrd_path ++ str "/" ++ rrd_name ++ str ".rrd"

theorem rrdFile_inj {rrd_path n m : Bytes} : rrdFile rrd_path n = rrdFile rrd_path m ↔ n = m := by
  simp [rrdFile]

/-- The name a measure line gives is that of a set: its full key, or its key. -/
def NamesOneOf (sets : List CollectionSet) (rrd_name : Bytes) : Prop :=
  ∃ s ∈ sets, rrd_name = s.fullkey ∨ rrd_name = s.key

/-- The sets of a connection are those assigned to it. -/
theorem find?_foldl_assign (sets : List CollectionSet) (c : CollectingConn P) (k : Bytes)
    (s : CollectionSet) (h : (sets.foldl assign c).mpcs.find? k = some s) :
    c.mpcs.find? k = some s ∨ ∃ s₀ ∈ sets, s₀.fullkey = k ∧ s₀.key = s.key := by
  induction sets generalizing c with
  | nil => exact .inl h
  | cons s₁ ss ih =>
    rcases ih (c.assign s₁) h with h | ⟨s₀, hs₀, hk⟩
    · rw [show (c.assign s₁).mpcs = c.mpcs.insert s₁.fullkey
          { s₁ with state := .del_remote_for_create } from rfl, Lib.OrdMap.find?_insert] at h
      split at h
      case isTrue heq =>
        obtain rfl := Option.some.inj h
        exact .inr ⟨s₁, List.mem_cons_self, heq.symm, rfl⟩
      case isFalse => exact .inl h
    · exact .inr ⟨s₀, List.mem_cons_of_mem _ hs₀, hk⟩

theorem find?_assigned (sets : List CollectionSet) (c : CollectingConn P) (k : Bytes)
    (h : c.mpcs.contains k = true ∨ ∃ s ∈ sets, s.fullkey = k) :
    (sets.foldl assign c).mpcs.contains k = true := by
  induction sets generalizing c with
  | nil => exact h.elim id fun ⟨_, hs, _⟩ => absurd hs List.not_mem_nil
  | cons s₁ ss ih =>
    refine ih (c.assign s₁) ?_
    rw [show (c.assign s₁).mpcs = c.mpcs.insert s₁.fullkey
        { s₁ with state := .del_remote_for_create } from rfl, Lib.OrdMap.contains_insert]
    rcases h with h | ⟨s, hs, rfl⟩
    · exact .inl (.inr h)
    · rcases List.mem_cons.mp hs with rfl | hs
      · exact .inl (.inl rfl)
      · exact .inr ⟨s, hs, rfl⟩

/-- The rrd of a name is that of an assigned set exactly where the name is one of a set's. -/
theorem rrdName_own_iff (now : Int) (crypt : CryptConnection P) (sets : List CollectionSet)
    (n : Bytes) :
    (∃ s ∈ sets, rrdName (start now crypt sets).conn.mpcs n = s.key) ↔ NamesOneOf sets n := by
  unfold rrdName
  cases hf : (start now crypt sets).conn.mpcs.find? n with
  | some s =>
    obtain ⟨s₀, hs₀, hfull, hkey⟩ := (find?_foldl_assign sets _ n s hf).resolve_left
      fun h => (nomatch h)
    exact iff_of_true ⟨s₀, hs₀, hkey.symm⟩ ⟨s₀, hs₀, .inl hfull.symm⟩
  | none =>
    refine ⟨fun ⟨s, hs, h⟩ => ⟨s, hs, .inr h⟩, fun ⟨s, hs, h⟩ => ⟨s, hs, h.resolve_left ?_⟩⟩
    rintro rfl
    have hin := find?_assigned sets (construct now crypt) s.fullkey (.inr ⟨s, hs, rfl⟩)
    rw [Lib.OrdMap.contains, show (sets.foldl assign (construct now crypt)).mpcs.find? s.fullkey = _
      from hf] at hin
    cases hin

/-- Something is recorded for an rrd exactly where something is measured for it. -/
theorem recorded_ne_nil_iff {S : Scanners} {mpcs : MpCS} {w : Traced P} (hw : Remembers S mpcs w)
    (n : Bytes) : recorded n w.log ≠ [] ↔ measured S mpcs n w.log ≠ [] := by
  rw [hw.rises n]
  cases measured S mpcs n w.log with
  | nil => exact Iff.rfl
  | cons t ts =>
    have habove : Lib.Above none t := fun a h => (nomatch h)
    simp [Lib.rises, habove]

theorem recorded_ne_nil {n : Bytes} {log : List (Effect P)} :
    recorded n log ≠ [] ↔ ∃ t d, .rrd_update n t d ∈ log := by
  constructor
  · intro h
    obtain ⟨t, ht⟩ := List.exists_mem_of_ne_nil _ h
    obtain ⟨x, hx, hxt⟩ := List.mem_filterMap.mp ht
    cases x with
    | rrd_update m t' d =>
      dsimp only at hxt
      split at hxt
      case isTrue heq => exact ⟨t', d, heq ▸ hx⟩
      case isFalse => cases hxt
    | flushed | command | session | received => cases hxt
  · rintro ⟨t, d, hmem⟩
    exact List.ne_nil_of_mem (List.mem_filterMap.mpr ⟨_, hmem, if_pos rfl⟩)

theorem measured_ne_nil {S : Scanners} {mpcs : MpCS} {n : Bytes} {log : List (Effect P)} :
    measured S mpcs n log ≠ [] ↔ ∃ bufin now, .received bufin now true ∈ log ∧
      isMeasure bufin = true ∧ rrdName mpcs (S.getidentifier bufin 3).1 = n := by
  constructor
  · intro h
    obtain ⟨t, ht⟩ := List.exists_mem_of_ne_nil _ h
    obtain ⟨x, hx, hxt⟩ := List.mem_filterMap.mp ht
    cases x with
    | received bufin now collecting =>
      dsimp only at hxt
      split at hxt
      case isTrue hc =>
        obtain ⟨rfl, hmeas⟩ := (Bool.and_eq_true _ _).mp hc
        split at hxt
        case isTrue hn => exact ⟨bufin, now, hx, hmeas, hn⟩
        case isFalse => cases hxt
      case isFalse => cases hxt
    | flushed | command | session | rrd_update => cases hxt
  · rintro ⟨bufin, now, hmem, hmeas, rfl⟩
    refine List.ne_nil_of_mem (a := (parseMeasure S mpcs now bufin).2.1)
      (List.mem_filterMap.mpr ⟨_, hmem, ?_⟩)
    dsimp only
    rw [hmeas, Bool.and_self, if_pos rfl]
    exact if_pos rfl

/-- **Every update is on the file of an assigned set exactly where every measure line
names one**, in every sequence of the connection's operations. -/
theorem updates_own_iff {S : Scanners} {now : Int} {crypt : CryptConnection P}
    {sets : List CollectionSet} {l : List (Op P)} {w : Traced P}
    (h : Lib.run (opStep S) (start now crypt sets) l = some w) (rrd_path : Bytes) :
    (∀ n t d, .rrd_update n t d ∈ w.log → ∃ s ∈ sets, rrdFile rrd_path n = rrdFile rrd_path s.key) ↔
      ∀ bufin now, .received bufin now true ∈ w.log → isMeasure bufin = true →
        NamesOneOf sets (S.getidentifier bufin 3).1 := by
  have hw := Lib.run_invariant opStep_remembers (start_remembers S now crypt sets) h
  simp only [rrdFile_inj, ← rrdName_own_iff now crypt sets]
  -- an rrd is updated exactly where a line names it
  have hboth : ∀ n, (∃ t d, .rrd_update n t d ∈ w.log) ↔ ∃ bufin now',
      .received bufin now' true ∈ w.log ∧ isMeasure bufin = true ∧
        rrdName (start now crypt sets).conn.mpcs (S.getidentifier bufin 3).1 = n := by
    intro n
    rw [← recorded_ne_nil, recorded_ne_nil_iff hw n, measured_ne_nil]
  constructor
  · intro hall bufin now' hmem hmeas
    obtain ⟨t, d, hupd⟩ := (hboth _).mpr ⟨bufin, now', hmem, hmeas, rfl⟩
    exact hall _ t d hupd
  · intro hall n t d hmem
    obtain ⟨bufin, now', hrec, hmeas, hn⟩ := (hboth n).mp ⟨t, d, hmem⟩
    rw [← hn]
    exact hall bufin now' hrec hmeas

/-- The late measures of the sample set are its own. -/
theorem updates_own_iff_lateMeasures :
    ∃ w, Lib.run (opStep sampleScanners) (start 1000 sampleSupplicant [sampleSet]) lateMeasures
        = some w ∧
      ((∀ n t d, .rrd_update n t d ∈ w.log →
          ∃ s ∈ [sampleSet], rrdFile (str "/srv") n = rrdFile (str "/srv") s.key) ↔
        ∀ bufin now, .received bufin now true ∈ w.log → isMeasure bufin = true →
          NamesOneOf [sampleSet] (sampleScanners.getidentifier bufin 3).1) := by
  have hsome : (Lib.run (opStep sampleScanners) (start 1000 sampleSupplicant [sampleSet])
      lateMeasures).isSome = true := by
    decide +kernel
  obtain ⟨w, h⟩ := Option.isSome_iff_exists.mp hsome
  exact ⟨w, h, updates_own_iff h (str "/srv")⟩

/-- The qigong of one host measures for another. -/
def foreignMeasure : List (Op samplePlatform) :=
  lateMeasures ++ [.lineread 1000 (str "-->mail_load 990:1")]

/-- **A foreign file is updated**: the name on the line is no set's, and is taken for an
rrd. -/
theorem foreign_update :
    ¬ ∀ (P : Platform) (S : Scanners) (now : Int) (crypt : CryptConnection P)
      (sets : List CollectionSet) (l : List (Op P)) (w : Traced P) (rrd_path n : Bytes) (t : Int)
      (d : Bytes), Lib.run (opStep S) (start now crypt sets) l = some w →
      .rrd_update n t d ∈ w.log → ∃ s ∈ sets, rrdFile rrd_path n = rrdFile rrd_path s.key := by
  intro hall
  have hany : (Lib.run (opStep sampleScanners) (start 1000 sampleSupplicant [sampleSet])
      foreignMeasure).any (fun w => recorded (str "mail_load") w.log ≠ []) = true := by
    decide +kernel
  obtain ⟨w, h, hrec⟩ := (Option.any_eq_true _ _).mp hany
  obtain ⟨t, d, hmem⟩ := recorded_ne_nil.mp (of_decide_eq_true hrec)
  obtain ⟨s, hs, hfile⟩ := hall _ _ _ _ _ _ w [] _ t d h hmem
  obtain rfl := List.mem_singleton.mp hs
  exact absurd (rrdFile_inj.mp hfile) (by decide)

end Qigong.Collect
