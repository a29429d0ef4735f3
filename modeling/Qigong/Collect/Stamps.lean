import Qigong.Collect.Runs
import Qigong.Lib.Lists
import Mathlib.Data.Int.Order.Basic

/-!
# Time stamps of the recorded measures

`lineread` records a measure whose stamp is above the one remembered for its rrd, and
remembers every stamp, recorded or not: the stamps recorded for an rrd are the rises of
the stamps received for it (`recorded_eq_rises`), in every sequence of the connection's
operations. They increase exactly where no stamp comes that is above the one before it
and still not above all before it (`recorded_increasing_iff`); three lines break that
(`stamps_go_back`).
-/

namespace Qigong.Collect

open Crypt CollectingConn

variable {P : Platform}

/-- The stamps handed to `rrd_update` for an rrd. -/
def recorded (rrd_name : Bytes) (log : List (Effect P)) : List Int :=
  log.filterMap fun
    | .rrd_update n t _ => if n = rrd_name then some t else none
    | _ => none

/-- The stamps, corrected, of the measure lines received for an rrd while the connection
collects. -/
def measured (S : Scanners) (mpcs : MpCS) (rrd_name : Bytes) (log : List (Effect P)) : List Int :=
  log.filterMap fun
    | .received bufin now collecting =>
      if collecting && isMeasure bufin then
        let m := parseMeasure S mpcs now bufin
        if m.1 = rrd_name then some m.2.1 else none
      else none
    | _ => none

theorem recorded_append (rrd_name : Bytes) (log effs : List (Effect P)) :
    recorded rrd_name (log ++ effs) = recorded rrd_name log ++ recorded rrd_name effs :=
  List.filterMap_append ..

theorem measured_append (S : Scanners) (mpcs : MpCS) (rrd_name : Bytes)
    (log effs : List (Effect P)) :
    measured S mpcs rrd_name (log ++ effs)
      = measured S mpcs rrd_name log ++ measured S mpcs rrd_name effs :=
  List.filterMap_append ..

/-- Nothing is measured or recorded by effects of these kinds. -/
def Silent (effs : List (Effect P)) : Prop :=
  ∀ x ∈ effs, (∀ b n c, x ≠ .received b n c) ∧ ∀ n t d, x ≠ .rrd_update n t d

/-- Silent effects record nothing. -/
theorem Silent.recorded {effs : List (Effect P)} (h : Silent effs) (rrd_name : Bytes) :
    recorded rrd_name effs = [] := by
  refine List.filterMap_eq_nil_iff.mpr fun x hx => ?_
  cases x with
  | rrd_update n t d => exact absurd rfl ((h _ hx).2 n t d)
  | flushed | command | session | received => rfl

theorem Silent.measured {effs : List (Effect P)} (h : Silent effs) (S : Scanners) (mpcs : MpCS)
    (rrd_name : Bytes) : measured S mpcs rrd_name effs = [] := by
  refine List.filterMap_eq_nil_iff.mpr fun x hx => ?_
  cases x with
  | received b n c => exact absurd rfl ((h _ hx).1 b n c)
  | flushed | command | session | rrd_update => rfl

/-- The rrds of the sets are the same. -/
def SameNames (mpcs mpcs' : MpCS) : Prop := ∀ n, rrdName mpcs' n = rrdName mpcs n

/-- Changes of the sets that leave their keys alone leave the rrds alone. -/
theorem SameNames.mapVals (mpcs : MpCS) (f : Bytes → CollectionSet → CollectionSet)
    (hf : ∀ k s, (f k s).key = s.key) : SameNames mpcs (mpcs.mapVals f) := by
  intro n
  unfold rrdName
  rw [Lib.OrdMap.find?_mapVals]
  cases mpcs.find? n with
  | none => rfl
  | some s => exact hf n s

/-- A measure line reads the same with sets of the same rrds. -/
theorem SameNames.parse {mpcs mpcs' : MpCS} (h : SameNames mpcs mpcs') (S : Scanners) (now : Int)
    (bufin : Bytes) : parseMeasure S mpcs' now bufin = parseMeasure S mpcs now bufin := by
  simp only [parseMeasure, h _]

/-- What an operation that is not `lineread` may do, as far as stamps go: nothing. -/
structure Keeps (c c' : CollectingConn P) (effs : List (Effect P)) : Prop where
  names : SameNames c.mpcs c'.mpcs
  rrdlastupdate : c'.rrdlastupdate = c.rrdlastupdate
  silent : Silent effs

theorem Keeps.refl (c : CollectingConn P) : Keeps c c [] :=
  ⟨fun _ => rfl, rfl, fun _ h => (nomatch h)⟩

theorem Keeps.trans {c c' c'' : CollectingConn P} {e e' : List (Effect P)} (h : Keeps c c' e)
    (h' : Keeps c' c'' e') : Keeps c c'' (e ++ e') where
  names n := (h'.names n).trans (h.names n)
  rrdlastupdate := h'.rrdlastupdate.trans h.rrdlastupdate
  silent x hx := (List.mem_append.mp hx).elim (h.silent x) (h'.silent x)

/-- A change of other fields than the sets and the memory, and a flush. -/
theorem Keeps.of_flush {c c' : CollectingConn P} {b : CryptConnection P} (hm : c'.mpcs = c.mpcs)
    (hr : c'.rrdlastupdate = c.rrdlastupdate) : Keeps c c' [.flushed b] := by
  refine ⟨fun n => by rw [hm], hr, fun x hx => ?_⟩
  obtain rfl := List.mem_singleton.mp hx
  exact ⟨fun _ _ _ h => (nomatch h), fun _ _ _ h => (nomatch h)⟩

/-- A change of other fields, in silence. -/
theorem Keeps.of_eq {c c' : CollectingConn P} (hm : c'.mpcs = c.mpcs)
    (hr : c'.rrdlastupdate = c.rrdlastupdate) : Keeps c c' [] :=
  ⟨fun n => by rw [hm], hr, fun _ h => (nomatch h)⟩

section

variable {c : CollectingConn P}

/-- What a line does behind the measures: it flushes, or marks a set as ready. -/
theorem onLine_keeps (bufin : Bytes) (c : CollectingConn P) :
    Keeps c (c.onLine bufin).1 (c.onLine bufin).2 := by
  -- a flush, a change of state, a set marked, or nothing
  rcases onLine_cases bufin c with
    ⟨text, st, n, h, -⟩ | ⟨-, h⟩ | ⟨-, -, mpcs, h, hm⟩ | ⟨h, -⟩ <;> rw [h]
  · exact .of_flush rfl rfl
  · exact .of_eq rfl rfl
  · rcases hm with ⟨-, rfl⟩ | ⟨k, -, rfl⟩
    · exact .of_eq rfl rfl
    · refine ⟨SameNames.mapVals c.mpcs _ fun k' s => ?_, rfl, fun _ h => (nomatch h)⟩
      split <;> rfl
  · exact .refl c

theorem reconnect_hook_keeps (now : Int) (rand : Nat) (c : CollectingConn P) :
    Keeps c (c.reconnect_hook now rand) [] := by
  unfold reconnect_hook
  dsimp only
  split <;> exact .of_eq rfl rfl

/-- The watchdog greets, or gives the connection up. -/
theorem wake_keeps (env : PollEnv) (c : CollectingConn P) :
    Keeps c (c.wake env).1 (c.wake env).2 := by
  unfold wake
  split
  · dsimp only
    split
    · exact .of_flush rfl rfl
    · have hread : Keeps c { c with lastlineread := env.now } [] := .of_eq rfl rfl
      exact hread.trans (reconnect_hook_keeps env.now env.rand _)
  · exact .refl c

theorem pollReady_keeps (c : CollectingConn P) : Keeps c c.pollReady.1 c.pollReady.2 := by
  unfold pollReady
  split
  · split
    · exact .of_eq rfl rfl
    · refine ⟨fun _ => rfl, rfl, fun x hx => ?_⟩
      rcases List.mem_cons.mp hx with rfl | hx
      · exact ⟨fun _ _ _ h => (nomatch h), fun _ _ _ h => (nomatch h)⟩
      · obtain rfl := List.mem_singleton.mp hx
        exact ⟨fun _ _ _ h => (nomatch h), fun _ _ _ h => (nomatch h)⟩
  · exact .refl c

/-- A new session begins the sets again, under their old keys. -/
theorem pollConnect_keeps (env : PollEnv) (c : CollectingConn P) :
    Keeps c (c.pollConnect env).1 (c.pollConnect env).2 := by
  unfold pollConnect
  split
  · split
    · refine ⟨SameNames.mapVals c.mpcs _ fun _ _ => rfl, rfl, fun x hx => ?_⟩
      obtain rfl := List.mem_singleton.mp hx
      exact ⟨fun _ _ _ h => (nomatch h), fun _ _ _ h => (nomatch h)⟩
    · exact .of_eq rfl rfl
  · exact .refl c

/-- `poll` is the watchdog and then what the state asks for. -/
theorem poll_keeps (env : PollEnv) (c : CollectingConn P) :
    Keeps c (c.poll env).1 (c.poll env).2 := by
  have hwake := wake_keeps env c
  unfold poll
  dsimp only
  -- only `ready` and `needtoconnect` do more than wake
  cases (c.wake env).1.state with
  | ready => exact hwake.trans (pollReady_keeps _)
  | needtoconnect => exact hwake.trans (pollConnect_keeps env _)
  | challenging | welcome | verify | waiting | timeout => exact hwake.trans (.refl _)

end

/-! ## The memory of an rrd -/

/-- What ties the log to the memory: the stamps recorded are the rises of those
measured, and the last of these is remembered. -/
structure Remembers (S : Scanners) (mpcs : MpCS) (w : Traced P) : Prop where
  names : SameNames mpcs w.conn.mpcs
  rises : ∀ n, recorded n w.log = Lib.rises none (measured S mpcs n w.log)
  last : ∀ n, w.conn.rrdlastupdate.find? n = (measured S mpcs n w.log).getLast?

/-- The guard of `lineread` asks for a rise. -/
theorem mustrecorddata_eq {last : Option Int} {t : Int} {record : Bool}
    (h : mustrecorddata last t = .ok record) : record = decide (Lib.Above last t) := by
  cases last with
  | none =>
    obtain rfl := Except.ok.inj h
    rfl
  | some a =>
    simp only [mustrecorddata, timeDiff] at h
    split at h
    · obtain rfl := Except.ok.inj h
      have habove : Lib.Above (some a) t ↔ a < t := ⟨fun h => h a rfl, fun h b hb => by
        rwa [← Option.some.inj hb]⟩
      have hdec : decide (Lib.Above (some a) t) = decide (a < t) := decide_eq_decide.mpr habove
      rw [hdec]
      -- whole seconds: less than 2 and above 0, or 2 at least
      dsimp only
      split
      · have hpos : 0 < t - a ↔ a < t := by omega
        exact decide_eq_decide.mpr hpos
      · have hlt : a < t := by omega
        exact (decide_eq_true hlt).symm
    · cases h

/-- What keeps names, memory and silence keeps the tie. -/
theorem Remembers.keeps {S : Scanners} {mpcs : MpCS} {w w' : Traced P} {effs : List (Effect P)}
    (hw : Remembers S mpcs w) (h : Keeps w.conn w'.conn effs) (hlog : w'.log = w.log ++ effs) :
    Remembers S mpcs w' where
  names n := (h.names n).trans (hw.names n)
  rises n := by
    rw [hlog, recorded_append, measured_append, h.silent.recorded, h.silent.measured,
      List.append_nil, List.append_nil]
    exact hw.rises n
  last n := by
    rw [hlog, measured_append, h.silent.measured, List.append_nil, h.rrdlastupdate]
    exact hw.last n

/-- A measure line among the effects. -/
theorem measured_line {S : Scanners} {mpcs : MpCS} {now : Int} {bufin n : Bytes} {t : Int} {p : Nat}
    (hmeas : isMeasure bufin = true) (hp : parseMeasure S mpcs now bufin = (n, t, p)) (k : Bytes)
    (effs : List (Effect P)) :
    measured S mpcs k (.received bufin now true :: effs)
      = (if n = k then [t] else []) ++ measured S mpcs k effs := by
  simp only [measured, List.filterMap_cons, hmeas, hp, Bool.and_self, if_true]
  by_cases hk : n = k
  · rw [if_pos hk, if_pos hk]
    rfl
  · rw [if_neg hk, if_neg hk]
    rfl

/-- Any other line among the effects. -/
theorem measured_other {S : Scanners} {mpcs : MpCS} {now : Int} {bufin : Bytes} {collecting : Bool}
    (h : ¬ (collecting = true ∧ isMeasure bufin = true)) (k : Bytes) (effs : List (Effect P)) :
    measured S mpcs k (.received bufin now collecting :: effs) = measured S mpcs k effs := by
  have hcond : (collecting && isMeasure bufin) = false := by
    rw [Bool.eq_false_iff, ne_eq, Bool.and_eq_true]
    exact h
  simp only [measured, List.filterMap_cons, hcond]
  rfl

/-- A line received by the application: measured and perhaps recorded, or neither. -/
theorem Remembers.lineread {S : Scanners} {mpcs : MpCS} {w w' : Traced P} {now : Int}
    {bufin : Bytes} {effs : List (Effect P)} (hw : Remembers S mpcs w)
    (h : w.conn.lineread S now bufin = .ok (w'.conn, effs)) (hlog : w'.log = w.log ++ effs) :
    Remembers S mpcs w' := by
  obtain ⟨d, meas, hc', rfl, hd⟩ := lineread_eq h
  -- the `switch` behind the measure branch keeps everything
  suffices hmid : Remembers S mpcs
      ⟨d, w.log ++ (.received bufin now w.conn.is_collecting :: meas)⟩ by
    have hkeep : Keeps d w'.conn (d.onLine bufin).2 := by
      rw [hc']
      exact onLine_keeps bufin d
    exact hmid.keeps hkeep (by rw [hlog]; simp)
  rcases hd with ⟨hcoll, hmeas, hm⟩ | ⟨hnot, rfl, rfl⟩
  · obtain ⟨⟨n, t, p⟩, hp⟩ : ∃ m, parseMeasure S w.conn.mpcs now bufin = m := ⟨_, rfl⟩
    obtain ⟨record, hrec, rfl, heff⟩ := measureLine_eq (c := { w.conn with lastlineread := now })
      hp hm
    have hp' := (hw.names.parse S now bufin).symm.trans hp
    have hrise : record = decide (Lib.Above (measured S mpcs n w.log).getLast? t) := by
      rw [← hw.last n]
      exact mustrecorddata_eq hrec
    -- what the line adds to the measures and to the records of each rrd
    have hmeas' : ∀ k, measured S mpcs k (w.log ++ .received bufin now w.conn.is_collecting :: meas)
        = measured S mpcs k w.log ++ if n = k then [t] else [] := by
      intro k
      have hnone : measured S mpcs k meas = [] := by
        cases record with
        | false => rw [show meas = [] from heff]; rfl
        | true =>
          obtain ⟨data, rfl⟩ : ∃ data, meas = _ := heff
          rfl
      rw [measured_append, hcoll, measured_line hmeas hp', hnone, List.append_nil]
    have hrec' : ∀ k, recorded k (w.log ++ .received bufin now w.conn.is_collecting :: meas)
        = recorded k w.log ++ if n = k ∧ record = true then [t] else [] := by
      intro k
      rw [recorded_append]
      cases record with
      | false => rw [show meas = [] from heff, if_neg (by simp)]; rfl
      | true =>
        obtain ⟨data, rfl⟩ : ∃ data, meas = _ := heff
        by_cases hk : n = k
        · rw [if_pos ⟨hk, rfl⟩]
          simp [recorded, hk]
        · rw [if_neg fun h => hk h.1]
          simp [recorded, hk]
    -- rises first, then the last one; only the rrd of the line changes
    refine ⟨hw.names, fun k => ?_, fun k => ?_⟩
    · show recorded k (w.log ++ _) = Lib.rises none (measured S mpcs k (w.log ++ _))
      rw [hrec', hmeas', hw.rises k]
      by_cases hk : n = k
      · subst hk
        rw [if_pos rfl, Lib.rises_append, Lib.rises, Lib.rises, Lib.lastOf, Option.or_none]
        by_cases habove : Lib.Above (measured S mpcs n w.log).getLast? t
        · rw [if_pos habove, if_pos ⟨rfl, hrise.trans (decide_eq_true habove)⟩]
        · rw [if_neg habove, if_neg fun h => habove (of_decide_eq_true (hrise.symm.trans h.2))]
      · rw [if_neg hk, if_neg fun h => hk h.1, List.append_nil, List.append_nil]
    · show (w.conn.rrdlastupdate.insert n t).find? k = (measured S mpcs k (w.log ++ _)).getLast?
      rw [hmeas', Lib.OrdMap.find?_insert]
      by_cases hk : k = n
      · rw [if_pos hk, if_pos hk.symm, List.getLast?_append]
        rfl
      · rw [if_neg hk, if_neg (Ne.symm hk), List.append_nil]
        exact hw.last k
  · refine ⟨hw.names, fun k => ?_, fun k => ?_⟩
    · show recorded k (w.log ++ _) = Lib.rises none (measured S mpcs k (w.log ++ _))
      rw [recorded_append, measured_append, measured_other hnot, hw.rises k]
      simp [recorded, measured]
    · show w.conn.rrdlastupdate.find? k = (measured S mpcs k (w.log ++ _)).getLast?
      rw [measured_append, measured_other hnot, hw.last k]
      simp [measured]

/-- **Step lemma**: every operation keeps what ties the log to the memory. -/
theorem opStep_remembers {S : Scanners} {mpcs : MpCS} (w : Traced P) (op : Op P) (w' : Traced P)
    (hw : Remembers S mpcs w) (h : opStep S w op = some w') : Remembers S mpcs w' := by
  obtain ⟨effs, happ, hlog⟩ := opStep_eq_some_iff.mp h
  -- `lineread` is the one operation that is not silent
  cases op with
  | poll env =>
    obtain ⟨hc, rfl⟩ := Prod.mk.inj (Except.ok.inj happ)
    exact hw.keeps (hc ▸ poll_keeps env w.conn) hlog
  | reconnect_hook now rand =>
    obtain ⟨hc, rfl⟩ := Prod.mk.inj (Except.ok.inj happ)
    exact hw.keeps (hc ▸ reconnect_hook_keeps now rand w.conn) hlog
  | firstprompt =>
    obtain ⟨hc, rfl⟩ := Prod.mk.inj (Except.ok.inj happ)
    exact hw.keeps (hc ▸ .of_flush rfl rfl) hlog
  | lineread now bufin => exact hw.lineread happ hlog
  | beneath d =>
    obtain ⟨hc, rfl⟩ := Prod.mk.inj (Except.ok.inj happ)
    exact hw.keeps (hc ▸ .of_eq rfl rfl) hlog

/-- A connection begins with nothing measured, recorded or remembered. -/
theorem start_remembers (S : Scanners) (now : Int) (crypt : CryptConnection P)
    (sets : List CollectionSet) :
    Remembers S (start now crypt sets).conn.mpcs (start now crypt sets) := by
  obtain ⟨m, p, h⟩ := foldl_assign sets (construct now crypt)
  refine ⟨fun _ => rfl, fun _ => rfl, fun n => ?_⟩
  show (sets.foldl assign (construct now crypt)).rrdlastupdate.find? n = none
  rw [h]
  rfl

/-- **The recorded stamps of an rrd increase exactly where the measured ones are
unbroken**, in every sequence of the connection's operations and whatever the crypt
layer does between them. -/
theorem recorded_increasing_iff {S : Scanners} {now : Int} {crypt : CryptConnection P}
    {sets : List CollectionSet} {l : List (Op P)} {w : Traced P}
    (h : Lib.run (opStep S) (start now crypt sets) l = some w) (rrd_name : Bytes) :
    (recorded rrd_name w.log).Pairwise (· < ·) ↔
      Lib.Unbroken (measured S (start now crypt sets).conn.mpcs rrd_name w.log) := by
  have hw := Lib.run_invariant opStep_remembers (start_remembers S now crypt sets) h
  rw [hw.rises rrd_name]
  exact Lib.rises_pairwise_iff _

/-! ## Stamps that go back -/

/-- The sample supplicant behind its handshake. -/
def sampleAccepted : CryptConnection samplePlatform :=
  { sampleSupplicant with
    challenging := .Accepted, tdin := some (sampleKey.key, sampleKey.IV),
    tdout := some (sampleKey.key, sampleKey.IV) }

/-- A late measure, and then one between it and the first: the clock stands at 1000. -/
def lateMeasures : List (Op samplePlatform) :=
  [.beneath sampleAccepted, .firstprompt, .lineread 1000 (str "qigong[probe] : 0 : "),
    .lineread 1000 (str "qigong.")] ++
  ["-->web_load 900:1", "-->web_load 850:1", "-->web_load 860:1"].map fun l =>
    .lineread 1000 (str l)

/-- **The stamps go back**: 850 is remembered though it is not recorded, and 860 is
recorded behind 900. -/
theorem stamps_go_back :
    ((Lib.run (opStep sampleScanners) (start 1000 sampleSupplicant [sampleSet]) lateMeasures).map
      fun w => recorded (str "web_load") w.log) = some [900, 860] ∧
    ¬ [(900 : Int), 860].Pairwise (· < ·) := by
  constructor
  · decide +kernel
  · decide

theorem recorded_increasing_iff_lateMeasures :
    ∃ w, Lib.run (opStep sampleScanners) (start 1000 sampleSupplicant [sampleSet]) lateMeasures
        = some w ∧
      ((recorded (str "web_load") w.log).Pairwise (· < ·) ↔
        Lib.Unbroken (measured sampleScanners
          (start 1000 sampleSupplicant [sampleSet]).conn.mpcs (str "web_load") w.log)) := by
  obtain ⟨w, h⟩ := Option.isSome_iff_exists.mp
    (show (Lib.run (opStep sampleScanners) (start 1000 sampleSupplicant [sampleSet])
      lateMeasures).isSome = true by decide +kernel)
  exact ⟨w, h, recorded_increasing_iff h _⟩

end Qigong.Collect
