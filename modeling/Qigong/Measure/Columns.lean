import Qigong.Measure.Supplied

/-!
# A value in each column

`RecordSet::measure` puts the text that `measure` leaves behind a colon, whatever
`measure` returns: a text with another number of fields shifts those behind it into
other columns. A call leaves a value in each column exactly where what is outside
supplies the point (`whole_iff`), and this is so of every call in a row of them
(`every_column_iff`): what a point becomes does not change what it needs (`Of`).
-/

namespace Qigong.Measure

variable {R : Readers} {blank : UInt8 → Bool} {env : Outside} {param : Bytes}
  {mp : MeasurePoint}

/-- A call leaves a value in each of the columns of the point. -/
def Whole (mp : MeasurePoint) (x : Except Exn (MeasurePoint × Bytes × Bool)) : Prop :=
  ∃ r, x = .ok r ∧ Lib.Fielded 58 mp.get_nbpoints r.2.1

theorem whole_ok_iff {r : MeasurePoint × Bytes × Bool} :
    Whole mp (.ok r) ↔ Lib.Fielded 58 mp.get_nbpoints r.2.1 :=
  ⟨fun ⟨_, h, hf⟩ => Except.ok.inj h ▸ hf, fun hf => ⟨r, rfl, hf⟩⟩

/-- A point with one column. -/
theorem whole_one_iff {r : MeasurePoint × Bytes × Bool} (hone : mp.get_nbpoints = 1) :
    Whole mp (.ok r) ↔ IsValue r.2.1 := by
  rw [whole_ok_iff, hone, Lib.fielded_one_iff]

/-! ## One call, kind by kind -/

theorem whole_diskstats_iff (m : MPdiskstats) :
    Whole (.diskstats m) ((MeasurePoint.diskstats m).measure R env []) ↔
      FirstGives m.Passed m.Gives (strings R env (str "/proc/diskstats")) := by
  rw [← foundOr_isValue_iff (fun s _ => MPdiskstats.look_eq_none_iff)
    (fun s _ v => MPdiskstats.look_eq_some_iff)]
  constructor
  · rintro ⟨r, hr, hf⟩
    obtain ⟨r', hr', rfl⟩ := map_eq_ok.mp hr
    exact ⟨r', hr', Lib.fielded_one_iff.mp hf⟩
  · rintro ⟨r, hr, hv⟩
    exact ⟨(.diskstats m, r), map_eq_ok.mpr ⟨r, hr, rfl⟩, Lib.fielded_one_iff.mpr hv⟩

theorem whole_netstats_iff (hR : R.Described blank) (m : MPnetstats) :
    Whole (.netstats m) ((MeasurePoint.netstats m).measure R env []) ↔
      FirstGives m.Passed (m.Gives blank) (strings R env (str "/proc/net/dev")) := by
  have hlen : ∀ s ∈ strings R env (str "/proc/net/dev"), s.length < npos := by
    intro s hs
    unfold strings at hs
    split at hs
    · exact hR.strings _ s hs
    · exact absurd hs List.not_mem_nil
  rw [← foundOr_isValue_iff (fun s _ => MPnetstats.look_eq_none_iff)
    (fun s hs v => MPnetstats.look_eq_some_iff hR (hlen s hs))]
  constructor
  · rintro ⟨r, hr, hf⟩
    obtain ⟨r', hr', rfl⟩ := map_eq_ok.mp hr
    exact ⟨r', hr', Lib.fielded_one_iff.mp hf⟩
  · rintro ⟨r, hr, hv⟩
    exact ⟨(.netstats m, r), map_eq_ok.mpr ⟨r, hr, rfl⟩, Lib.fielded_one_iff.mpr hv⟩

/-- The count of a file, or that there is none. -/
theorem MPfilelen.isValue_measureWith (reopen : MPfilelen → MPfilelen) (m : MPfilelen) :
    IsValue (m.measureWith env reopen).2.1 := by
  have hanswer : ∀ m : MPfilelen, IsValue m.answer.2 := by
    intro m
    unfold answer
    split
    · exact isValue_unknown
    · exact isValue_decimal _
  unfold measureWith
  dsimp only
  split
  · split
    · exact hanswer _
    · exact hanswer _
  · split
    · split
      · exact hanswer _
      · exact isValue_decimal _
    · exact hanswer _

theorem isValue_firstWord_iff (path : Bytes) :
    IsValue (firstWord R env path).1 ↔ FirstWordIsValue R env path := by
  unfold firstWord FirstWordIsValue
  cases hfile : env.file path with
  | none =>
    refine iff_of_true isValue_unknown fun content word rest h => (nomatch h)
  | some content =>
    dsimp only
    cases hfind : findFrom 32 (firstString R content) 0 with
    | none =>
      refine iff_of_true isValue_unknown fun content' word rest hcontent heq => ?_
      obtain rfl := Option.some.inj hcontent
      have hfree := findFrom_eq_none_iff.mp hfind
      rw [List.drop_zero, heq] at hfree
      exact absurd (List.mem_append_right _ List.mem_cons_self) hfree
    | some p =>
      obtain ⟨-, word, heq, hfree, hp⟩ := findFrom_eq_some hfind
      rw [List.drop_zero] at heq
      rw [Nat.zero_add] at hp
      have htake : (firstString R content).take p = word := by
        rw [heq, ← hp, List.take_left]
      dsimp only
      rw [htake]
      refine ⟨fun hvalue content' word' rest hcontent heq' hfree' => ?_, fun h => ?_⟩
      · obtain rfl := Option.some.inj hcontent
        -- a string has one word before its first space
        have hword : (word' ++ 32 :: rest).takeWhile (· != 32) = word' := takeWhile_space hfree'
        rw [← heq', heq, takeWhile_space hfree] at hword
        exact hword ▸ hvalue
      · exact h content word _ rfl heq hfree

theorem MPfilevalue.isValue_measure (m : MPfilevalue) : IsValue (m.measure R env).1 := by
  unfold measure
  split
  · exact isValue_unknown
  case h_2 content _ =>
    dsimp only
    split
    case isTrue => exact isValue_unknown
    case isFalse hne =>
      refine ⟨fun h => hne (List.length_eq_zero_iff.mpr h), fun hmem => ?_⟩
      exact absurd (List.mem_takeWhile_imp hmem) (by decide)

theorem MPfreespace.isValue_measure (m : MPfreespace) : IsValue (m.measure env).1 := by
  unfold measure
  split
  · exact isValue_decimal _
  · exact isValue_unknown

/-- Where the file cannot be opened there is one value too few. -/
theorem whole_meminfo_iff (m : MPmeminfo) :
    Whole (.meminfo m) ((MeasurePoint.meminfo m).measure R env []) ↔
      env.file (str "/proc/meminfo") ≠ none := by
  show Whole (.meminfo m) (.ok (.meminfo (m.measure R env).1, (m.measure R env).2)) ↔ _
  rw [whole_ok_iff]
  show Lib.Fielded 58 6 (m.measure R env).2.1 ↔ _
  unfold MPmeminfo.measure
  cases hfile : env.file (str "/proc/meminfo") with
  | none =>
    refine iff_of_false (fun h => ?_) (fun h => h rfl)
    -- the text for a file that cannot be opened has five fields, the point six columns
    have hfive : Lib.Fielded 58 5 (str "U:U:U:U:U") :=
      ⟨List.replicate 5 unknown, rfl, fun f hf => List.eq_of_mem_replicate hf ▸ isValue_unknown, rfl⟩
    exact absurd (h.unique hfive) (by decide)
  | some content =>
    refine iff_of_true ?_ (Option.some_ne_none _)
    exact ⟨_, rfl, fun f hf => (List.mem_map.mp hf).elim fun n hn => hn.2 ▸ isValue_decimal n, rfl⟩

/-- The values of the names of a map, as the columns of a point. -/
theorem fielded_keys_iff {m : Lib.OrdMap Bytes Bytes} {value : Bytes → Bytes} :
    Lib.Fielded 58 m.entries.length (Lib.joined 58 (m.keys.map value)) ↔
      ∀ name ∈ m.keys, IsValue (value name) := by
  have hlen : m.entries.length = (m.keys.map value).length := by
    rw [List.length_map, Lib.OrdMap.keys, List.length_map]
  rw [hlen, Lib.fielded_joined_iff, List.forall_mem_map]

theorem whole_memcached_iff :
    Whole (.memcached (.make param))
        ((MeasurePoint.memcached (.make param)).measure R env []) ↔
      ∀ stat, env.memcached_stat = some stat →
        ∀ name ∈ MMemcached.asked.map Prod.fst, ∀ v, stat name = some v → IsValue v := by
  have hwhole : Whole (.memcached (.make param))
      ((MeasurePoint.memcached (.make param)).measure R env []) ↔
      Lib.Fielded 58 (MMemcached.make param).mss.entries.length
        (Lib.joined 58 ((MMemcached.make param).mss.keys.map (MMemcached.value env))) :=
    whole_ok_iff
  rw [hwhole, fielded_keys_iff]
  constructor
  · intro h stat hstat name hname v hv
    have hvalue := h name (MMemcached.mem_keys_make.mpr hname)
    simpa only [MMemcached.value, hstat, hv, Option.getD_some] using hvalue
  · intro h name hname
    unfold MMemcached.value
    cases hstat : env.memcached_stat with
    | none => exact isValue_unknown
    | some stat =>
      dsimp only
      cases hv : stat name with
      | none => exact isValue_unknown
      | some v => exact h stat hstat name (MMemcached.mem_keys_make.mp hname) v hv

namespace MMySQLGStatus

/-- What a point keeps of its parameter. -/
structure OfParam (param : Bytes) (m : MMySQLGStatus) : Prop where
  keys : m.gvar.keys = (make param).gvar.keys
  fetch : m.fetch_slave_state = (make param).fetch_slave_state

variable {m : MMySQLGStatus}

theorem OfParam.mem_keys (h : OfParam param m) {name : Bytes} :
    name ∈ m.gvar.keys ↔ name ∈ words param ∧ name ∉ stypes := by
  rw [h.keys, mem_keys_make]

theorem OfParam.fetch_iff (h : OfParam param m) :
    m.fetch_slave_state = true ↔ secondsBehindMaster ∈ words param := by
  rw [h.fetch, fetch_make]

/-- The slave is asked for a variable of the point. -/
theorem OfParam.mem_secondsBehindMaster (h : OfParam param m) (hf : m.fetch_slave_state = true) :
    secondsBehindMaster ∈ m.gvar.keys :=
  h.mem_keys.mpr ⟨h.fetch_iff.mp hf, by decide⟩

/-- No row is fetched of the slave. -/
theorem slavestatus_eq (hnull : env.FetchesNone) :
    slavestatus env = if env.slave_status = none then unknown else [] := by
  unfold slavestatus fetched
  rw [hnull]
  cases env.slave_status with
  | none => rfl
  | some res => rfl

/-- The variables once a result is read. -/
def readstatus (env : Outside) (m : MMySQLGStatus) (res : MysqlRes) : Lib.OrdMap Bytes Bytes :=
  if m.fetch_slave_state then
    (readrows m.gvar res).insert secondsBehindMaster (slavestatus env)
  else readrows m.gvar res

theorem OfParam.keys_readstatus (h : OfParam param m) (res : MysqlRes) :
    (readstatus env m res).keys = m.gvar.keys := by
  unfold readstatus
  split
  -- the variable of the slave is among those of the point, so that no column is added
  case isTrue hf =>
    rw [Lib.OrdMap.keys_insert, keys_readrows]
    rw [← Lib.OrdMap.mem_keys_iff, keys_readrows]
    exact h.mem_secondsBehindMaster hf
  case isFalse => exact keys_readrows m.gvar res

theorem OfParam.measure (h : OfParam param m) (result : Bytes) :
    OfParam param (m.measure env result).1 := by
  unfold MMySQLGStatus.measure
  split
  · exact h
  case h_2 res _ => exact ⟨(h.keys_readstatus res).trans h.keys, h.fetch⟩

/-- What a call holds for a variable: the last row of its name tells its value, and the
slave is told of itself. -/
theorem OfParam.find?_readstatus (h : OfParam param m) (res : MysqlRes) {name : Bytes}
    (hname : name ∈ m.gvar.keys) : (readstatus env m res).find? name
      = some (if name = secondsBehindMaster then slavestatus env
        else (told res name).getD unknown) := by
  unfold readstatus
  by_cases hne : name = secondsBehindMaster
  · rw [if_pos (h.fetch_iff.mpr (hne ▸ (h.mem_keys.mp hname).1)), if_pos hne, hne,
      Lib.OrdMap.find?_insert_self]
  · rw [if_neg hne]
    split
    · rw [Lib.OrdMap.find?_insert_other _ hne, find?_readrows hname]
    · exact find?_readrows hname res

/-- The columns of a result. -/
theorem OfParam.isValue_readstatus_iff (hnull : env.FetchesNone) (h : OfParam param m)
    (res : MysqlRes) :
    (∀ name ∈ m.gvar.keys, IsValue (((readstatus env m res).find? name).getD [])) ↔
      (secondsBehindMaster ∈ words param → env.slave_status = none) ∧
        ∀ name ∈ words param, name ∉ stypes → name ≠ secondsBehindMaster →
          ∀ v, told res name = some v → IsValue v := by
  constructor
  · refine fun hvalue => ⟨fun hmem => ?_, fun name hname htype hne v hv => ?_⟩
    · have hkey := h.mem_secondsBehindMaster (h.fetch_iff.mpr hmem)
      have hstatus := hvalue _ hkey
      rw [h.find?_readstatus res hkey, if_pos rfl, slavestatus_eq hnull] at hstatus
      by_contra hnone
      rw [if_neg hnone] at hstatus
      exact hstatus.1 rfl
    · have hkey := h.mem_keys.mpr ⟨hname, htype⟩
      have hv' := hvalue name hkey
      rwa [h.find?_readstatus res hkey, if_neg hne, hv] at hv'
  · rintro ⟨hnone, htold⟩ name hname
    obtain ⟨hword, htype⟩ := h.mem_keys.mp hname
    rw [h.find?_readstatus res hname]
    -- of the slave the value is unknown or empty, of the others what was told last
    by_cases hne : name = secondsBehindMaster
    · rw [if_pos hne, slavestatus_eq hnull, if_pos (hnone (hne ▸ hword))]
      exact isValue_unknown
    · rw [if_neg hne]
      cases hv : told res name with
      | none => exact isValue_unknown
      | some v => exact htold name hword htype hne v hv

end MMySQLGStatus

/-- What is told of the slave empties its column, unless nothing is told at all. -/
theorem whole_mysqlgstatus_iff (hnull : env.FetchesNone) {m : MMySQLGStatus} (h : m.OfParam param) :
    Whole (.mysqlgstatus m) ((MeasurePoint.mysqlgstatus m).measure R env []) ↔
      Supplied R blank env param .mysqlgstatus := by
  show Whole _ (.ok (.mysqlgstatus (m.measure env []).1, (m.measure env []).2)) ↔ _
  rw [whole_ok_iff]
  show Lib.Fielded (58 : UInt8) m.gvar.entries.length (m.measure env []).2.1 ↔ _
  unfold MMySQLGStatus.measure Supplied
  cases hglobal : env.global_status with
  | none =>
    dsimp only
    rw [List.nil_append, fielded_keys_iff]
    refine iff_of_true (fun name _ => ?_) ⟨fun _ => .inr rfl, fun res h => (nomatch h)⟩
    unfold MMySQLGStatus.unanswered
    rw [MMySQLGStatus.slavestatus_eq hnull]
    split
    · split <;> decide
    · exact isValue_unknown
  | some res =>
    -- what is printed are the values as the call holds them, in the order of the names
    have htext : (m.readstatus env res).entries.map Prod.snd
        = m.gvar.keys.map fun name => ((m.readstatus env res).find? name).getD [] := by
      rw [Lib.OrdMap.values_eq _ [], h.keys_readstatus]
    show Lib.Fielded 58 _ ([] ++ Lib.joined 58 ((m.readstatus env res).entries.map Prod.snd)) ↔ _
    rw [List.nil_append, htext, fielded_keys_iff, h.isValue_readstatus_iff hnull]
    simp only [Option.some.injEq, forall_eq', reduceCtorEq, or_false]

/-! ## Calls one after the other -/

/-- The points that calls make of a point of this kind and parameter. -/
def Of (param : Bytes) : Kind → MeasurePoint → Prop
  | .diskstats, mp => mp = .diskstats (.make param)
  | .netstats, mp => mp = .netstats (.make param)
  | .filelen, mp => ∃ m, mp = .filelen m
  | .matchflen, mp => ∃ m, mp = .matchflen m
  | .loadavg, mp => mp = .loadavg
  | .conncount, mp => mp = .conncount
  | .meminfo, mp => ∃ m, mp = .meminfo m
  | .freespace, mp => ∃ m, mp = .freespace m
  | .memcached, mp => mp = .memcached (.make param)
  | .mysqlgstatus, mp => ∃ m : MMySQLGStatus, mp = .mysqlgstatus m ∧ m.OfParam param
  | .filevalue, mp => ∃ m, mp = .filevalue m

variable {k : Kind}

theorem of_creator : Of param k (k.creator env param) := by
  cases k with
  | diskstats | netstats | loadavg | conncount | memcached => rfl
  | filelen | matchflen | meminfo | freespace | filevalue => exact ⟨_, rfl⟩
  | mysqlgstatus => exact ⟨_, rfl, rfl, rfl⟩

/-- **A call leaves a value in each column** exactly where the point is supplied. -/
theorem whole_iff (hR : R.Described blank) (hnull : k = .mysqlgstatus → env.FetchesNone)
    (h : Of param k mp) :
    Whole mp (mp.measure R env []) ↔ Supplied R blank env param k := by
  -- a loop over strings, one value, or a column for each name
  cases k with
  | diskstats =>
    obtain rfl := h
    exact whole_diskstats_iff _
  | netstats =>
    obtain rfl := h
    exact whole_netstats_iff hR _
  | filelen =>
    obtain ⟨m, rfl⟩ := h
    exact (whole_one_iff rfl).trans (iff_true_intro (m.isValue_measureWith _))
  | matchflen =>
    obtain ⟨m, rfl⟩ := h
    exact (whole_one_iff rfl).trans (iff_true_intro (m.toMPfilelen.isValue_measureWith _))
  | loadavg =>
    obtain rfl := h
    exact (whole_one_iff rfl).trans (isValue_firstWord_iff _)
  | conncount =>
    obtain rfl := h
    exact (whole_one_iff rfl).trans (isValue_firstWord_iff _)
  | meminfo =>
    obtain ⟨m, rfl⟩ := h
    exact whole_meminfo_iff m
  | freespace =>
    obtain ⟨m, rfl⟩ := h
    exact (whole_one_iff rfl).trans (iff_true_intro m.isValue_measure)
  | memcached =>
    obtain rfl := h
    exact whole_memcached_iff
  | mysqlgstatus =>
    obtain ⟨m, rfl, h⟩ := h
    exact whole_mysqlgstatus_iff (hnull rfl) h
  | filevalue =>
    obtain ⟨m, rfl⟩ := h
    exact (whole_one_iff rfl).trans (iff_true_intro m.isValue_measure)

/-- A call leaves a point of the same kind and parameter. -/
theorem Of.measure (h : Of param k mp) {result : Bytes} {r : MeasurePoint × Bytes × Bool}
    (hr : mp.measure R env result = .ok r) : Of param k r.1 := by
  cases k with
  | diskstats | netstats =>
    obtain rfl := h
    obtain ⟨r', -, rfl⟩ := map_eq_ok.mp hr
    rfl
  | loadavg | conncount | memcached =>
    obtain rfl := h
    obtain rfl := Except.ok.inj hr
    rfl
  | filelen | matchflen | meminfo | freespace | filevalue =>
    obtain ⟨m, rfl⟩ := h
    obtain rfl := Except.ok.inj hr
    exact ⟨_, rfl⟩
  | mysqlgstatus =>
    obtain ⟨m, rfl, h⟩ := h
    obtain rfl := Except.ok.inj hr
    exact ⟨_, rfl, h.measure result⟩

/-- The number of columns is that of any point of the same kind and parameter. -/
theorem Of.get_nbpoints {mp' : MeasurePoint} (h : Of param k mp) (h' : Of param k mp') :
    mp.get_nbpoints = mp'.get_nbpoints := by
  cases k with
  | diskstats | netstats | loadavg | conncount | memcached => rw [h, h']
  | filelen | matchflen | meminfo | freespace | filevalue =>
    obtain ⟨m, rfl⟩ := h
    obtain ⟨m', rfl⟩ := h'
    rfl
  | mysqlgstatus =>
    obtain ⟨m, rfl, h⟩ := h
    obtain ⟨m', rfl, h'⟩ := h'
    have hlen := congrArg List.length (h.keys.trans h'.keys.symm)
    rwa [Lib.OrdMap.keys, Lib.OrdMap.keys, List.length_map, List.length_map] at hlen

/-- Calls with a fresh text, one after the other: the point of each, and what it leaves. -/
def calls (R : Readers) : MeasurePoint → List Outside →
    List (MeasurePoint × Except Exn (MeasurePoint × Bytes × Bool))
  | _, [] => []
  | mp, env :: envs =>
    let x := mp.measure R env []
    let mp' :=
      match x with
      | .ok r => r.1
      | .error _ => mp
    (mp, x) :: calls R mp' envs

/-- The point behind a call. -/
theorem Of.next (h : Of param k mp) :
    Of param k (match mp.measure R env [] with | .ok r => r.1 | .error _ => mp) := by
  split
  case h_1 hr => exact h.measure hr
  case h_2 => exact h

/-- All the calls are of points of one kind and parameter. -/
theorem of_calls (h : Of param k mp) (envs : List Outside) :
    ∀ x ∈ calls R mp envs, Of param k x.1 := by
  induction envs generalizing mp with
  | nil => exact fun x hx => absurd hx List.not_mem_nil
  | cons env envs ih =>
    intro x hx
    rcases List.mem_cons.mp hx with rfl | hx
    · exact h
    · exact ih h.next x hx

theorem whole_calls_iff (hR : R.Described blank) (h : Of param k mp) {envs : List Outside}
    (hnull : k = .mysqlgstatus → ∀ env ∈ envs, env.FetchesNone) :
    (∀ x ∈ calls R mp envs, Whole x.1 x.2) ↔ ∀ env ∈ envs, Supplied R blank env param k := by
  induction envs generalizing mp with
  | nil => simp [calls]
  | cons env envs ih =>
    have hrest : k = .mysqlgstatus → ∀ env ∈ envs, env.FetchesNone :=
      fun hk env' henv => hnull hk env' (List.mem_cons_of_mem _ henv)
    rw [calls, List.forall_mem_cons, List.forall_mem_cons, ← ih h.next hrest,
      whole_iff hR (fun hk => hnull hk env List.mem_cons_self) h]

/-- **Every column has a value** in each of a row of calls, and a data source of the
collector, exactly where each call finds the point supplied. -/
theorem every_column_iff (hR : R.Described blank) {fn : Bytes} (hk : mmpcreators fn = some k)
    (param tagname : Bytes) (heartbeat : Int) (env₀ env₁ : Outside) {envs : List Outside}
    (hnull : k = .mysqlgstatus → ∀ env ∈ envs, env.FetchesNone) :
    (∀ x ∈ calls R (k.creator env₀ param) envs, Whole x.1 x.2 ∧
      ∃ ds : List Bytes,
        get_DSdef env₁ ⟨tagname, fn, param⟩ heartbeat = some (eos.intercalate ds) ∧
        (∀ d ∈ ds, startsWith (str "DS:") d = true) ∧ ds.length = x.1.get_nbpoints) ↔
      ∀ env ∈ envs, Supplied R blank env param k := by
  rw [← whole_calls_iff hR of_creator hnull]
  refine forall₂_congr fun x hx => and_iff_left ?_
  set pmp := k.creator env₁ param
  refine ⟨pmp.definitions tagname heartbeat, ?_, pmp.startsWith_definitions tagname heartbeat, ?_⟩
  · rw [get_DSdef, hk]
    rfl
  · rw [pmp.length_definitions]
    exact of_creator.get_nbpoints (of_calls of_creator envs x hx)

/-! ## Outside -/

/-- Strings end at line feeds, and are cut at the length `getstring` reads at most. -/
def sampleReaders : Readers where
  toScanners := sampleScanners
  seekspace := seek isBlank
  getstrings content :=
    let ss := (content.splitOn 10).map (List.take 2048)
    (ss.dropLast, ss.getLastD [])

theorem sampleReaders_described : sampleReaders.Described isBlank where
  seekspace _ _ := rfl
  getinteger _ _ := rfl
  space := rfl
  strings content s hs := by
    obtain ⟨t, -, rfl⟩ := List.mem_map.mp (List.dropLast_subset _ hs)
    have hle := List.length_take_le 2048 t
    unfold npos
    omega

/-- Nothing can be opened, and no server answers. -/
def nothing : Outside where
  now := 0
  file _ := none
  statvfs _ := none
  opened _ := none
  lstat _ := ⟨0, 0⟩
  readdir _ := none
  newlines := 0
  memcached_stat := none
  slave_status := none
  global_status := none
  rows_of_null := []

/-- A system with one disk. -/
def oneDisk : Outside :=
  { nothing with
    file := fun path =>
      if path = str "/proc/diskstats" then some (str "   8       0 sda 11 12 13\n") else none }

/-- A server that tells how long it is up. -/
def oneServer : Outside :=
  { nothing with global_status := some ⟨2, [(str "Uptime", str "17")]⟩ }

/-- The second count of the disk is read at each of two calls, and the time of the server. -/
theorem every_column_iff_oneDisk :
    (∃ x y, calls sampleReaders (Kind.diskstats.creator nothing (str "sda 2")) [oneDisk, oneDisk]
        = [x, y] ∧ Whole x.1 x.2 ∧ Whole y.1 y.2) ∧
    ∃ x, calls sampleReaders (Kind.mysqlgstatus.creator nothing (str ",Uptime")) [oneServer] = [x] ∧
      Whole x.1 x.2 := by
  have hdisk : MPdiskstats.make (str "sda 2") = ⟨str "sda", 2⟩ := by decide +kernel
  have hsupplied : Supplied sampleReaders isBlank oneDisk (str "sda 2") .diskstats := by
    unfold Supplied
    rw [hdisk]
    refine ⟨[], str "   8       0 sda 11 12 13", [], str "12", by decide +kernel,
      fun l hl => absurd hl List.not_mem_nil, ⟨str "sda 11 12 13", ⟨?_, ?_⟩, ?_, ?_⟩, ?_⟩ <;>
      decide +kernel
  have hkind : mmpcreators (str "diskstats") = some .diskstats := by decide
  have hnull : Kind.diskstats = .mysqlgstatus → ∀ env ∈ [oneDisk, oneDisk], env.FetchesNone := by
    intro h
    cases h
  have hall : ∀ env ∈ [oneDisk, oneDisk],
      Supplied sampleReaders isBlank env (str "sda 2") .diskstats := by
    intro env henv
    obtain rfl : env = oneDisk := by simpa using henv
    exact hsupplied
  have hcolumns := (every_column_iff sampleReaders_described hkind (str "sda 2") (str "disk") 120
    nothing nothing hnull).mpr hall
  have hserver : ∀ env ∈ [oneServer],
      Supplied sampleReaders isBlank env (str ",Uptime") .mysqlgstatus := by
    intro env henv
    obtain rfl := List.mem_singleton.mp henv
    refine ⟨fun h => absurd h (by decide +kernel), fun res hres name hname htype _ v hv => ?_⟩
    obtain rfl := Option.some.inj hres
    obtain rfl : name = str "Uptime" := by
      have hwords : MMySQLGStatus.words (str ",Uptime") = [str "Uptime"] := by decide +kernel
      rw [hwords] at hname
      exact List.mem_singleton.mp hname
    obtain rfl : str "17" = v := Option.some.inj hv
    decide
  have hkind' : mmpcreators (str "mysqlgstatus") = some .mysqlgstatus := by decide
  have hnull' : Kind.mysqlgstatus = .mysqlgstatus → ∀ env ∈ [oneServer], env.FetchesNone := by
    intro _ env henv
    obtain rfl := List.mem_singleton.mp henv
    rfl
  have hcolumn := (every_column_iff sampleReaders_described hkind' (str ",Uptime") (str "sql") 120
    nothing nothing hnull').mpr hserver
  refine ⟨⟨_, _, rfl, (hcolumns _ List.mem_cons_self).1, ?_⟩,
    ⟨_, rfl, (hcolumn _ List.mem_cons_self).1⟩⟩
  exact (hcolumns _ (List.mem_cons_of_mem _ List.mem_cons_self)).1

/-- A point of `meminfo` writes five values where its file cannot be opened. -/
theorem meminfo_unopened :
    ¬ ∀ fn k, mmpcreators fn = some k → ∀ param,
      ∀ x ∈ calls sampleReaders (k.creator nothing param) [nothing], Whole x.1 x.2 := by
  intro h
  have hwhole := h (str "meminfo") .meminfo (by decide) [] _ List.mem_cons_self
  exact (whole_meminfo_iff _).mp hwhole rfl

end Qigong.Measure
