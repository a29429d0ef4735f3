import Mathlib.Data.List.Dedup
import Mathlib.Data.List.Sort
import Qigong.Measure.Columns

/-!
# The variables of a point (qimeasure.cpp:715–818, 905–941, 1004–1030)

The collector and the probe each make a point of the same parameter. Both look its columns
up by number, in maps by the names of the variables, of which `measure` changes the values
and not the names: so the columns are of the same variables, in the order of the names
(`columns_of_variables`). The text of a call is cut at the colons, though, and where a value
has one, or the column of the slave is empty, the fields are not the values of the
variables (`columns_line_up_iff`).
-/

namespace Qigong.Measure

namespace MMySQLGStatus

variable {param : Bytes}

/-! ## What the parameter says of a variable -/

/-- The variables among words. -/
def named (ws : List Bytes) : List Bytes := ws.filter (· ∉ stypes)

/-- The variables of a parameter, each as often as it is mentioned. -/
def names (param : Bytes) : List Bytes := named (words param)

/-- The variables in their order. -/
def sortedNames (param : Bytes) : List Bytes := (names param).dedup.insertionSort (· ≤ ·)

theorem mem_sortedNames {name : Bytes} : name ∈ sortedNames param ↔ name ∈ names param := by
  rw [sortedNames, List.mem_insertionSort, List.mem_dedup]

/-- The type in force behind these words. -/
def inForce (before : List Bytes) : Bytes :=
  (before.reverse.find? (· ∈ stypes)).getD (str "DERIVE")

/-- The twelve characters that are kept of a name. -/
def cut (name : Bytes) : Bytes := ((kept (name.length - 12) 0 name.reverse).reverse).take 12

/-- The first digit with which an abbreviation is no variable that is taken. -/
def freeDigit (taken : List Bytes) (r : Bytes) : Option UInt8 :=
  (str "0123456789").find? fun d => decide (r ++ [d] ∉ taken)

/-- The abbreviation of a name when these are taken. -/
def abbreviated (taken : List Bytes) (name : Bytes) : Bytes :=
  if cut name ∈ taken then cut name ++ (freeDigit taken (cut name)).toList else cut name

/-- The last mention of a variable in a parameter comes behind these words. -/
def LastMention (param name : Bytes) (before : List Bytes) : Prop :=
  name ∉ stypes ∧ ∃ behind, words param = before ++ name :: behind ∧ name ∉ behind

/-- Every variable is mentioned a last time. -/
theorem exists_lastMention {name : Bytes} (h : name ∈ names param) :
    ∃ before, LastMention param name before := by
  obtain ⟨hmem, htype⟩ := List.mem_filter.mp h
  obtain ⟨as, bs, heq, hfree⟩ := List.eq_append_cons_of_mem (List.mem_reverse.mpr hmem)
  refine ⟨bs.reverse, of_decide_eq_true htype, as.reverse, ?_, mt List.mem_reverse.mp hfree⟩
  rw [← List.reverse_reverse (words param), heq]
  simp

/-! ## The constructor -/

/-- The maps of a point once it has read these words, and the type in force. -/
def readwords (ws : List Bytes) : MMySQLGStatus × Bytes :=
  ws.foldl read ({ gvar := .empty, source_type := .empty, fetch_slave_state := false }, str "DERIVE")

variable {ws before behind : List Bytes} {name w : Bytes}

theorem readwords_concat : readwords (ws ++ [w]) = read (readwords ws) w := List.foldl_concat ..

theorem inForce_concat : inForce (ws ++ [w]) = if w ∈ stypes then w else inForce ws := by
  unfold inForce
  rw [List.reverse_concat, List.find?_cons]
  by_cases hw : w ∈ stypes
  · simp [hw]
  · simp [hw]

/-- The type that goes along with the words is the one in force. -/
theorem type_readwords : (readwords ws).2 = inForce ws := by
  -- a word more: a type is put in force, a name takes the one that is
  induction ws using List.reverseRecOn with
  | nil => rfl
  | append_singleton ws w ih =>
    rw [readwords_concat, inForce_concat, read, ← ih]
    split
    · rfl
    · rfl

theorem mem_keys_readwords : name ∈ (readwords ws).1.gvar.keys ↔ name ∈ named ws := by
  rw [readwords, mem_keys_foldl_read, named, List.mem_filter, decide_eq_true_eq]
  exact or_iff_left List.not_mem_nil

/-- The two maps have the same keys. -/
theorem keys_readwords : (readwords ws).1.source_type.keys = (readwords ws).1.gvar.keys := by
  apply Lib.OrdMap.keys_eq_of_mem
  intro name
  induction ws using List.reverseRecOn with
  | nil => rfl
  | append_singleton ws w ih =>
    rw [readwords_concat, read]
    split
    · exact ih
    · rw [Lib.OrdMap.mem_keys_insert, Lib.OrdMap.mem_keys_insert, ih]

/-- Of a map, the abbreviation needs the keys alone. -/
theorem maigreconsomne_eq {gvar : Lib.OrdMap Bytes Bytes} {taken : List Bytes}
    (h : ∀ k, k ∈ gvar.keys ↔ k ∈ taken) : maigreconsomne gvar name = abbreviated taken name := by
  have hcontains : ∀ k, gvar.contains k = decide (k ∈ taken) := fun k =>
    Bool.eq_iff_iff.mpr (Lib.OrdMap.mem_keys_iff.symm.trans ((h k).trans decide_eq_true_iff.symm))
  have hcut : (kept (name.length - 12) 0 name.reverse).reverse.take 12 = cut name := rfl
  unfold maigreconsomne abbreviated freeDigit
  simp only [hcut, hcontains, decide_eq_true_eq, decide_not]
  split
  case isFalse => rfl
  case isTrue =>
    cases (str "0123456789").find? fun d => !decide (cut name ++ [d] ∈ taken) with
    | some d => rfl
    | none => exact (List.append_nil _).symm

/-- What a point keeps of the last mention of a variable. -/
theorem find?_readwords (before : List Bytes) (htype : name ∉ stypes) (hbehind : name ∉ behind) :
    (readwords (before ++ name :: behind)).1.gvar.find? name
        = some (abbreviated (named before) name) ∧
      (readwords (before ++ name :: behind)).1.source_type.find? name = some (inForce before) := by
  -- the last mention, and then words that do not mention it
  induction behind using List.reverseRecOn with
  | nil =>
    rw [readwords_concat, read, if_neg htype, maigreconsomne_eq fun k => mem_keys_readwords,
      type_readwords]
    exact ⟨Lib.OrdMap.find?_insert_self _ _ _, Lib.OrdMap.find?_insert_self _ _ _⟩
  | append_singleton behind w ih =>
    rw [List.mem_append, not_or, List.mem_singleton] at hbehind
    obtain ⟨hgvar, htypes⟩ := ih hbehind.1
    rw [← List.cons_append, ← List.append_assoc, readwords_concat, read]
    split
    · exact ⟨hgvar, htypes⟩
    · dsimp only
      rw [Lib.OrdMap.find?_insert_other _ hbehind.2, Lib.OrdMap.find?_insert_other _ hbehind.2]
      exact ⟨hgvar, htypes⟩

/-- The columns are those of the variables in their order. -/
theorem keys_make : (make param).gvar.keys = sortedNames param := by
  have hsorted : (make param).gvar.keys.Pairwise (· ≤ ·) :=
    (Lib.OrdMap.keys_sorted _).imp fun h => le_of_lt h
  -- two sorted lists of the same elements, none of them twice
  refine List.Perm.eq_of_pairwise (fun _ _ _ _ hab hba => le_antisymm hab hba) hsorted
    (List.pairwise_insertionSort _ _) ?_
  refine .trans ?_ (List.perm_insertionSort _ _).symm
  refine (List.perm_ext_iff_of_nodup (Lib.OrdMap.keys_nodup _) (List.nodup_dedup _)).mpr fun name => ?_
  rw [List.mem_dedup]
  exact mem_keys_readwords

theorem get_nbpoints_make : (make param).get_nbpoints = (sortedNames param).length := by
  rw [← keys_make, Lib.OrdMap.keys, List.length_map]
  rfl

/-- What the collector knows of a column is what the last mention of its variable says. -/
theorem column_make {n : Nat} (hn : (sortedNames param)[n]? = some name)
    (hlast : LastMention param name before) :
    (make param).get_tagsub n = abbreviated (named before) name ∧
      (make param).get_source_typeAt n = inForce before := by
  obtain ⟨htype, behind, hwords, hbehind⟩ := hlast
  obtain ⟨hgvar, htypes⟩ := find?_readwords before htype hbehind
  rw [← hwords] at hgvar htypes
  have hkey : (make param).gvar.keys[n]? = some name := keys_make ▸ hn
  have hkey' : (make param).source_type.keys[n]? = some name :=
    (congrArg (·[n]?) keys_readwords).trans hkey
  have hpos : (0 : Int) ≤ n := Int.natCast_nonneg n
  unfold get_tagsub get_source_typeAt nth
  rw [if_pos hpos, if_pos hpos, Int.toNat_natCast, Lib.OrdMap.values_getElem?,
    Lib.OrdMap.values_getElem?, hkey, hkey']
  exact ⟨congrArg (Option.getD · []) hgvar, congrArg (Option.getD · []) htypes⟩

/-! ## Calls -/

/-- The point behind calls of `measure`, each with what it finds outside and its text. -/
def behindCalls (m : MMySQLGStatus) (calls : List (Outside × Bytes)) : MMySQLGStatus :=
  calls.foldl (fun m call => (m.measure call.1 call.2).1) m

theorem OfParam.behindCalls {m : MMySQLGStatus} (h : OfParam param m) (calls : List (Outside × Bytes)) :
    OfParam param (m.behindCalls calls) := by
  induction calls generalizing m with
  | nil => exact h
  | cons call calls ih => exact ih (h.measure call.2)

variable {env : Outside} {m : MMySQLGStatus}

/-- The value of a variable, as it is told outside, or that there is none. -/
def reported (env : Outside) (name : Bytes) : Bytes :=
  if name = secondsBehindMaster then
    (env.slave_status.bind fun res =>
      (res.rows.find? fun row => startsWith secondsBehindMaster row.1).map (·.2)).getD unknown
  else (env.global_status.bind fun res => told res name).getD unknown

/-- No value is cut, and the column of the slave is right to be empty, if it is. -/
def Uncut (env : Outside) (param : Bytes) : Prop :=
  (∀ name ∈ names param, name ≠ secondsBehindMaster → 58 ∉ reported env name) ∧
    (secondsBehindMaster ∈ names param →
      env.slave_status = none ∨ reported env secondsBehindMaster = [])

/-- **The columns are of the variables**: the values that a call puts together. -/
theorem OfParam.columns_of_variables (h : OfParam param m) {res : MysqlRes}
    (hres : env.global_status = some res) (result : Bytes) :
    (m.measure env result).2.1 = result ++ Lib.joined 58 ((sortedNames param).map fun name =>
      if name = secondsBehindMaster then slavestatus env else reported env name) := by
  unfold MMySQLGStatus.measure
  rw [hres]
  show result ++ Lib.joined 58 ((readstatus env m res).entries.map Prod.snd) = _
  rw [Lib.OrdMap.values_eq _ [], h.keys_readstatus, h.keys, keys_make]
  congr 2
  refine List.map_congr_left fun name hname => ?_
  rw [← keys_make, ← h.keys] at hname
  rw [h.find?_readstatus res hname, Option.getD_some, reported]
  split
  · rfl
  · rw [hres]
    rfl

/-- The column of the slave has no colon. -/
theorem colon_notMem_slavestatus (hnull : env.FetchesNone) : 58 ∉ slavestatus env := by
  rw [slavestatus_eq hnull]
  split
  · decide
  · exact List.not_mem_nil

/-- The fields of a call begin with the values of the variables exactly where none is cut. -/
theorem OfParam.prefix_fields_iff (hnull : env.FetchesNone) (h : OfParam param m) {res : MysqlRes}
    (hres : env.global_status = some res) :
    (sortedNames param).map (reported env) <+: (m.measure env []).2.1.splitOn 58 ↔
      Uncut env param := by
  rw [h.columns_of_variables hres, List.nil_append, Lib.prefix_splitOn_joined_iff,
    List.forall₂_map_left_iff, List.forall₂_map_right_iff, List.forall₂_same]
  · -- the values read are the fields where no field is cut at a colon
    constructor
    · refine fun hall => ⟨fun name hname hne => ?_, fun hname => ?_⟩
      · have hvalue := hall name (mem_sortedNames.mpr hname)
        rw [if_neg hne] at hvalue
        exact hvalue.2
      · have hvalue := hall _ (mem_sortedNames.mpr hname)
        rw [if_pos rfl, slavestatus_eq hnull] at hvalue
        refine or_iff_not_imp_left.mpr fun hnone => ?_
        rw [if_neg hnone] at hvalue
        exact hvalue.1.symm
    · rintro ⟨huncut, hslave⟩ name hname
      by_cases hne : name = secondsBehindMaster
      · rw [if_pos hne]
        refine ⟨?_, colon_notMem_slavestatus hnull⟩
        rw [slavestatus_eq hnull, hne]
        rcases hslave (hne ▸ mem_sortedNames.mp hname) with hnone | hempty
        · rw [if_pos hnone, reported, if_pos rfl, hnone]
          rfl
        · split
          case isTrue hnone =>
            rw [reported, if_pos rfl, hnone]
            rfl
          case isFalse => exact hempty.symm
      · rw [if_neg hne]
        exact ⟨rfl, huncut name (mem_sortedNames.mp hname) hne⟩
  · rw [List.forall₂_map_left_iff, List.forall₂_map_right_iff, List.forall₂_same]
    intro name _
    split
    · exact .inr (colon_notMem_slavestatus hnull)
    · exact .inl rfl

/-- Each column of the collector is of the variable of which the field has the value: it has
its abbreviation, and the type in force where it was last mentioned. -/
def LinedUp (param : Bytes) (env : Outside) (fields : List Bytes) : Prop :=
  ∀ n < (make param).get_nbpoints, ∃ name before,
    (sortedNames param)[n]? = some name ∧ LastMention param name before ∧
      (make param).get_tagsub n = abbreviated (named before) name ∧
      (make param).get_source_typeAt n = inForce before ∧
      fields[n]? = some (reported env name)

/-- **When columns line up**, whatever calls came before: where no value is cut. -/
theorem columns_line_up_iff (hnull : env.FetchesNone) (param : Bytes)
    (calls : List (Outside × Bytes)) {res : MysqlRes} (hres : env.global_status = some res) :
    LinedUp param env ((((make param).behindCalls calls).measure env []).2.1.splitOn 58) ↔
      Uncut env param := by
  -- calls change values, and neither names nor tags
  have hprobe : OfParam param ((make param).behindCalls calls) :=
    OfParam.behindCalls ⟨rfl, rfl⟩ calls
  rw [← hprobe.prefix_fields_iff hnull hres, List.prefix_iff_getElem?, LinedUp, get_nbpoints_make]
  simp only [List.length_map, List.getElem_map]
  refine forall₂_congr fun n hn => ?_
  have hname : (sortedNames param)[n]? = some (sortedNames param)[n] := List.getElem?_eq_getElem hn
  constructor
  · rintro ⟨name, before, hname', -, -, -, hfield⟩
    obtain rfl := Option.some.inj (hname.symm.trans hname')
    exact hfield
  · -- the tag and the type are those of the last mention, whatever the calls
    intro hfield
    obtain ⟨before, hlast⟩ := exists_lastMention (mem_sortedNames.mp (List.getElem_mem hn))
    obtain ⟨htag, htype⟩ := column_make hname hlast
    exact ⟨_, before, hname, hlast, htag, htype, hfield⟩

/-! ## A server -/

/-- A server that tells these variables. -/
def answering (rows : List (Bytes × Bytes)) : Outside :=
  { nothing with global_status := some ⟨2, rows⟩ }

theorem columns_line_up_iff_uptime :
    LinedUp (str ",GAUGE,Threads_running,COUNTER,Uptime")
        (answering [(str "Uptime", str "17"), (str "Threads_running", str "2")])
        [str "2", str "17"] := by
  have hfields : (((make (str ",GAUGE,Threads_running,COUNTER,Uptime")).behindCalls
      [(nothing, [])]).measure (answering [(str "Uptime", str "17"),
        (str "Threads_running", str "2")]) []).2.1.splitOn 58 = [str "2", str "17"] := by
    decide +kernel
  have hnull : (answering [(str "Uptime", str "17"), (str "Threads_running", str "2")]).FetchesNone :=
    rfl
  rw [← hfields, columns_line_up_iff hnull _ _ rfl]
  unfold Uncut
  decide +kernel

/-- The time in a status is cut, and shifts the uptime behind it. -/
theorem status_with_time_shifts :
    ¬ ∀ (param : Bytes) (calls : List (Outside × Bytes)) (env : Outside) (res : MysqlRes),
      env.FetchesNone → env.global_status = some res →
      LinedUp param env ((((make param).behindCalls calls).measure env []).2.1.splitOn 58) := by
  intro h
  have hlined := h (str ",Innodb_buffer_pool_load_status,Uptime") []
    (answering [(str "Innodb_buffer_pool_load_status",
      str "Buffer pool(s) load completed at 150102 12:34:56"), (str "Uptime", str "17")]) _ rfl rfl
  obtain ⟨name, before, hname, -, -, -, hfield⟩ := hlined 1 (by decide +kernel)
  have huptime : (sortedNames (str ",Innodb_buffer_pool_load_status,Uptime"))[1]?
      = some (str "Uptime") := by decide +kernel
  obtain rfl := Option.some.inj (huptime.symm.trans hname)
  exact absurd hfield (by decide +kernel)

end MMySQLGStatus

end Qigong.Measure
