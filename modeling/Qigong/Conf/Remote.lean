import Qigong.Conf.Steps
import Qigong.Collect.CollectingConn
import Qigong.Probe.Links
import Qigong.Probe.Scanning

/-!
# A set as the qigong makes it

A set of the configuration is asked of a qigong in one line (`create_remote`), which
`createrecordset` scans by hand. The sets the reader builds can be scanned back: their
names and functions are identifiers, and no parameter holds a closing parenthesis or a
line end (`Askable`, kept by every turn of the reader). So a qigong that knows the
functions registers one set of that name, interval and points (`remote_round_trip`).
-/

namespace Qigong.Conf

open Probe

variable {E : ConfEnv} {blank ident : UInt8 → Bool} {s : Bytes} {x x' : Cursor} {y y' : Reading}
  {text : Bytes} {cs cs' : CollectionSet}

/-! ## Words -/

/-- An identifier of a line. -/
structure Word (blank ident : UInt8 → Bool) (n : Bytes) : Prop extends Identifier blank ident n where
  unbroken : Unbroken n

/-- An identifier that is read is a word. -/
theorem word_of_scan (hS : E.Documented blank ident) (hs : Unbroken s) {p q : Nat} {n : Bytes}
    (hi : E.getidentifier s p = (n, q)) (hn : n ≠ []) : Word blank ident n := by
  obtain ⟨rfl, rfl⟩ := Prod.mk.inj hi
  exact ⟨identifier_of_scan hS hn, hs.of_subset (getidentifier_subset hS s p)⟩

/-- What follows a word in an identifier goes on with it. -/
theorem Word.append {n m : Bytes} (hn : Word blank ident n) (hm : m = [] ∨ Word blank ident m) :
    Word blank ident (n ++ m) := by
  rcases hm with rfl | hm
  · rwa [List.append_nil]
  refine ⟨⟨fun h => hn.ne_nil (List.append_eq_nil_iff.mp h).1, fun c hc => ?_, fun c hc => ?_⟩,
    hn.unbroken.append hm.unbroken⟩
  · exact (List.mem_append.mp hc).elim (hn.run c) (hm.run c)
  · rw [List.head?_append_of_ne_nil _ hn.ne_nil] at hc
    exact hn.head c hc

/-! ## What can be asked -/

/-- Of the characters of identifiers: an underscore is one, and goes on with an identifier;
parentheses and `NUL` are not. -/
structure Punctuated (blank ident : UInt8 → Bool) : Prop where
  underscore : blank 95 = false ∧ ident 95 = true
  parenthesis : ident 40 = false
  nul : ident 0 = false

/-- The set can be asked of a qigong. -/
structure Askable (blank ident : UInt8 → Bool) (cs : CollectionSet) : Prop where
  fullkey : Word blank ident cs.fullkey
  points : ∀ t ∈ cs.lptagmp, Word blank ident t.fn ∧ Unbroken t.params ∧ 41 ∉ t.params
  freqs : ∀ f ∈ cs.lfreq, f.interval < 2 ^ 63
  base_interval : cs.base_interval < 2 ^ 63

/-- What the reader holds makes such sets. -/
structure Wordy (blank ident : UInt8 → Bool) (r : ReadConf) (conf : CollectionsConf) : Prop where
  serverkey : r.serverkey = [] ∨ Word blank ident r.serverkey
  metaname : r.metaname = [] ∨ Word blank ident r.metaname
  curcs_name : r.curcs_name = [] ∨ Word blank ident r.curcs_name
  tagmp_fn : r.state = .seekendparam → Word blank ident r.tagmp_fn
  freq : r.freq.interval < 2 ^ 63
  pcurcs : ∀ cs, r.pcurcs = some cs → Askable blank ident cs
  conf : ∀ k cs, conf.find? k = some cs → Askable blank ident cs

theorem word_underscore (hP : Punctuated blank ident) : Word blank ident (str "_") where
  ne_nil := by decide
  run c hc := by
    obtain rfl := List.mem_singleton.mp hc
    exact hP.underscore.2
  head c hc := by
    obtain rfl := Option.some.inj hc
    exact hP.underscore.1
  unbroken c hc := by
    obtain rfl := List.mem_singleton.mp hc
    exact ⟨by decide, by decide⟩

/-- A set that is made of words can be asked for. -/
theorem askable_make (hP : Punctuated blank ident) {serverkey name metaname : Bytes}
    (hs : serverkey = [] ∨ Word blank ident serverkey) (hm : Word blank ident metaname)
    (hn : name = [] ∨ Word blank ident name) (fqdn : Bytes) (port : Int) :
    Askable blank ident (.make serverkey name metaname fqdn port) where
  fullkey := by
    have hkey := (hm.append (.inr (word_underscore hP))).append hn
    show Word blank ident (CollectionSet.fullkeyOf serverkey (CollectionSet.keyOf metaname name))
    unfold CollectionSet.fullkeyOf
    split
    case isTrue hne =>
      have hword := hs.resolve_left (List.length_pos_iff.mp (Nat.pos_of_ne_zero hne))
      exact (hword.append (.inr (word_underscore hP))).append (.inr hkey)
    case isFalse => exact hkey
  points t ht := (nomatch ht)
  freqs f hf := (nomatch hf)
  base_interval := by
    show (0 : Int) < 2 ^ 63
    decide

/-- And still with a measure point of words, -/
theorem Askable.push_point (h : Askable blank ident cs) {t : TaggedMeasuredPoint}
    (ht : Word blank ident t.fn ∧ Unbroken t.params ∧ 41 ∉ t.params) :
    Askable blank ident (cs.push_point t) where
  fullkey := h.fullkey
  points u hu := by
    rcases List.mem_append.mp hu with hu | hu
    · exact h.points u hu
    · exact List.mem_singleton.mp hu ▸ ht
  freqs := h.freqs
  base_interval := h.base_interval

/-- a frequency that is a `long`, -/
theorem Askable.push_freq (h : Askable blank ident cs) {f : CollectFreqDuration}
    (hf : f.interval < 2 ^ 63) : Askable blank ident (cs.push_freq f) where
  fullkey := h.fullkey
  points := h.points
  freqs g hg := by
    rcases List.mem_append.mp hg with hg | hg
    · exact h.freqs g hg
    · exact List.mem_singleton.mp hg ▸ hf
  base_interval := h.base_interval

/-- and its frequencies valid. -/
theorem Askable.validate_freqs {beyond : Int} {nbw : Nat} (h : Askable blank ident cs)
    (hb : beyond < 2 ^ 63) (hv : cs.validate_freqs beyond = some (cs', nbw)) :
    Askable blank ident cs' := by
  unfold CollectionSet.validate_freqs at hv
  obtain ⟨n, -, hv⟩ := Option.map_eq_some_iff.mp hv
  obtain rfl := (Prod.mk.inj hv).1
  have hfreqs : ∀ f ∈ cs.lfreq.insertionSort fun a b => a.interval ≤ b.interval,
      f.interval < 2 ^ 63 := fun f hf => h.freqs f ((List.mem_insertionSort _).mp hf)
  refine ⟨h.fullkey, h.points, hfreqs, ?_⟩
  dsimp only
  cases hhead : (cs.lfreq.insertionSort fun a b => a.interval ≤ b.interval).head? with
  | none => exact hb
  | some f => exact hfreqs f (List.mem_of_mem_head? hhead)

/-- A set that can be asked for joins others that can. -/
theorem askable_push_back {conf conf' : CollectionsConf}
    (h : ∀ k cs, conf.find? k = some cs → Askable blank ident cs) (hcs : Askable blank ident cs)
    (hpush : conf.push_back cs = some conf') (k : Bytes) (cs' : CollectionSet)
    (hk : conf'.find? k = some cs') : Askable blank ident cs' := by
  obtain ⟨-, rfl⟩ := CollectionsConf.push_back_eq_some.mp hpush
  rw [Lib.OrdMap.find?_insert] at hk
  split at hk
  · exact Option.some.inj hk ▸ hcs
  · exact h k cs' hk

/-- **Every turn of the reader keeps it.** -/
theorem Wordy.step (hS : E.Documented blank ident) (hP : Punctuated blank ident)
    (hb : E.beyond < 2 ^ 63) (hs : Unbroken s) (h : Wordy blank ident x.r x.conf)
    (hstep : Step E s x x') : Wordy blank ident x'.r x'.conf := by
  -- a function is only remembered on the way to its parameters
  cases hstep with
  | lineEnds => exact h
  | host | serverkey | hostbegin | collect | freqbegin | nofreq | multiplier | duration | tagnext
  | tagname | equal => exact { h with tagmp_fn := fun hst => (nomatch hst) }
  | hostname n p _ hi hn =>
    exact { h with metaname := .inr (word_of_scan hS hs hi hn), tagmp_fn := fun hst => (nomatch hst) }
  | serverkeyname n p _ hi hn =>
    exact { h with serverkey := .inr (word_of_scan hS hs hi hn), tagmp_fn := fun hst => (nomatch hst) }
  | collectname n p _ hi hn =>
    exact { h with curcs_name := .inr (word_of_scan hS hs hi hn), tagmp_fn := fun hst => (nomatch hst) }
  | parambegin n p _ hi hn => exact { h with tagmp_fn := fun _ => word_of_scan hS hs hi hn }
  | interval v _ _ hv => exact { h with freq := hv, tagmp_fn := fun hst => (nomatch hst) }
  | connection fqdn q p curcs_port port _ _ _ _ hm =>
    refine { h with tagmp_fn := fun hst => (nomatch hst), pcurcs := fun cs hcs => ?_ }
    obtain rfl := Option.some.inj hcs
    exact askable_make hP h.serverkey (h.metaname.resolve_left hm) h.curcs_name fqdn port
  | freqend cs _ _ hcs =>
    refine { h with tagmp_fn := fun hst => (nomatch hst), pcurcs := fun cs' hcs' => ?_ }
    obtain rfl := Option.some.inj hcs'
    exact (h.pcurcs cs hcs).push_freq h.freq
  | fn n p cs _ hi hn _ _ hcs =>
    refine { h with tagmp_fn := fun hst => (nomatch hst), pcurcs := fun cs' hcs' => ?_ }
    obtain rfl := Option.some.inj hcs'
    exact (h.pcurcs cs hcs).push_point
      ⟨word_of_scan hS hs hi hn, unbroken_nil, List.not_mem_nil⟩
  | param q params cs hst _ hparams hcs =>
    refine { h with tagmp_fn := fun hst => (nomatch hst), pcurcs := fun cs' hcs' => ?_ }
    obtain rfl := Option.some.inj hcs'
    refine (h.pcurcs cs hcs).push_point ⟨h.tagmp_fn hst, ?_, ?_⟩
    · exact hparams ▸ hs.of_subset (List.Subset.trans (List.take_subset _ _) (List.drop_subset _ _))
    · exact hparams ▸ not_mem_take_of_findFrom 41 s x.p npos
  | close cs cs' conf _ _ hcs hv hpush =>
    exact { h with
      metaname := .inl rfl
      tagmp_fn := fun hst => (nomatch hst)
      pcurcs := fun cs hcs => (nomatch hcs)
      conf := askable_push_back h.conf ((h.pcurcs cs hcs).validate_freqs hb hv) hpush }
  | closeCollect p cs cs' conf _ _ hcs hv hpush =>
    exact { h with
      tagmp_fn := fun hst => (nomatch hst)
      pcurcs := fun cs hcs => (nomatch hcs)
      conf := askable_push_back h.conf ((h.pcurcs cs hcs).validate_freqs hb hv) hpush }

/-- The set as its connection has it. -/
def CollectionSet.collecting (cs : CollectionSet) : Collect.CollectionSet where
  key := cs.key
  fullkey := cs.fullkey
  base_interval := cs.base_interval
  lptagmp := cs.lptagmp.map fun t => ⟨t.fn, t.params⟩
  state := .unmatched

/-- The parameters of a point, as they are written. -/
def paramText (params : Bytes) : Bytes := if params = [] then [] else 40 :: (params ++ [41])

/-- The points of a line, each behind a space. -/
def items (pts : List TaggedMeasuredPoint) : Bytes :=
  pts.flatMap fun t => 32 :: (t.fn ++ paramText t.params)

/-- The measure points a qigong is to make. -/
def madeOf (t : TaggedMeasuredPoint) : MeasurePoint := ⟨t.fn, t.params⟩

/-- A qigong has the function of a point. -/
def Knows (mmpcreators : MmpCreators) (t : TaggedMeasuredPoint) : Prop :=
  ∃ mpc, mmpcreators.find? t.fn = some mpc ∧ mpc t.params = some (madeOf t)

/-- A function that is known makes its point. -/
theorem createpoint_ok {mmpcreators : MmpCreators} {t : TaggedMeasuredPoint}
    (h : Knows mmpcreators t) : createpoint mmpcreators t.fn t.params = .ok (madeOf t) := by
  obtain ⟨mpc, hmpc, hmade⟩ := h
  simp only [createpoint, hmpc, hmade]

/-- An item begins with a space. -/
theorem head?_items {pts : List TaggedMeasuredPoint} {c : UInt8} (h : (items pts).head? = some c) :
    c = 32 := by
  cases pts with
  | nil => cases h
  | cons t pts => exact (Option.some.inj h).symm

theorem head?_paramText {params : Bytes} {pts : List TaggedMeasuredPoint} {c : UInt8}
    (h : (paramText params ++ items pts).head? = some c) : c = 40 ∨ c = 32 := by
  unfold paramText at h
  split at h
  · exact .inr (head?_items h)
  · exact .inl (Option.some.inj h).symm

/-- The parameters behind a function are found, and the position behind them. -/
theorem getparam_at (pre : Bytes) {params : Bytes} (rest : Bytes) (hne : params ≠ [])
    (h : 41 ∉ params) (hlen : pre.length < npos) :
    getparam (pre ++ (paramText params ++ rest)) pre.length
      = some (params, (pre ++ paramText params).length) := by
  have htext : paramText params = 40 :: (params ++ [41]) := if_neg hne
  rw [htext]
  have hopen : (pre ++ (40 :: (params ++ [41]) ++ rest))[pre.length]? = some 40 := by
    rw [List.getElem?_append_right le_rfl]
    simp
  have hs : pre ++ (40 :: (params ++ [41]) ++ rest) = (pre ++ [40]) ++ (params ++ 41 :: rest) := by
    simp
  have hlen' : (pre ++ [40]).length = pre.length + 1 := by simp
  have hfind := findFrom_at (pre ++ [40]) rest h
  rw [hlen'] at hfind
  rw [getparam, if_pos ⟨hlen.ne, hopen⟩, hs, hfind, Option.map_some, ← hlen', List.drop_left]
  simp
  omega

theorem items_cons (t : TaggedMeasuredPoint) (pts : List TaggedMeasuredPoint) :
    items (t :: pts) = [32] ++ (t.fn ++ (paramText t.params ++ items pts)) := by
  simp [items]

/-- Where no parenthesis follows there are no parameters. -/
theorem getparam_none {s : Bytes} {p : Nat} (h : p = npos ∨ s[p]? ≠ some 40) :
    getparam s p = some ([], p) := by
  rw [getparam, if_neg]
  exact fun hp => h.elim hp.1 fun hc => hc hp.2

/-- Behind a function its parameters are found, and the position is that of the next
point, or at the end. -/
theorem getparam_item {params : Bytes} (pts : List TaggedMeasuredPoint) (pre : Bytes)
    (h : 41 ∉ params) (hlen : pre.length < npos) :
    ∃ next, getparam (pre ++ (paramText params ++ items pts))
        (if paramText params ++ items pts = [] then npos else pre.length) = some (params, next) ∧
      (next = (pre ++ paramText params).length ∨ pts = [] ∧ next = npos) := by
  by_cases hne : params = []
  · subst hne
    cases pts with
    | nil => exact ⟨npos, getparam_none (.inl rfl), .inr ⟨rfl, rfl⟩⟩
    | cons t pts =>
      have htext : paramText [] ++ items (t :: pts)
          = 32 :: (t.fn ++ (paramText t.params ++ items pts)) := by
        rw [items_cons]
        rfl
      rw [htext, if_neg (List.cons_ne_nil _ _)]
      refine ⟨pre.length, getparam_none (.inr ?_), .inl ?_⟩
      · rw [List.getElem?_append_right le_rfl, Nat.sub_self]
        exact fun hc => absurd (Option.some.inj hc) (by decide)
      · rw [show paramText [] = [] from rfl, List.append_nil]
  · have htext : paramText params ≠ [] := by
      rw [paramText, if_neg hne]
      exact List.cons_ne_nil _ _
    rw [if_neg fun hnil => htext (List.append_eq_nil_iff.mp hnil).1]
    exact ⟨_, getparam_at pre _ hne h hlen, .inl rfl⟩

/-- **The points of the line are made, in their order.** -/
theorem readpoints_items {S : Scanners} {mmpcreators : MmpCreators} (hS : S.Documented blank ident)
    (hP : Punctuated blank ident) {pts : List TaggedMeasuredPoint}
    (hpts : ∀ t ∈ pts, Word blank ident t.fn ∧ 41 ∉ t.params)
    (hknows : ∀ t ∈ pts, Knows mmpcreators t) (pre : Bytes) (made : List MeasurePoint)
    (errs : Bytes) {fuel p : Nat} (hp : p = pre.length ∨ pts = [] ∧ p = npos)
    (hfuel : pts.length < fuel) (hlen : (pre ++ items pts).length < npos) :
    readpoints S mmpcreators (pre ++ items pts) fuel p (made, errs)
      = .ok (made ++ pts.map madeOf, errs) := by
  induction pts generalizing pre made fuel p with
  | nil =>
    obtain ⟨fuel, rfl⟩ := Nat.exists_eq_add_of_lt hfuel
    have hs : pre ++ items [] = pre := List.append_nil _
    rw [hs] at *
    rw [List.map_nil, List.append_nil]
    rcases hp with rfl | ⟨-, rfl⟩
    · -- nothing is left behind the last parameters
      have hend : S.getidentifier pre pre.length = ([], npos) := by
        rw [hS.getidentifier, scan, List.drop_length]
        rfl
      simp only [readpoints, hend, if_true, ite_self]
    · simp only [readpoints, if_true]
  | cons t pts ih =>
    obtain rfl := hp.resolve_right fun h => absurd h.1 (List.cons_ne_nil _ _)
    obtain ⟨fuel, rfl⟩ := Nat.exists_eq_add_of_lt hfuel
    have hword := (hpts t List.mem_cons_self).1
    have hs : pre ++ items (t :: pts)
        = pre ++ ([32] ++ (t.fn ++ (paramText t.params ++ items pts))) := by rw [items_cons]
    have hs' : pre ++ items (t :: pts)
        = (pre ++ ([32] ++ t.fn)) ++ (paramText t.params ++ items pts) := by rw [hs]; simp
    have hs'' : pre ++ items (t :: pts)
        = (pre ++ ([32] ++ t.fn) ++ paramText t.params) ++ items pts := by rw [hs]; simp
    have hlen' : (pre ++ ([32] ++ t.fn)).length < npos := by
      rw [hs', List.length_append] at hlen
      omega
    have hget := getidentifier_at hS hword.toIdentifier pre [32] (paramText t.params ++ items pts)
      (fun c hc => List.mem_singleton.mp hc ▸ hS.space.1) (fun c hc => by
        rcases head?_paramText hc with rfl | rfl
        · exact hP.parenthesis
        · exact hS.space.2)
    have hpos : pre.length + ([32] : Bytes).length + t.fn.length = (pre ++ ([32] ++ t.fn)).length := by
      simp only [List.length_append]
      omega
    rw [← hs, hpos] at hget
    obtain ⟨next, hparam, hnext⟩ := getparam_item pts (pre ++ ([32] ++ t.fn))
      (hpts t List.mem_cons_self).2 hlen'
    rw [← hs'] at hparam
    have hne : pre.length ≠ npos := by
      rw [List.length_append] at hlen
      omega
    have hstep : readpoints S mmpcreators (pre ++ items (t :: pts)) (pts.length + 1 + fuel + 1)
        pre.length (made, errs) = readpoints S mmpcreators (pre ++ items (t :: pts))
          (pts.length + 1 + fuel) next (made ++ [madeOf t], errs) := by
      simp only [readpoints, if_neg hne, hget, if_neg hword.ne_nil, hparam,
        createpoint_ok (hknows t List.mem_cons_self)]
    rw [List.length_cons, hstep, hs'', ih (fun u hu => hpts u (List.mem_cons_of_mem _ hu))
      (fun u hu => hknows u (List.mem_cons_of_mem _ hu)) _ _ hnext (by omega) (hs'' ▸ hlen)]
    simp

/-- Each item takes a character at least. -/
theorem length_le_items (pts : List TaggedMeasuredPoint) : pts.length ≤ (items pts).length := by
  induction pts with
  | nil => exact le_rfl
  | cons t pts ih =>
    rw [items_cons, List.length_cons]
    simp only [List.length_append, List.length_singleton]
    omega

/-! ## What is created -/

/-- What `create_remote` writes behind `create`. -/
def definition (cs : CollectionSet) : Bytes :=
  [32] ++ (cs.fullkey ++ ([32] ++ (decimal cs.base_interval ++ items cs.lptagmp)))

/-- The set a qigong is to register. -/
def recordSetOf (cs : CollectionSet) : RecordSet :=
  ⟨cs.lptagmp.map madeOf, cs.base_interval, cs.fullkey, .empty⟩

/-- What is sent for a set is its definition behind the word. -/
theorem create_text (cs : CollectionSet) :
    Collect.Command.text cs.collecting .create = str "create" ++ definition cs ++ eos := by
  have hitems : (cs.collecting.lptagmp.flatMap fun t => str " " ++ t.getremote_def)
      = items cs.lptagmp := by
    rw [CollectionSet.collecting, List.flatMap_map, items]
    refine congrArg (List.flatMap · cs.lptagmp) (funext fun t => ?_)
    unfold Collect.TaggedMeasuredPoint.getremote_def paramText
    dsimp only
    split
    · simp [str]
    · simp [str]
  rw [Collect.Command.text, hitems, definition]
  simp [str, CollectionSet.collecting]

/-- A line of the file without a zero is a line of the connection. -/
theorem noEol_of_unbroken (h : Unbroken s) (h0 : 0 ∉ s) : NoEol s := by
  intro c hc
  have hne : c ≠ 0 := fun heq => h0 (heq ▸ hc)
  simp [isEol, h c hc, hne]

/-- The line ends where `create_remote` ends it. -/
theorem noEol_definition (hP : Punctuated blank ident) (h : Askable blank ident cs)
    (hnul : ∀ t ∈ cs.lptagmp, 0 ∉ t.params) : NoEol (str "create" ++ definition cs) := by
  have hword : ∀ {n : Bytes}, Word blank ident n → NoEol n := fun hn =>
    noEol_of_unbroken hn.unbroken fun h0 => by
      have hrun := hn.run 0 h0
      rw [hP.nul] at hrun
      cases hrun
  have hspace : NoEol [32] := by decide
  have hitems : NoEol (items cs.lptagmp) := by
    intro c hc
    obtain ⟨t, ht, hc⟩ := List.mem_flatMap.mp hc
    obtain ⟨hfn, hparams, -⟩ := h.points t ht
    have hpar : NoEol (paramText t.params) := by
      unfold paramText
      split
      · exact noEol_nil
      · rw [noEol_cons, noEol_append]
        exact ⟨by decide, noEol_of_unbroken hparams (hnul t ht), by decide⟩
    have hitem : NoEol ([32] ++ (t.fn ++ paramText t.params)) := by
      simp only [noEol_append]
      exact ⟨hspace, hword hfn, hpar⟩
    exact hitem c hc
  simp only [definition, noEol_append]
  exact ⟨by decide, hspace, hword h.fullkey, hspace, noEol_decimal _, hitems⟩

/-- **`createrecordset` makes the set of its definition.** -/
theorem createrecordset_definition {S : Scanners} {mmpcreators : MmpCreators}
    {mrecordsets : Lib.OrdMap Bytes SetId} (hS : S.Documented blank ident)
    (hD : S.ReadsDigits blank) (hP : Punctuated blank ident) (h : Askable blank ident cs)
    (hpos : 0 < cs.base_interval) (hne : cs.lptagmp ≠ [])
    (hknows : ∀ t ∈ cs.lptagmp, Knows mmpcreators t) (hfree : mrecordsets.find? cs.fullkey = none)
    (hlen : (definition cs).length < npos) :
    createrecordset S mmpcreators mrecordsets (definition cs) = .ok ([], some (recordSetOf cs)) := by
  obtain ⟨n, hn⟩ := Int.eq_ofNat_of_zero_le hpos.le
  have hblank : ∀ c ∈ ([32] : Bytes), blank c = true := fun c hc =>
    List.mem_singleton.mp hc ▸ hS.space.1
  have hitems : items cs.lptagmp ≠ [] := by
    obtain ⟨t, pts, heq⟩ := List.exists_cons_of_ne_nil hne
    rw [heq, items_cons]
    exact List.cons_ne_nil _ _
  -- the name, the interval and the points, each behind what has been read
  have hname : S.getidentifier (definition cs) 0 = (cs.fullkey, ([32] ++ cs.fullkey).length) := by
    have hget := getidentifier_at hS h.fullkey.toIdentifier [] [32]
      (32 :: (decimal cs.base_interval ++ items cs.lptagmp)) hblank
      (fun c hc => Option.some.inj hc ▸ hS.space.2)
    rw [if_neg (List.cons_ne_nil _ _)] at hget
    simpa [definition, Nat.add_comm] using hget
  have hsplit : definition cs
      = ([32] ++ cs.fullkey) ++ ([32] ++ (decimal n ++ items cs.lptagmp)) := by
    rw [definition, hn]
    simp
  have hinterval : S.getinteger (definition cs) ([32] ++ cs.fullkey).length
      = ((n : Int), ([32] ++ cs.fullkey ++ ([32] ++ decimal n)).length) := by
    have hget := hD.getinteger_at ([32] ++ cs.fullkey) [32] (items cs.lptagmp) (n := n) hblank
      (by have hlt := h.base_interval; omega)
      (fun c hc => by rw [head?_items hc]; decide)
    rw [if_neg hitems] at hget
    rw [hsplit, hget]
    refine Prod.ext rfl ?_
    simp only [List.length_append]
    omega
  have hpoints : readpoints S mmpcreators (definition cs) ((definition cs).length + 1)
      ([32] ++ cs.fullkey ++ ([32] ++ decimal n)).length ([], [])
      = .ok (cs.lptagmp.map madeOf, []) := by
    have hsplit' : definition cs
        = ([32] ++ cs.fullkey ++ ([32] ++ decimal n)) ++ items cs.lptagmp := by
      rw [hsplit]
      simp
    have hfuel : cs.lptagmp.length < (definition cs).length + 1 := by
      have hle := length_le_items cs.lptagmp
      rw [hsplit', List.length_append]
      omega
    rw [hsplit'] at hlen hfuel ⊢
    exact readpoints_items hS hP (fun t ht => ⟨(h.points t ht).1, (h.points t ht).2.2⟩) hknows _ [] []
      (.inl rfl) hfuel hlen
  have hpast : ([32] ++ cs.fullkey).length ≠ npos := by
    rw [hsplit, List.length_append] at hlen
    omega
  have hn0 : (n : Int) ≠ 0 := hn ▸ hpos.ne'
  have hmade : cs.lptagmp.map madeOf ≠ [] := by simpa using hne
  unfold createrecordset
  simp only [hname, if_neg h.fullkey.ne_nil, if_neg hpast, Lib.OrdMap.contains, hfree,
    Option.isSome_none, Bool.false_eq_true, if_false, hinterval, if_neg hn0, hpoints, Except.map,
    if_neg hmade, recordSetOf, hn]

/-- The qigong reads the line of a set as the command to create it. -/
theorem command_create {S : Scanners} {B : Build} (hS : S.Documented blank ident) (env : Env)
    (pcc : ConnId) (g : Globals) (cs : CollectionSet) :
    g.command S B env pcc (str "create" ++ definition cs)
      = g.createCommand S B pcc (str "create" ++ definition cs) (str "create").length := by
  have hget : S.getidentifier (str "create" ++ definition cs) 0
      = (str "create", (str "create").length) :=
    getidentifier_word hS (by decide) (forall_mem_of_all (by decide)) _
  unfold Globals.command
  rw [hget]
  rfl

theorem punctuated_sample : Punctuated isBlank isIdent := ⟨by decide, by decide, by decide⟩

/-- The set of `loads`. -/
def loadsSet : CollectionSet :=
  { CollectionSet.make [] (str "c") (str "h") (str "k") defaultPort with
    lptagmp := [⟨str "t", str "load", str "a b"⟩, ⟨str "u", str "load", []⟩]
    lfreq := [⟨10, 432000⟩]
    base_interval := 10 }

end Qigong.Conf
