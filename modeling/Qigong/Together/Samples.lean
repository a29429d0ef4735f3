import Qigong.Together.Served

/-!
# Where measure lines come from

A line that begins as a measure does goes to a collector's rrd. Here is that a qigong
says such a line only as the record of a set that the connection is a channel of
(`Sampled`), whatever lines its connections send: what they choose themselves, names and
parameters, stands behind a beginning of the qigong's own, and on one line (`Legible`).
-/

namespace Qigong.Together

open Probe Probe.Globals
open Collect.CollectingConn (isMeasure)

variable {S : Scanners} {B : Build} {env : Env} {g g' : Globals} {pcc : ConnId}
variable {blank ident : UInt8 → Bool} {Q : Bytes → Prop}

/-! ## Measures -/

theorem isMeasure_of_head {l : Bytes} {b : UInt8} (hl : l.head? = some b) (hb : b ≠ 45) :
    isMeasure l = false := by
  refine Bool.eq_false_iff.mpr fun h => ?_
  exact not_prefix_of_head (a := 45) rfl hl (Ne.symm hb) (startsWith_iff.mp h)

/-- A measure begins with an arrow, and nothing else that is said does. -/
theorem unpicked_isMeasure : Unpicked isMeasure where
  nil := by decide
  head l b hl hb := isMeasure_of_head hl fun heq => hb (heq ▸ List.mem_cons_self)
  deletion rest := isMeasure_of_head (b := 100) rfl (by decide)
  activation rest := isMeasure_of_head (b := 97) rfl (by decide)

/-- A line that begins otherwise. -/
theorem clean_head {line : Bytes} {b : UInt8} (hline : NoEol line) (hl : line.head? = some b)
    (hb : b ≠ 45) : Clean isMeasure (line ++ endl) :=
  clean_of_not rfl hline (isMeasure_of_head hl hb)

/-- The line is the record of a set that the connection is a channel of. -/
def Sampled (pcc : ConnId) (env : Env) (g : Globals) (l : Bytes) : Prop :=
  ∃ prs rs n, g.recordsets.find? prs = some rs ∧ rs.channels.contains pcc = true ∧
    l = measureText rs.name env.now ((List.range rs.lmp.length).map (env.measured n))

theorem sampleLine_eq (g : Globals) (env : Env) (rs : RecordSet) :
    sampleLine g env rs = measureText rs.name env.now (values g env rs) := by
  rw [sampleLine, measureText, values, List.flatMap_map]

/-- The line of a set's record is one. -/
theorem records_sampled (henv : Measured env)
    (hname : ∀ prs rs, g.recordsets.find? prs = some rs → NoEol rs.name) (pcc : ConnId) :
    Records isMeasure (Sampled pcc env g) pcc env g := by
  intro g₁ prs rs hr hc l hl
  have hline : NoEol (sampleLine g₁ env rs) := by
    refine noEol_sampleLine (hname prs rs hr) fun v hv => ?_
    obtain ⟨i, -, rfl⟩ := List.mem_map.mp hv
    exact henv _ i
  rw [sample_eq, endl, picks_line rfl hline (by decide)] at hl
  obtain rfl := List.mem_singleton.mp (List.mem_of_mem_filter hl)
  exact ⟨prs, rs, g₁.sent.length, hr, hc, sampleLine_eq g₁ env rs⟩

/-! ## Names on one line -/

/-- The measure functions print what they are given on one line. -/
def Printable (mmpcreators : MmpCreators) : Prop :=
  ∀ fn mpc param m, mmpcreators.find? fn = some mpc → mpc param = some m → NoEol param →
    NoEol m.getname

/-- What is printed of the sets is on one line. -/
def Legible (g : Globals) : Prop :=
  ∀ prs rs, g.recordsets.find? prs = some rs → NoEol rs.name ∧ ∀ m ∈ rs.lmp, NoEol m.getname

theorem Legible.of_find (hg : Legible g)
    (h : ∀ prs rs, g'.recordsets.find? prs = some rs →
      ∃ rs', g.recordsets.find? prs = some rs' ∧ rs'.core = rs.core) : Legible g' := by
  intro prs rs hr
  obtain ⟨rs', hr', hcore⟩ := h prs rs hr
  obtain ⟨hname, hlmp⟩ := Prod.mk.inj hcore
  rw [← hname, ← (Prod.mk.inj hlmp).2]
  exact hg prs rs' hr'

theorem Legible.of_eq (hg : Legible g) (h : g'.recordsets = g.recordsets) : Legible g' :=
  hg.of_find fun _ rs hr => ⟨rs, h ▸ hr, rfl⟩

theorem noEol_getparam {s param : Bytes} {p next : Nat} (hs : NoEol s)
    (h : getparam s p = some (param, next)) : NoEol param := by
  unfold getparam at h
  split at h
  · obtain ⟨q, -, heq⟩ := Option.map_eq_some_iff.mp h
    obtain ⟨rfl, -⟩ := Prod.mk.inj heq
    exact noEol_of_subset (fun c hc => List.drop_subset _ _ (List.take_subset _ _ hc)) hs
  · obtain ⟨rfl, -⟩ := Prod.mk.inj (Option.some.inj h)
    exact noEol_nil

/-- The measure points of a definition on one line print on one line each. -/
theorem readpoints_legible {mmpcreators : MmpCreators} (hB : Printable mmpcreators) {s : Bytes}
    (hs : NoEol s) {fuel p : Nat} {r r' : List MeasurePoint × Bytes}
    (hr : ∀ m ∈ r.1, NoEol m.getname) (h : readpoints S mmpcreators s fuel p r = .ok r') :
    ∀ m ∈ r'.1, NoEol m.getname := by
  induction fuel generalizing p r with
  | zero =>
    unfold readpoints at h
    split at h
    · obtain rfl := Except.ok.inj h
      exact hr
    · cases h
  | succ fuel ih =>
    unfold readpoints at h
    dsimp only at h
    split at h
    · obtain rfl := Except.ok.inj h
      exact hr
    split at h
    · split at h <;> obtain rfl := Except.ok.inj h <;> exact hr
    cases hget : getparam s (S.getidentifier s p).2 with
    | none =>
      rw [hget] at h
      obtain rfl := Except.ok.inj h
      exact hr
    | some x =>
      obtain ⟨param, next⟩ := x
      rw [hget] at h
      dsimp only at h
      cases hpoint : createpoint mmpcreators (S.getidentifier s p).1 param with
      | error text =>
        rw [hpoint] at h
        exact ih (r := (r.1, r.2 ++ text)) hr h
      | ok pmp =>
        rw [hpoint] at h
        refine ih (fun m hm => ?_) h
        rcases List.mem_append.mp hm with hm | hm
        · exact hr m hm
        · obtain rfl := List.mem_singleton.mp hm
          -- a point is made by the function of its name
          unfold createpoint at hpoint
          split at hpoint
          · cases hpoint
          · rename_i mpc hmpc
            split at hpoint
            · cases hpoint
            · rename_i pmp hpmp
              obtain rfl := Except.ok.inj hpoint
              exact hB _ mpc param _ hmpc hpmp (noEol_getparam hs hget)

/-- So a set made of such a definition is legible. -/
theorem createrecordset_legible (hS : S.Documented blank ident) {mmpcreators : MmpCreators}
    (hB : Printable mmpcreators) {m : Lib.OrdMap Bytes SetId} {s text : Bytes} {rs : RecordSet}
    (hs : NoEol s) (h : createrecordset S mmpcreators m s = .ok (text, some rs)) :
    NoEol rs.name ∧ ∀ m ∈ rs.lmp, NoEol m.getname := by
  refine ⟨?_, ?_⟩
  · rw [createrecordset_name h]
    exact noEol_of_subset (getidentifier_subset hS s 0) hs
  · unfold createrecordset at h
    dsimp only at h
    -- no name, a name that is taken, no interval, and one that is not positive
    split at h
    · cases h
    split at h
    · cases h
    split at h
    · cases h
    split at h
    · cases h
    obtain ⟨r, hr, heq⟩ := map_eq_ok.mp h
    split at heq
    · cases heq
    · obtain rfl := Option.some.inj (Prod.mk.inj heq).2
      exact readpoints_legible hB hs (fun m hm => absurd hm List.not_mem_nil) hr

/-! ## What the commands say -/

/-- A command over identifiers keeps what each of its acts keeps, and its own texts are no
measures. -/
theorem forIdents_tells (hS : S.Documented blank ident) {I : Globals → Prop} {bufin : Bytes}
    (hline : NoEol bufin) {p : Nat} {command unit : Bytes} (hc : NoEol command) (hu : NoEol unit)
    {b : UInt8} (hb : command.head? = some b) (hne : b ≠ 45)
    {body : Globals → Bytes → Except Exn (Globals × Bool)}
    (hI : ∀ g text, Clean isMeasure text → I g → I (g.write pcc text))
    (hbody : ∀ i, NoEol i → ∀ g x, body g i = .ok x → I g → I x.1) (hg : I g)
    (h : g.forIdents S pcc bufin p command unit body = .ok g') : I g' := by
  obtain ⟨missing, heq⟩ := forIdents_eq hS bufin p
  rw [heq] at h
  obtain ⟨r, hloop, rfl⟩ := map_eq_ok.mp h
  -- one identifier after the other, and then what was performed
  have hr : I r.1 := by
    refine Lib.foldlM_keeps (I := fun r : Globals × Nat => I r.1) (fun i hi r r' hone hr => ?_) hloop hg
    obtain ⟨x, hx, rfl⟩ := map_eq_ok.mp hone
    exact hbody i (noEol_identsFrom hS hline i hi) r.1 x hx hr
  refine hI _ _ ?_ ?_
  · obtain ⟨line, heq, hun, hbegins⟩ := performed_line hc hu r.2
    rw [heq]
    refine clean_head hun (b := b) ?_ hne
    obtain ⟨rest, rfl⟩ := hbegins
    rw [List.append_assoc, List.head?_append, hb]
    rfl
  · split
    · exact hI _ _ (unpicked_isMeasure.missing true) hr
    · exact hr

/-- The sets of the qigong stay legible, and what is said to a connection is so. -/
def Told (Q : Bytes → Prop) (pcc : ConnId) (g₀ g : Globals) : Prop :=
  Legible g ∧ Tells isMeasure Q pcc g₀ g

theorem Told.write {g₀ : Globals} (h : Told Q pcc g₀ g) {text : Bytes} (htext : Clean isMeasure text) :
    Told Q pcc g₀ (g.write pcc text) :=
  ⟨h.1.of_eq rfl, h.2.write rfl fun _ => htext⟩

/-- `delete` of one identifier. -/
theorem told_deleteOne {g₀ : Globals} (h : Told Q pcc g₀ g) {i : Bytes} (hi : NoEol i)
    {x : Globals × Bool} (hx : deleteOne pcc g i = .ok x) : Told Q pcc g₀ x.1 := by
  refine ⟨h.1.of_find fun prs rs hr => ?_, h.2.deleteOne unpicked_isMeasure hi hx⟩
  obtain ⟨y, hy, rfl⟩ := map_eq_ok.mp hx
  rcases suppress_cases hy with ⟨-, rfl⟩ | ⟨prs', rs', -, -, -, rfl⟩
  · exact ⟨rs, hr, rfl⟩
  · have hfind : (g.recordsets.erase prs').find? prs = some rs := hr
    rw [Lib.OrdMap.find?_erase] at hfind
    split at hfind
    · cases hfind
    · exact ⟨rs, hfind, rfl⟩

/-- `subscribe` or `unsubscribe`, of one identifier. -/
theorem told_subsOne {g₀ : Globals} {act : Globals → ConnId → SetId → Except Exn Globals}
    (hact : ∀ prs g₁, act g pcc prs = .ok g₁ →
      SameSets g g₁ ∧ g₁.sent = g.sent ∧ g₁.out pcc = g.out pcc)
    {word : Bytes} (hword : NoEol word) {b : UInt8} (hb : word.head? = some b) (hne : b ≠ 45)
    (h : Told Q pcc g₀ g) {i : Bytes} (hi : NoEol i) {x : Globals × Bool}
    (hx : subsOne act word pcc g i = .ok x) : Told Q pcc g₀ x.1 := by
  unfold subsOne at hx
  cases hfind : g.mrecordsets.find? i with
  | none =>
    rw [hfind] at hx
    obtain rfl := Except.ok.inj hx
    refine h.write ?_
    have hline : NoEol (str "RecordSet: " ++ quoted i ++ str " doesn't exist.") := by
      simp only [noEol_append, noEol_quoted, hi]
      decide
    exact clean_head hline rfl (by decide)
  | some prs =>
    rw [hfind] at hx
    obtain ⟨g₁, hg₁, rfl⟩ := map_eq_ok.mp hx
    obtain ⟨hsame, hsent, hout⟩ := hact prs g₁ hg₁
    -- joining and leaving change channels only
    have htold : Told Q pcc g₀ g₁ := ⟨h.1.of_find fun _ _ hr => hsame.find hr, h.2.of_eq hsent hout⟩
    refine htold.write ?_
    have hline : NoEol (word ++ quoted i ++ str ".") := by
      simp only [noEol_append, noEol_quoted, hi, hword]
      decide
    refine clean_head hline (b := b) ?_ hne
    rw [List.append_assoc, List.head?_append, hb]
    rfl

/-- `create`: its complaints, the description of the set, and how it went. -/
theorem told_create (hS : S.Documented blank ident) (hB : Printable B.mmpcreators) {bufin : Bytes}
    (hline : NoEol bufin) {g₀ : Globals} (h : Told Q pcc g₀ g) {p : Nat}
    (hc : g.createCommand S B pcc bufin p = .ok g') : Told Q pcc g₀ g' := by
  obtain ⟨s, hs, hc⟩ := bind_eq_ok.mp hc
  obtain ⟨r, hmake, rfl⟩ := map_eq_ok.mp hc
  have hsun : NoEol s := by
    unfold substr at hs
    split at hs
    · cases hs
    · obtain rfl := Except.ok.inj hs
      exact noEol_of_subset (List.drop_subset p bufin) hline
  obtain ⟨text, made, htext, heq, -⟩ := createrecordset_iff hS B.mmpcreators g.mrecordsets hsun
  obtain rfl := Except.ok.inj (heq.symm.trans hmake)
  have hclean := unpicked_isMeasure.complaint htext
  cases made with
  | none =>
    have hfailed : Clean isMeasure (str "creation failed" ++ endl) :=
      clean_head (b := 99) (by decide) rfl (by decide)
    exact h.write (hclean.append rfl hfailed)
  | some rs =>
    obtain ⟨hname, hlmp⟩ := createrecordset_legible hS hB hsun hmake
    have hregistered : Told Q pcc g₀ (g.register rs) := by
      refine ⟨fun prs rs' hr => ?_, h.2.of_eq rfl rfl⟩
      have hfind : (g.recordsets.insert g.nextset rs).find? prs = some rs' := hr
      rw [Lib.OrdMap.find?_insert] at hfind
      split at hfind
      · exact Option.some.inj hfind ▸ ⟨hname, hlmp⟩
      · exact h.1 prs rs' hfind
    have hdone : Clean isMeasure (str "creation done." ++ endl) :=
      clean_head (b := 99) (by decide) rfl (by decide)
    have hdump := (unpicked_isMeasure.dump hname hlmp).append rfl (clean_endl rfl)
    exact hregistered.write ((hclean.append rfl hdump).append rfl hdone)

/-- The answer to `list`. -/
theorem clean_listText (hg : Legible g) {text : Bytes} (h : g.listText = .ok text) :
    Clean isMeasure text := by
  refine Lib.foldlM_keeps (I := Clean isMeasure) (fun e _ text text' hone hclean => ?_) h (clean_endl rfl)
  cases hr : g.recordsets.find? e.2 with
  | none =>
    rw [hr] at hone
    cases hone
  | some rs =>
    rw [hr] at hone
    obtain rfl := Except.ok.inj hone
    obtain ⟨hname, hlmp⟩ := hg e.2 rs hr
    exact (hclean.append rfl (unpicked_isMeasure.dump hname hlmp)).append rfl (clean_endl rfl)

/-- The help is no measure. -/
theorem clean_helpText : Clean isMeasure helpText := by
  refine clean_flatMap rfl fun l hl => ?_
  have hall : ∀ l ∈ ([str "  help    this help",
      str "  create RecordSetIdent Interval MeasurePointName(Params ) [ MP(params) ... ]",
      str "  list", str "  delete RecordSetIdent", str "  activate RecordSetIdent",
      str "  subscribe|sub RecordSetIdent", str "  unsubscribe|unsub RecordSetIdent",
      str "  turnoff", str "  quit", []] : List Bytes), NoEol l ∧ isMeasure l = false := by decide
  exact clean_of_not rfl (hall l hl).1 (hall l hl).2

/-- **Whatever line a connection sends**, it is told no measure line for it but the records
of the sets that it is a channel of. -/
theorem command_told (hS : S.Documented blank ident) (hB : Printable B.mmpcreators)
    {bufin : Bytes} (hline : NoEol bufin) {g₀ : Globals} (hQ : Records isMeasure Q pcc env g)
    (h : Told Q pcc g₀ g) (hc : g.command S B env pcc bufin = .ok g') : Told Q pcc g₀ g' := by
  have hok : ∀ {x y : Globals}, (.ok x : Except Exn Globals) = .ok y → Told Q pcc g₀ x →
      Told Q pcc g₀ y := fun hx ht => Except.ok.inj hx ▸ ht
  have hwrite : ∀ g text, Clean isMeasure text → Told Q pcc g₀ g → Told Q pcc g₀ (g.write pcc text) :=
    fun g text htext ht => ht.write htext
  have hword : NoEol (S.getidentifier bufin 0).1 :=
    noEol_of_subset (getidentifier_subset hS bufin 0) hline
  unfold Globals.command at hc
  rcases of_ite hc with ⟨-, hc⟩ | hc
  · exact hok hc h
  rcases of_ite hc with ⟨-, hc⟩ | hc
  · exact hok hc (h.write clean_helpText)
  rcases of_ite hc with ⟨-, hc⟩ | hc
  · exact hok hc (h.write (clean_head (b := 101) (by decide) rfl (by decide)))
  rcases of_ite hc with ⟨-, hc⟩ | hc
  · exact hok hc (h.write (clean_head (b := 101) (by decide) rfl (by decide)))
  rcases of_ite hc with ⟨-, hc⟩ | hc
  · exact told_create hS hB hline h hc
  rcases of_ite hc with ⟨-, hc⟩ | hc
  · obtain ⟨text, htext, rfl⟩ := map_eq_ok.mp hc
    exact h.write (clean_listText h.1 htext)
  rcases of_ite hc with ⟨-, hc⟩ | hc
  · exact forIdents_tells hS hline (by decide) (by decide) (b := 100) rfl (by decide) hwrite
      (fun i hi g x hx ht => told_deleteOne ht hi hx) h hc
  rcases of_ite hc with ⟨-, hc⟩ | hc
  · -- the sets are left as they are, so that the records of each act are told of them
    have hkept := forIdents_tells (I := fun g₁ => g₁.recordsets = g.recordsets ∧ Told Q pcc g₀ g₁)
      hS hline (by decide) (by decide) (b := 97) rfl (by decide)
      (fun g text htext ht => ⟨ht.1, ht.2.write htext⟩)
      (fun i hi g₁ x hx ht => ⟨(activateOne_recordsets hx).trans ht.1,
        ht.2.1.of_eq (activateOne_recordsets hx),
        ht.2.2.activateOne unpicked_isMeasure (hQ.of_eq ht.1) (fun _ => hi) hx⟩) ⟨rfl, h⟩ hc
    exact hkept.2
  rcases of_ite hc with ⟨-, hc⟩ | hc
  · refine forIdents_tells hS hline (by decide) (by decide) (b := 115) rfl (by decide) hwrite
      (fun i hi g x hx ht => told_subsOne (fun prs g₁ hg₁ => ?_) (by decide) (b := 115) rfl
        (by decide) ht hi hx) h hc
    obtain ⟨-, rfl⟩ := add_subs_eq hg₁
    exact ⟨modify_sameSets (f := fun m => m.insert pcc 1), rfl,
      out_modify_same (fun c => by rfl) pcc pcc g⟩
  rcases of_ite hc with ⟨-, hc⟩ | hc
  · refine forIdents_tells hS hline (by decide) (by decide) (b := 117) rfl (by decide) hwrite
      (fun i hi g x hx ht => told_subsOne (fun prs g₁ hg₁ => ?_) (by decide) (b := 117) rfl
        (by decide) ht hi hx) h hc
    obtain rfl := remove_subs_eq hg₁
    exact ⟨modify_sameSets (f := fun m => m.erase pcc), rfl,
      out_modify_same (fun c => by rfl) pcc pcc g⟩
  rcases of_ite hc with ⟨-, hc⟩ | hc
  · have heos : Clean isMeasure ([] ++ eos) := clean_concat rfl noEol_nil (by decide) rfl
    have hanswer : Clean isMeasure (str "qigong." ++ eos) :=
      clean_concat rfl (by decide) (by decide) (by decide)
    have hsaid : Told Q pcc g₀ (g.write pcc (eos ++ str "qigong." ++ eos)) := by
      rw [List.append_assoc]
      exact h.write (heos.append rfl hanswer)
    exact hok hc ⟨hsaid.1.of_eq rfl, hsaid.2.of_eq rfl rfl⟩
  · refine hok hc (h.write ?_)
    have hun : NoEol (str "unknown command : " ++ quoted (S.getidentifier bufin 0).1) := by
      rw [noEol_append, noEol_quoted]
      exact ⟨by decide, hword⟩
    exact clean_head hun rfl (by decide)

/-! ## Events -/

/-- A line that is read holds no line ends. -/
def Unbroken : Probe.Event → Prop
  | .line _ _ bufin => NoEol bufin
  | .connected _ _ | .firstprompt _ | .destroyed _ | .select_poll _ => True

instance decidableUnbroken : DecidablePred Unbroken
  | .line _ _ bufin => inferInstanceAs (Decidable (NoEol bufin))
  | .connected _ _ | .firstprompt _ | .destroyed _ | .select_poll _ => isTrue trivial

/-- **Step lemma**: an event keeps what is printed of the sets on one line. -/
theorem step_legible (hS : S.Documented blank ident) (hB : Printable B.mmpcreators) {e : Probe.Event}
    (hg : Linked g ∧ Hushed g) (hl : Legible g) (he : Unbroken e) (h : Probe.step S B g e = some g') :
    Legible g' := by
  obtain ⟨-, hr⟩ := step_eq_some h
  cases e with
  | connected pcc gethostname =>
    obtain rfl := Except.ok.inj hr
    exact hl
  | firstprompt pcc =>
    obtain rfl := Except.ok.inj hr
    have hsame : SameStores g (g.firstprompt B pcc) :=
      ((write_sameStores g pcc _).trans (prompt_sameStores _ _)).trans
        ((writePrompt_sameStores _ pcc).trans (flush_sameStores _ pcc))
    exact hl.of_eq hsame.recordsets
  | line pcc env bufin =>
    obtain ⟨g₁, hc, rfl⟩ := map_eq_ok.mp hr
    have hrefl : Told (fun _ => True) pcc g g := ⟨hl, tells_refl rfl hg.2 pcc⟩
    have htold := command_told hS hB he (fun _ _ _ _ _ _ _ => trivial) hrefl hc
    exact htold.1.of_eq (endLine_sameStores g₁ pcc).recordsets
  | destroyed pcc => exact hl.of_find fun _ _ hr' => (destroy_sameSets hr).find hr'
  | select_poll env =>
    exact pollSchedule_keeps (I := Legible) (fun _ _ hI => hI.of_eq rfl)
      (fun _ _ _ _ hm hI => hI.of_eq (measure_stores hm).1.recordsets) hr hl

/-- **Step lemma**: a measure line that a connection is told in an event is the record of a
set that it is a channel of. -/
theorem step_sampled (hS : S.Documented blank ident) (hB : Printable B.mmpcreators)
    (hgreet : Greeting B.version) {e : Probe.Event} (hg : Linked g ∧ Hushed g) (hl : Legible g)
    (he : Unbroken e) (hmeasured : MeasuredIn e) (h : Probe.step S B g e = some g') (pcc : ConnId) :
    ∀ l ∈ (told pcc g g').filter isMeasure, ∃ env, envOf e = some env ∧ Sampled pcc env g l := by
  let Q : Bytes → Prop := fun l => ∃ env, envOf e = some env ∧ Sampled pcc env g l
  have hQ : ∀ env, envOf e = some env → Records isMeasure Q pcc env g :=
    fun env henv g₁ prs rs hr hc l hpick => ⟨env, henv, records_sampled (hmeasured env henv)
      (fun prs rs hr => (hl prs rs hr).1) pcc g₁ prs rs hr hc l hpick⟩
  suffices htells : Tells isMeasure Q pcc g g' from htells.told
  -- an event of the connection itself, or of the others
  by_cases hne : connOf e = some pcc
  case neg => exact step_tells unpicked_isMeasure hS hg.2 hne hQ h
  obtain ⟨hp, hr⟩ := step_eq_some h
  have hrefl : Tells isMeasure Q pcc g g := tells_refl rfl hg.2 pcc
  cases e with
  | connected pcc' gethostname =>
    obtain rfl := Except.ok.inj hr
    obtain rfl : pcc' = pcc := Option.some.inj hne
    refine ⟨⟨[], (List.append_nil _).symm, fun x hx => absurd hx List.not_mem_nil⟩, fun t ht => ?_⟩
    have hfind : ((g.conns.insert pcc' ⟨0, .empty, []⟩).find? pcc').map (·.out) = some t := ht
    rw [Lib.OrdMap.find?_insert_self] at hfind
    obtain rfl := Option.some.inj hfind
    exact clean_nil rfl
  | firstprompt pcc' =>
    obtain rfl : pcc' = pcc := Option.some.inj hne
    exact greeted_tells unpicked_isMeasure hgreet hg h
  | line pcc' env bufin =>
    obtain rfl : pcc' = pcc := Option.some.inj hne
    obtain ⟨g₁, hc, rfl, hlive, hprompt, -⟩ := line_cases hg h
    have htold := command_told hS hB he (hQ env rfl) ⟨hl, hrefl⟩ hc
    exact htold.2.endLine unpicked_isMeasure hprompt hlive
  | destroyed pcc' =>
    obtain rfl : pcc' = pcc := Option.some.inj hne
    obtain ⟨hsent, hgone⟩ := destroy_untold hr pcc'
    rw [if_pos rfl] at hgone
    refine ⟨⟨[], by rw [hsent, List.append_nil], fun x hx => absurd hx List.not_mem_nil⟩,
      fun t ht => ?_⟩
    rw [hgone] at ht
    cases ht
  | select_poll env => cases hne

theorem legible_boot : Legible boot := fun _ _ h => by cases h

/-- **No line of a client makes a measure.** In every run of a qigong, whatever lines its
connections send, each line that begins as a measure and that a connection is told in an
event, in which no measured value holds a line end, is the record of a set of the qigong
that it is a channel of then: the name of the set, the time, and one value of each measure
point in their order. -/
theorem measures_sampled (hS : S.Documented blank ident) (hB : Printable B.mmpcreators)
    (hgreet : Greeting B.version) {es : List Probe.Event} {e : Probe.Event}
    (hrun : Lib.run (Probe.step S B) boot es = some g) (hes : ∀ e ∈ es, Unbroken e) (he : Unbroken e)
    (hmeasured : MeasuredIn e) (h : Probe.step S B g e = some g') (pcc : ConnId) :
    ∀ l ∈ (told pcc g g').filter isMeasure, ∃ env, envOf e = some env ∧
      ∃ prs rs n, g.recordsets.find? prs = some rs ∧ rs.channels.contains pcc = true ∧
        l = measureText rs.name env.now ((List.range rs.lmp.length).map (env.measured n)) := by
  have hlegible : Legible g := by
    -- legible and hushed in every state the run goes through
    have hinv : (Linked g ∧ Hushed g) ∧ Legible g :=
      Lib.Reaches.invariant (P := fun _ e => Unbroken e)
        (I := fun g => (Linked g ∧ Hushed g) ∧ Legible g)
        (fun g₁ e g₂ hI he hs => ⟨step_hushed hI.1 hs, step_legible hS hB hI.1 hI.2 he hs⟩)
        ⟨⟨linked_boot, hushed_boot⟩, legible_boot⟩
        (Lib.stepsMeet_of_mem (fun e he _ => hes e he) boot) (.of_run hrun)
    exact hinv.2
  exact step_sampled hS hB hgreet (hushed_of_run hrun) hlegible he hmeasured h pcc

theorem printable_sample : Printable sampleBuild.mmpcreators := by
  intro fn mpc param m hfind hm hparam
  have hmem := Lib.OrdMap.find?_eq_some_iff.mp hfind
  obtain ⟨-, rfl⟩ := Prod.mk.inj (List.mem_singleton.mp hmem)
  obtain rfl := Option.some.inj hm
  show NoEol (str "load" ++ str "(" ++ param ++ str ")")
  simp only [noEol_append, hparam]
  decide

/-- Two connections of the sample qigong subscribe to a set whose parameter looks like a
record. -/
def sampleForgery : List Probe.Event :=
  [.connected 0 none, .firstprompt 0, .connected 1 none] ++
    (["create web 60 load(-->web 0:9) load", "sub web"].map fun l => .line 1 sampleEnv (str l)) ++
      [.line 0 sampleEnv (str "sub web")]

theorem measures_sampled_forgery :
    ∃ g g', Lib.run (Probe.step sampleScanners sampleBuild) boot sampleForgery = some g ∧
      Probe.step sampleScanners sampleBuild g (.line 0 sampleEnv (str "activate web")) = some g' ∧
      (told 0 g g').filter isMeasure = [str "-->web 1000:0.5:0.5"] ∧
      ∀ l ∈ (told 0 g g').filter isMeasure, ∃ env,
        envOf (.line 0 sampleEnv (str "activate web")) = some env ∧
        ∃ prs rs n, g.recordsets.find? prs = some rs ∧ rs.channels.contains 0 = true ∧
          l = measureText rs.name env.now ((List.range rs.lmp.length).map (env.measured n)) := by
  have hany : (Lib.run (Probe.step sampleScanners sampleBuild) boot sampleForgery).any (fun g =>
      (Probe.step sampleScanners sampleBuild g (.line 0 sampleEnv (str "activate web"))).any fun g' =>
        decide ((told 0 g g').filter isMeasure = [str "-->web 1000:0.5:0.5"])) = true := by
    decide +kernel
  obtain ⟨g, hg, hs⟩ := (Option.any_eq_true _ _).mp hany
  obtain ⟨g', hg', htold⟩ := (Option.any_eq_true _ _).mp hs
  have hes : ∀ e ∈ sampleForgery, Unbroken e := by decide +kernel
  have hmeasured : MeasuredIn (.line 0 sampleEnv (str "activate web")) := by
    intro env henv
    obtain rfl := Option.some.inj henv
    exact measured_sample
  exact ⟨g, g', hg, hg', of_decide_eq_true htold, measures_sampled sampleScanners_documented
    printable_sample ⟨by decide, 81, rfl, by decide⟩ hg hes (by decide) hmeasured hg' 0⟩

end Qigong.Together
