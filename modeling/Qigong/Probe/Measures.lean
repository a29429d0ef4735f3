import Qigong.Probe.Scanning
import Qigong.Probe.Texts
import Qigong.Collect.Rrds

/-!
# A measure, from the probe to its rrd

`RecordSet::measure` is called by the loop of `select_poll` and by the command `activate`,
which has written answers of its own to `out` (`Measuring`). The record it flushes to a
channel is read as the lines of what `out` held, none of which begins as a measure does,
and one measure line behind them (`splitRecord_measure`). A connection that collects
makes of that line one update of the rrd of its set, with the stamp and the values the
qigong has written (`measure_round_trip`).
-/

namespace Qigong.Probe

open Globals
open Crypt.CryptConnection (splitRecord)
open Collect (CollectionSet CollectingConn Effect rrdFile)
open Collect.CollectingConn (rrdName isMeasure)

variable {S : Scanners} {B : Build} {env : Env} {g₀ g g' : Globals} {pcc : ConnId} {prs : SetId}
variable {blank ident : UInt8 → Bool}

/-! ## The names of record sets -/

/-- Every set has a name that was read, and measure points. -/
def Named (blank ident : UInt8 → Bool) (g : Globals) : Prop :=
  ∀ prs rs, g.recordsets.find? prs = some rs → Identifier blank ident rs.name ∧ rs.lmp ≠ []

theorem Named.of_find (hg : Named blank ident g)
    (h : ∀ prs rs, g'.recordsets.find? prs = some rs →
      ∃ rs', g.recordsets.find? prs = some rs' ∧ rs'.core = rs.core) : Named blank ident g' := by
  intro prs rs hr
  obtain ⟨rs', hr', hcore⟩ := h prs rs hr
  obtain ⟨hname, hlmp⟩ := Prod.mk.inj hcore
  rw [← hname, ← (Prod.mk.inj hlmp).2]
  exact hg prs rs' hr'

theorem Named.of_sameSets (hg : Named blank ident g) (h : SameSets g g') : Named blank ident g' :=
  hg.of_find fun _ _ hr => h.find hr

theorem Named.of_eq (hg : Named blank ident g) (h : g'.recordsets = g.recordsets) :
    Named blank ident g' := hg.of_find fun _ rs hr => ⟨rs, h ▸ hr, rfl⟩

/-- `createrecordset` reads the name. -/
theorem createrecordset_named (hS : S.Documented blank ident) {mmpcreators : MmpCreators}
    {m : Lib.OrdMap Bytes SetId} {s text : Bytes} {rs : RecordSet}
    (h : createrecordset S mmpcreators m s = .ok (text, some rs)) :
    Identifier blank ident rs.name := by
  unfold createrecordset at h
  dsimp only at h
  split at h
  · cases h
  rename_i hname
  split at h
  · cases h
  split at h
  · cases h
  split at h
  · cases h
  obtain ⟨r, -, hr⟩ := map_eq_ok.mp h
  split at hr
  · cases hr
  · obtain rfl := Option.some.inj (Prod.mk.inj hr).2
    exact identifier_of_scan hS hname

/-- Sets are made under identifiers. -/
theorem named_keptByChanges (hS : S.Documented blank ident) (pcc : ConnId) :
    KeptByChanges S pcc (Named blank ident) where
  write g text hg := hg.of_sameSets (write_sameStores g pcc text).sameSets
  prompt g hg := hg.of_eq rfl
  register g rs mmpcreators s text h hg := by
    intro prs rs' hr
    rw [show (g.register rs).recordsets = g.recordsets.insert g.nextset rs from rfl,
      Lib.OrdMap.find?_insert] at hr
    split at hr
    case isTrue =>
      obtain rfl := Option.some.inj hr
      exact ⟨createrecordset_named hS h, (createrecordset_makes h).2.2.1⟩
    case isFalse => exact hg prs rs' hr
  suppress g ident r h hg := by
    rcases suppress_cases h with ⟨-, rfl⟩ | ⟨prs, rs, -, -, -, rfl⟩
    · exact hg.of_sameSets (write_sameStores g pcc _).sameSets
    · refine Named.of_sameSets (fun prs' rs' hr => ?_) (write_sameStores _ pcc deletionTexts).sameSets
      rw [Lib.OrdMap.find?_erase] at hr
      split at hr
      case isTrue => cases hr
      case isFalse => exact hg prs' rs' hr
  add_subs g prs g' h hg := by
    obtain ⟨-, rfl⟩ := add_subs_eq h
    exact hg.of_sameSets (modify_sameSets (f := fun m => m.insert pcc 1))
  remove_subs g prs g' h hg := by
    obtain rfl := remove_subs_eq h
    exact hg.of_sameSets (modify_sameSets (f := fun m => m.erase pcc))

/-- `measure` leaves the sets alone, and so does `activate`. -/
theorem activateOne_recordsets {i : Bytes} {r : Globals × Bool}
    (h : activateOne env pcc g i = .ok r) : r.1.recordsets = g.recordsets := by
  obtain ⟨x, hx, rfl⟩ := map_eq_ok.mp h
  rcases activate_cases hx with ⟨-, rfl⟩ | ⟨prs, e, g₁, -, hm, rfl⟩
  · rfl
  · exact (measure_stores hm).1.recordsets

/-- What rescheduling and measuring keep, the loop over the schedule keeps. -/
theorem pollSchedule_keeps {I : Globals → Prop}
    (hschedule : ∀ g es, I g → I { g with schedule := es })
    (hmeasure : ∀ g t prs r, g.measure env t prs = .ok r → I g → I r.2) {fuel : Nat}
    {kept : List Entry} (h : g.pollSchedule env fuel kept = .ok g') (hg : I g) : I g' := by
  have hturn : KeptByTurns env fun _ g => I g := by
    intro kept g e es r hI _ hm
    have hr := hmeasure _ _ _ r hm (hschedule g es hI)
    exact ⟨fun _ => hr, fun _ => hschedule r.2 _ hr⟩
  obtain ⟨kept', g₁, hI, rfl⟩ := pollSchedule_rule hturn h hg
  exact hschedule g₁ _ hI

/-- **Step lemma**: the names stay names. -/
theorem step_named (hS : S.Documented blank ident) {e : Event} (hg : Named blank ident g)
    (h : step S B g e = some g') : Named blank ident g' := by
  obtain ⟨-, hr⟩ := step_eq_some h
  cases e with
  | connected pcc gethostname =>
    obtain rfl := Except.ok.inj hr
    exact hg
  | firstprompt pcc =>
    obtain rfl := Except.ok.inj hr
    exact hg.of_sameSets (((write_sameStores g pcc _).trans (prompt_sameStores _ _)).trans
      ((writePrompt_sameStores _ pcc).trans (flush_sameStores _ pcc))).sameSets
  | line pcc env bufin =>
    obtain ⟨g₁, hc, rfl⟩ := map_eq_ok.mp hr
    have hkept := named_keptByChanges hS pcc
    refine Named.of_sameSets ?_ (endLine_sameStores g₁ pcc).sameSets
    exact hkept.command hg (fun _ _ _ hloop => hkept.forIdents
      (fun _ _ _ ha hI => hI.of_eq (activateOne_recordsets ha)) hg hloop) hc
  | destroyed pcc => exact hg.of_sameSets (destroy_sameSets hr)
  | select_poll env =>
    exact pollSchedule_keeps (fun _ _ hI => hI.of_eq rfl)
      (fun _ _ _ _ hm hI => hI.of_eq (measure_stores hm).1.recordsets) hr hg

theorem named_boot : Named blank ident boot := fun _ _ h => (nomatch h)

/-- In every run the sets have identifiers for names. -/
theorem named_of_run (hS : S.Documented blank ident) {es : List Event}
    (h : Lib.run (step S B) boot es = some g) : Named blank ident g :=
  Lib.run_invariant (fun _ _ _ hg he => step_named hS hg he) named_boot h

/-! ## Where `measure` is called -/

/-- The states within one event from which `measure` may be called: behind measures and
changes of the schedule, and behind identifiers of `activate`. -/
inductive Measuring (env : Env) (pcc : ConnId) (g₀ : Globals) : Globals → Prop
  | start : Measuring env pcc g₀ g₀
  | rescheduled {g : Globals} (es : List Entry) :
    Measuring env pcc g₀ g → Measuring env pcc g₀ { g with schedule := es }
  | measured {g : Globals} {t : Int} {prs : SetId} {r : Entry × Globals} :
    Measuring env pcc g₀ g → g.measure env t prs = .ok r → Measuring env pcc g₀ r.2
  | activated {g : Globals} {i : Bytes} {r : Globals × Bool} :
    Measuring env pcc g₀ g → NoEol i → activateOne env pcc g i = .ok r → Measuring env pcc g₀ r.1

/-- `select_poll` goes through such states. -/
theorem select_poll_measuring (pcc : ConnId) (h : g.select_poll env = .ok g') :
    Measuring env pcc g g' :=
  pollSchedule_keeps (fun _ es hI => .rescheduled es hI) (fun _ _ _ _ hm hI => .measured hI hm) h .start

/-- `activate` goes through such states. -/
theorem activate_measuring {is : List Bytes} (his : ∀ i ∈ is, NoEol i) {r r' : Globals × Nat}
    (hr : Measuring env pcc g r.1) (h : is.foldlM (counted (activateOne env pcc)) r = .ok r') :
    Measuring env pcc g r'.1 := by
  induction is generalizing r with
  | nil =>
    obtain rfl := Except.ok.inj h
    exact hr
  | cons i is ih =>
    rw [List.foldlM_cons] at h
    obtain ⟨r₁, h₁, h⟩ := bind_eq_ok.mp h
    obtain ⟨x, hx, rfl⟩ := map_eq_ok.mp h₁
    have hnext := Measuring.activated hr (his i List.mem_cons_self) hx
    exact ih (fun j hj => his j (List.mem_cons_of_mem _ hj)) hnext h

/-- A text of whole lines, none of them a measure. -/
def NoMeasure (text : Bytes) : Prop := Lib.Ended isEol text ∧ ¬ Lib.Begins isEol (str "-->") text

theorem noMeasure_nil : NoMeasure [] := ⟨Lib.ended_nil, Lib.begins_nil (by decide)⟩

theorem NoMeasure.append {t u : Bytes} (ht : NoMeasure t) (hu : NoMeasure u) : NoMeasure (t ++ u) := by
  refine ⟨ht.1.append hu.1, ?_⟩
  have hword : NoEol (str "-->") := by decide
  rw [Lib.begins_append hword ht.1]
  exact not_or.mpr ⟨ht.2, hu.2⟩

theorem noMeasure_line {a : UInt8} {line : Bytes} (hline : NoEol line) (ha : line.head? = some a)
    (hne : 45 ≠ a) : NoMeasure (line ++ endl) :=
  ⟨ended_endl line, not_begins_line (w := str "-->") rfl (by decide) ha hne hline⟩

theorem noMeasure_endl : NoMeasure endl := by
  have hword : NoEol (str "-->") := by decide
  refine ⟨ended_endl [], fun h => ?_⟩
  have hbegins := (Lib.begins_concat (s := []) (c := 10) hword (by decide) noEol_nil (by decide)).mp h
  exact absurd hbegins (by decide)

/-- What `measure` needs of the state it is called from. -/
structure AtMeasure (blank ident : UInt8 → Bool) (g : Globals) : Prop where
  named : Named blank ident g
  out : ∀ pcc t, g.out pcc = some t → NoMeasure t

/-- A text that is no measure is written. -/
theorem AtMeasure.write (hg : AtMeasure blank ident g) (pcc : ConnId) {text : Bytes}
    (htext : NoMeasure text) :
    AtMeasure blank ident (g.write pcc text) where
  named := hg.named.of_sameSets (write_sameStores g pcc text).sameSets
  out pcc' t h := by
    rw [out_write] at h
    split at h
    case isTrue =>
      obtain ⟨t', ht', rfl⟩ := Option.map_eq_some_iff.mp h
      exact (hg.out pcc' t' ht').append htext
    case isFalse => exact hg.out pcc' t h

/-- A measure is told to the channels of its set. -/
theorem AtMeasure.measure (hg : AtMeasure blank ident g) {t : Int} {r : Entry × Globals}
    (h : g.measure env t prs = .ok r) : AtMeasure blank ident r.2 where
  named := hg.named.of_eq (measure_stores h).1.recordsets
  out pcc t hout := by
    obtain ⟨rs, -, -, htell⟩ := measure_tells h
    rcases (tell_texts htell).2.2.2 pcc with heq | heq
    · exact hg.out pcc t (heq ▸ hout)
    · obtain rfl := Option.some.inj (heq.symm.trans hout)
      exact noMeasure_nil

theorem AtMeasure.activateOne {i : Bytes} {r : Globals × Bool} (hg : AtMeasure blank ident g)
    (hi : NoEol i) (h : activateOne env pcc g i = .ok r) : AtMeasure blank ident r.1 := by
  obtain ⟨x, hx, rfl⟩ := map_eq_ok.mp h
  rcases activate_cases hx with ⟨-, rfl⟩ | ⟨prs, e, g₁, -, hm, rfl⟩
  · have hunknown : NoEol (str "unknown recordset " ++ quoted i) := by
      rw [noEol_append, noEol_quoted]
      exact ⟨by decide, hi⟩
    have hfailed : NoEol (str "activation of " ++ quoted i ++ str "failed.") := by
      simp only [noEol_append, noEol_quoted, hi]
      decide
    exact (hg.write pcc (noMeasure_line hunknown rfl (by decide))).write pcc
      (noMeasure_line hfailed rfl (by decide))
  · have htold : NoEol (str "RecordSet: " ++ quoted i ++ str " activated.") := by
      simp only [noEol_append, noEol_quoted, hi]
      decide
    have hmeasured := hg.measure hm
    have hscheduled : AtMeasure blank ident { g₁ with schedule := insertEntry e g₁.schedule } :=
      ⟨hmeasured.named.of_eq rfl, hmeasured.out⟩
    exact hscheduled.write pcc (noMeasure_line htold rfl (by decide))

/-- **Wherever `measure` is called, no text left to flush holds a measure.** -/
theorem Measuring.atMeasure (hg₀ : AtMeasure blank ident g₀) (h : Measuring env pcc g₀ g) :
    AtMeasure blank ident g := by
  induction h with
  | start => exact hg₀
  | rescheduled es _ ih => exact ⟨ih.named.of_eq rfl, ih.out⟩
  | measured _ hm ih => exact ih.measure hm
  | activated _ hi ha ih => exact ih.activateOne hi ha

theorem atMeasure_of_run (hS : S.Documented blank ident) {es : List Event}
    (h : Lib.run (step S B) boot es = some g) : AtMeasure blank ident g where
  named := named_of_run hS h
  out pcc t ht := by
    obtain rfl := (hushed_of_run h).2.out pcc t ht
    exact noMeasure_nil

/-! ## The record -/

/-- The texts flushed to a connection between two states. -/
def flushedTo (pcc : ConnId) (g g' : Globals) : List Bytes :=
  ((g'.sent.drop g.sent.length).filter fun x => x.1 = pcc).map Prod.snd

theorem flushedTo_of_sent {new : List (ConnId × Bytes)} (h : g'.sent = g.sent ++ new) :
    flushedTo pcc g g' = (new.filter fun x => x.1 = pcc).map Prod.snd := by
  rw [flushedTo, h, List.drop_left]

/-- One step of `tell`. -/
theorem tell_cons {text : Bytes} {pccs : List ConnId} {pcc₀ : ConnId}
    (h : g.tell text (pcc₀ :: pccs) = .ok g') :
    ∃ (t : Bytes) (g₁ : Globals), g.out pcc₀ = some t ∧
      g₁.sent = g.sent ++ [(pcc₀, t ++ (endl ++ text))] ∧
      (∀ pcc, pcc ≠ pcc₀ → g₁.out pcc = g.out pcc) ∧ g₁.tell text pccs = .ok g' := by
  rw [Globals.tell] at h
  split at h
  case isFalse => cases h
  case isTrue hlive =>
    obtain ⟨c, hc⟩ := Lib.OrdMap.contains_iff.mp hlive
    have hout : g.out pcc₀ = some c.out := by rw [Globals.out, hc]; rfl
    have hwritten : (g.write pcc₀ (endl ++ text)).out pcc₀ = some (c.out ++ (endl ++ text)) := by
      rw [out_write, if_pos rfl, hout]
      rfl
    refine ⟨c.out, (g.write pcc₀ (endl ++ text)).flush pcc₀, hout, sent_flush hwritten,
      fun pcc hne => ?_, h⟩
    rw [out_flush, if_neg hne, out_write, if_neg hne]

/-- A connection that is not a channel is told nothing. -/
theorem tell_others {text : Bytes} {pccs : List ConnId} (hpcc : pcc ∉ pccs)
    (h : g.tell text pccs = .ok g') :
    ∃ new, g'.sent = g.sent ++ new ∧ new.filter (fun x => x.1 = pcc) = [] := by
  induction pccs generalizing g with
  | nil =>
    obtain rfl := Except.ok.inj h
    exact ⟨[], (List.append_nil _).symm, rfl⟩
  | cons pcc₀ pccs ih =>
    obtain ⟨t, g₁, -, hsent, -, hrest⟩ := tell_cons h
    obtain ⟨new, hnew, hfilter⟩ := ih (fun hmem => hpcc (List.mem_cons_of_mem _ hmem)) hrest
    refine ⟨(pcc₀, t ++ (endl ++ text)) :: new, by simp [hnew, hsent], ?_⟩
    have hne : ¬ pcc₀ = pcc := fun heq => hpcc (heq ▸ List.mem_cons_self)
    rw [List.filter_cons, if_neg (by simpa using hne), hfilter]

/-- A channel is flushed what its `out` held and the text. -/
theorem tell_channel {text : Bytes} {pccs : List ConnId} (hnodup : pccs.Nodup) (hpcc : pcc ∈ pccs)
    (h : g.tell text pccs = .ok g') :
    ∃ t new, g.out pcc = some t ∧ g'.sent = g.sent ++ new ∧
      new.filter (fun x => x.1 = pcc) = [(pcc, t ++ (endl ++ text))] := by
  induction pccs generalizing g with
  | nil => exact absurd hpcc List.not_mem_nil
  | cons pcc₀ pccs ih =>
    obtain ⟨t, g₁, hout, hsent, hother, hrest⟩ := tell_cons h
    obtain ⟨hnot, hnodup⟩ := List.nodup_cons.mp hnodup
    by_cases heq : pcc = pcc₀
    · subst heq
      obtain ⟨new, hnew, hfilter⟩ := tell_others hnot hrest
      refine ⟨t, (pcc, t ++ (endl ++ text)) :: new, hout, by simp [hnew, hsent], ?_⟩
      rw [List.filter_cons, if_pos (by simp), hfilter]
    · obtain ⟨t', new, hout', hnew, hfilter⟩ := ih hnodup
        ((List.mem_cons.mp hpcc).resolve_left heq) hrest
      refine ⟨t', (pcc₀, t ++ (endl ++ text)) :: new, hother pcc heq ▸ hout',
        by simp [hnew, hsent], ?_⟩
      rw [List.filter_cons, if_neg (by simpa using fun h => heq h.symm), hfilter]

/-- `measure` flushes one record to each channel. -/
theorem measure_flushes {t : Int} {e : Entry} {rs : RecordSet} (h : g.measure env t prs = .ok (e, g'))
    (hr : g.recordsets.find? prs = some rs) (hch : rs.channels.contains pcc = true) :
    ∃ text, g.out pcc = some text ∧ flushedTo pcc g g' = [text ++ (endl ++ g.sample env rs)] := by
  obtain ⟨rs', hr', -, htell⟩ := measure_tells h
  obtain rfl := Option.some.inj (hr.symm.trans hr')
  obtain ⟨text, new, hout, hsent, hfilter⟩ := tell_channel rs.channels.keys_nodup
    (Lib.OrdMap.mem_keys_iff.mpr hch) htell
  exact ⟨text, hout, by rw [flushedTo_of_sent hsent, hfilter]; rfl⟩

/-! ## The lines of the record -/

/-- A text of whole lines, and a line behind it that is not empty, are read one after the
other. -/
theorem splitRecord_append {cur text line : Bytes} (hne : text ≠ []) (he : Lib.Ended isEol text)
    (hline : ∃ c cs, line = c :: cs ∧ isEol c = false) :
    splitRecord cur (text ++ line) = splitRecord cur text ++ splitRecord [] line := by
  obtain ⟨d, ds, rfl, hd⟩ := hline
  -- the line behind begins no pair with the text before it
  have hpair : ∀ c, isEolPair c d = false := by
    intro c
    rw [Bool.eq_false_iff]
    intro hp
    rw [(isEol_of_pair hp).2] at hd
    cases hd
  fun_induction splitRecord cur text with
  | case1 cur => exact absurd rfl hne
  | case2 cur c hc =>
    rw [List.singleton_append, splitRecord, if_pos hc, hpair, if_neg Bool.false_ne_true]
    rfl
  | case3 cur c hc => exact absurd (he c rfl) hc
  | case4 cur c e hc hp =>
    rw [List.cons_append, List.cons_append, List.nil_append, splitRecord, if_pos hc, if_pos hp]
    rfl
  | case5 cur c e rest hc hp hrest ih =>
    have hrest' : rest ++ d :: ds ≠ [] := by simp
    rw [List.cons_append, List.cons_append, splitRecord, if_pos hc, if_pos hp, if_neg hrest',
      ih hrest (Lib.Ended.of_append (s := [c, e]) he)]
    rfl
  | case6 cur c e rest hc hp ih =>
    rw [List.cons_append, List.cons_append, splitRecord, if_pos hc, if_neg hp, ← List.cons_append,
      ih (by simp) (Lib.Ended.of_append (s := [c]) he)]
    rfl
  | case7 cur c e rest hc ih =>
    rw [List.cons_append, List.cons_append, splitRecord, if_neg hc, ← List.cons_append,
      ih (by simp) (Lib.Ended.of_append (s := [c]) he)]

/-- One whole line is read as one line. -/
theorem splitRecord_line {cur line : Bytes} (hline : NoEol line) :
    splitRecord cur (line ++ endl) = [cur ++ line] := by
  induction line generalizing cur with
  | nil => simp [splitRecord, endl, isEol]
  | cons c cs ih =>
    obtain ⟨hc, hcs⟩ := noEol_cons.mp hline
    have hnext : splitRecord (cur ++ [c]) (cs ++ endl) = [cur ++ [c] ++ cs] := ih hcs
    rw [List.append_assoc, List.singleton_append] at hnext
    cases cs with
    | nil => simpa [endl, splitRecord, hc] using hnext
    | cons d ds => simpa [splitRecord, hc] using hnext

/-- The record of a set without its line end. -/
def sampleLine (g : Globals) (env : Env) (rs : RecordSet) : Bytes :=
  str "-->" ++ rs.name ++ str " " ++ decimal env.now ++
    (List.range rs.lmp.length).flatMap fun i => str ":" ++ env.measured g.sent.length i

/-- The values of a record, in the order of the measure points. -/
def values (g : Globals) (env : Env) (rs : RecordSet) : List Bytes :=
  (List.range rs.lmp.length).map (env.measured g.sent.length)

theorem sample_eq (g : Globals) (env : Env) (rs : RecordSet) :
    g.sample env rs = sampleLine g env rs ++ endl := rfl

theorem noEol_sampleLine {rs : RecordSet} (hname : NoEol rs.name)
    (hvalues : ∀ v ∈ values g env rs, NoEol v) : NoEol (sampleLine g env rs) := by
  have hpoints : NoEol ((List.range rs.lmp.length).flatMap fun i =>
      str ":" ++ env.measured g.sent.length i) := by
    intro c hc
    obtain ⟨i, hi, hc⟩ := List.mem_flatMap.mp hc
    have hv := hvalues _ (List.mem_map.mpr ⟨i, hi, rfl⟩)
    have hcolon : NoEol (str ":") := by decide
    exact noEol_append.mpr ⟨hcolon, hv⟩ c hc
  simp only [sampleLine, noEol_append, hname, noEol_decimal, hpoints]
  decide

/-- **The record is read as one measure line** behind lines that are none. -/
theorem splitRecord_measure {text line : Bytes} (htext : NoMeasure text) (hline : NoEol line)
    (hmeasure : isMeasure line = true) :
    ∃ quiet, splitRecord [] (text ++ (endl ++ (line ++ endl))) = quiet ++ [line] ∧
      ∀ l ∈ quiet, isMeasure l = false := by
  obtain ⟨rest, rfl⟩ := startsWith_iff.mp hmeasure
  have hstart : ∃ c cs, str "-->" ++ rest ++ endl = c :: cs ∧ isEol c = false :=
    ⟨45, str "->" ++ rest ++ endl, rfl, by decide⟩
  refine ⟨splitRecord [] (text ++ endl), ?_, fun l hl => ?_⟩
  · rw [← List.append_assoc, splitRecord_append (by simp [endl]) (ended_endl text) hstart,
      splitRecord_line hline]
    rfl
  · rw [Bool.eq_false_iff]
    intro hm
    have hword : NoEol (str "-->") := by decide
    have hbegins := (begins_splitRecord hword (by decide) noEol_nil).mp
      ⟨l, hl, startsWith_iff.mp hm⟩
    have hend : NoMeasure endl := noMeasure_endl
    exact (htext.append hend).2 hbegins

/-! ## The collector reads the record -/

section reading

variable {P : Crypt.Platform} {c c' : CollectingConn P}

/-- A connection reads lines, each at its time: what it does. -/
def readRecord (S : Scanners) :
    CollectingConn P → List (Int × Bytes) → Except Exn (CollectingConn P × List (Effect P))
  | c, [] => .ok (c, [])
  | c, l :: ls =>
    (c.lineread S l.1 l.2).bind fun r => (readRecord S r.1 ls).map fun r' => (r'.1, r.2 ++ r'.2)

/-- The updates of rrds: the file, and the update string (qicollect.cpp:157–161). -/
def updates (rrd_path : Bytes) (effs : List (Effect P)) : List (Bytes × Bytes) :=
  effs.filterMap fun
    | .rrd_update n t d => some (rrdFile rrd_path n, decimal t ++ str ":" ++ d)
    | _ => none

theorem updates_append (rrd_path : Bytes) (effs effs' : List (Effect P)) :
    updates rrd_path (effs ++ effs') = updates rrd_path effs ++ updates rrd_path effs' :=
  List.filterMap_append ..

/-- Silent effects update no file. -/
theorem updates_silent (rrd_path : Bytes) {effs : List (Effect P)} (h : Collect.Silent effs) :
    updates rrd_path effs = [] := by
  refine List.filterMap_eq_nil_iff.mpr fun x hx => ?_
  cases x with
  | rrd_update n t d => exact absurd rfl ((h _ hx).2 n t d)
  | flushed | command | session | received => rfl

/-- A connection that collects, with an rrd for a name and what is remembered of it. -/
structure Collecting (c : CollectingConn P) (n rrd_name : Bytes) (last : Option Int) : Prop where
  is_collecting : c.is_collecting = true
  rrd : rrdName c.mpcs n = rrd_name
  last : c.rrdlastupdate.find? rrd_name = last

variable {n rrd_name bufin : Bytes} {last : Option Int}

theorem Collecting.onLine (hc : Collecting c n rrd_name last) (bufin : Bytes) :
    Collecting (c.onLine bufin).1 n rrd_name last := by
  have hkeeps := Collect.onLine_keeps bufin c
  refine ⟨?_, (hkeeps.names n).trans hc.rrd, hkeeps.rrdlastupdate ▸ hc.last⟩
  rcases Collect.onLine_cases bufin c with
    ⟨text, st, k, h, -⟩ | ⟨-, h⟩ | ⟨-, -, mpcs, h, -⟩ | ⟨h, -⟩ <;> rw [h]
  · exact hc.is_collecting
  · exact hc.is_collecting
  · exact hc.is_collecting

/-- Behind a measure, if any, a line updates nothing. -/
theorem updates_onLine (rrd_path : Bytes) (effs : List (Effect P)) (now : Int) (collecting : Bool)
    (bufin : Bytes) (c : CollectingConn P) :
    updates rrd_path (.received bufin now collecting :: (effs ++ (c.onLine bufin).2))
      = updates rrd_path effs := by
  rw [← List.singleton_append, updates_append, updates_append,
    updates_silent rrd_path (Collect.onLine_keeps bufin c).silent, List.append_nil]
  rfl

/-- A line that is no measure updates nothing. -/
theorem lineread_quiet (S : Scanners) (rrd_path : Bytes) (hc : Collecting c n rrd_name last)
    (hq : isMeasure bufin = false) (now : Int) :
    ∃ r, c.lineread S now bufin = .ok r ∧ Collecting r.1 n rrd_name last ∧
      updates rrd_path r.2 = [] := by
  let d := { c with lastlineread := now }
  have hd : Collecting d n rrd_name last := ⟨hc.is_collecting, hc.rrd, hc.last⟩
  refine ⟨((d.onLine bufin).1, .received bufin now c.is_collecting :: ([] ++ (d.onLine bufin).2)), ?_,
    hd.onLine bufin, updates_onLine rrd_path [] now c.is_collecting bufin d⟩
  rw [CollectingConn.lineread]
  simp only [hq, Bool.and_false, Bool.false_eq_true, if_false]
  rfl

/-- Lines that are no measures update nothing. -/
theorem readRecord_quiet (S : Scanners) (rrd_path : Bytes) {lines : List (Int × Bytes)}
    (hq : ∀ l ∈ lines.map Prod.snd, isMeasure l = false) (hc : Collecting c n rrd_name last) :
    ∃ r, readRecord S c lines = .ok r ∧ Collecting r.1 n rrd_name last ∧
      updates rrd_path r.2 = [] := by
  induction lines generalizing c with
  | nil => exact ⟨(c, []), rfl, hc, rfl⟩
  | cons l ls ih =>
    obtain ⟨r, hr, hc₁, hnone⟩ := lineread_quiet S rrd_path hc
      (hq l.2 List.mem_cons_self) l.1
    obtain ⟨r', hr', hc₂, hnone'⟩ := ih (fun x hx => hq x (List.mem_cons_of_mem _ hx)) hc₁
    refine ⟨(r'.1, r.2 ++ r'.2), ?_, hc₂, by rw [updates_append, hnone, hnone']; rfl⟩
    rw [readRecord, hr]
    exact map_eq_ok.mpr ⟨r', hr', rfl⟩

theorem readRecord_append {ls ls' : List (Int × Bytes)} {r : CollectingConn P × List (Effect P)}
    (h : readRecord S c ls = .ok r) :
    readRecord S c (ls ++ ls') = (readRecord S r.1 ls').map fun r' => (r'.1, r.2 ++ r'.2) := by
  induction ls generalizing c r with
  | nil =>
    obtain rfl := Except.ok.inj h
    rw [List.nil_append]
    cases readRecord S c ls' <;> rfl
  | cons l ls ih =>
    rw [readRecord] at h
    obtain ⟨r₁, h₁, h⟩ := bind_eq_ok.mp h
    obtain ⟨r₂, h₂, rfl⟩ := map_eq_ok.mp h
    rw [List.cons_append, readRecord, h₁, Except.bind, ih h₂]
    cases readRecord S r₂.1 ls' with
    | error x => rfl
    | ok r' => simp only [Except.map, List.append_assoc]

/-- The line of a measure. -/
def measureText (n : Bytes) (stamp : Int) (vs : List Bytes) : Bytes :=
  str "-->" ++ n ++ str " " ++ decimal stamp ++ vs.flatMap fun v => str ":" ++ v

/-- The text of a measure is a measure line. -/
theorem isMeasure_measureText (n : Bytes) (stamp : Int) (vs : List Bytes) :
    isMeasure (measureText n stamp vs) = true := by
  refine startsWith_iff.mpr ⟨n ++ str " " ++ decimal stamp ++ vs.flatMap fun v => str ":" ++ v, ?_⟩
  simp [measureText]

theorem flatMap_colon {vs : List Bytes} (hvs : vs ≠ []) :
    (vs.flatMap fun v => str ":" ++ v) = str ":" ++ List.intercalate (str ":") vs := by
  induction vs with
  | nil => exact absurd rfl hvs
  | cons v vs ih =>
    cases vs with
    | nil => simp [List.intercalate]
    | cons w ws =>
      rw [List.flatMap_cons, ih (by simp)]
      simp [List.intercalate]

/-- **What a measure line is read as**: the name, the stamp, and the values behind. -/
theorem parseMeasure_measureText (hS : S.Documented blank ident) (hD : S.ReadsDigits blank)
    (hn : Identifier blank ident n) (mpcs : Collect.MpCS) {stamp : Nat} {now : Int} {vs : List Bytes}
    (hvs : vs ≠ []) (hstamp : stamp < 2 ^ 63) (hnow : (stamp : Int) ≤ now + 10)
    (hsize : (measureText n stamp vs).length < 2 ^ 64) :
    ∃ p, CollectingConn.parseMeasure S mpcs now (measureText n stamp vs)
        = (rrdName mpcs n, (stamp : Int), p) ∧
      substr (measureText n stamp vs) (addSize p 1) = .ok (List.intercalate (str ":") vs) := by
  set data := List.intercalate (str ":") vs with hdata
  have htext : measureText n stamp vs
      = str "-->" ++ ([] ++ (n ++ (str " " ++ decimal stamp ++ (str ":" ++ data)))) := by
    simp [measureText, flatMap_colon hvs, hdata]
  have htext' : measureText n stamp vs
      = (str "-->" ++ n ++ str " ") ++ ([] ++ (decimal stamp ++ (str ":" ++ data))) := by
    rw [htext]
    simp
  have hlen : (measureText n stamp vs).length
      = 3 + n.length + 1 + (decimal stamp).length + 1 + data.length := by
    rw [htext]
    simp [str]
    omega
  have hname : S.getidentifier (measureText n stamp vs) 3 = (n, 3 + n.length) := by
    have hrest : ∀ c, (str " " ++ decimal stamp ++ (str ":" ++ data)).head? = some c →
        ident c = false := fun c hc => Option.some.inj hc ▸ hS.space.2
    have h := getidentifier_at hS hn (str "-->") [] _ (fun _ h => (nomatch h)) hrest
    rw [← htext] at h
    simpa [str] using h
  have hpos : addSize (3 + n.length) 1 = (str "-->" ++ n ++ str " ").length := by
    rw [addSize, Nat.mod_eq_of_lt (by omega)]
    simp [str]
    omega
  have hint : S.getinteger (measureText n stamp vs) (addSize (3 + n.length) 1)
      = ((stamp : Int), 3 + n.length + 1 + (decimal stamp).length) := by
    have hrest : ∀ c, (str ":" ++ data).head? = some c → isDigit c = false :=
      fun c hc => Option.some.inj hc ▸ (by decide)
    have h := hD.getinteger_at (str "-->" ++ n ++ str " ") [] _ (fun _ h => (nomatch h))
      hstamp hrest
    rw [← htext', ← hpos] at h
    rw [h, if_neg (by simp [str]), addSize, Nat.mod_eq_of_lt (by omega)]
    rfl
  refine ⟨3 + n.length + 1 + (decimal stamp).length, ?_, ?_⟩
  · unfold CollectingConn.parseMeasure
    dsimp only
    rw [hname]
    dsimp only
    rw [hint, CollectingConn.correct, if_neg (by omega)]
  · rw [addSize, Nat.mod_eq_of_lt (by omega), substr_ok (by omega)]
    have hsplit : measureText n stamp vs
        = (str "-->" ++ n ++ str " " ++ decimal stamp ++ str ":") ++ data := by
      rw [htext]
      simp
    rw [hsplit]
    refine congrArg _ (List.drop_left' ?_)
    simp [str]
    omega

/-- A measure line updates the rrd of its name, once. -/
theorem lineread_measure (rrd_path : Bytes) (hS : S.Documented blank ident)
    (hD : S.ReadsDigits blank) (hn : Identifier blank ident n) (hc : Collecting c n rrd_name last)
    {stamp : Nat} {now : Int} {vs : List Bytes} (hvs : vs ≠ []) (hstamp : stamp < 2 ^ 63)
    (hnow : (stamp : Int) ≤ now + 10)
    (hlast : ∀ t, last = some t → t < stamp ∧ stamp - t < 2 ^ 63)
    (hsize : (measureText n stamp vs).length < 2 ^ 64) :
    ∃ r, c.lineread S now (measureText n stamp vs) = .ok r ∧
      updates rrd_path r.2
        = [(rrdFile rrd_path rrd_name, decimal stamp ++ str ":" ++ List.intercalate (str ":") vs)] := by
  obtain ⟨p, hparse, hdata⟩ := parseMeasure_measureText hS hD hn c.mpcs hvs hstamp hnow hsize
  have hmust : Collect.CollectingConn.mustrecorddata last stamp = .ok true := by
    cases last with
    | none => rfl
    | some t =>
      obtain ⟨hlt, hdiff⟩ := hlast t rfl
      rw [CollectingConn.mustrecorddata, CollectingConn.timeDiff, if_pos (by omega)]
      simp only [Except.map]
      split
      · rw [decide_eq_true (by omega)]
      · rfl
  let d := { c with lastlineread := now, rrdlastupdate := c.rrdlastupdate.insert rrd_name stamp }
  refine ⟨((d.onLine (measureText n stamp vs)).1,
    .received (measureText n stamp vs) now c.is_collecting ::
      ([.rrd_update rrd_name stamp (List.intercalate (str ":") vs)] ++
        (d.onLine (measureText n stamp vs)).2)), ?_, ?_⟩
  · have hline : ({ c with lastlineread := now } : CollectingConn P).measureLine S now
        (measureText n stamp vs)
        = .ok (d, [.rrd_update rrd_name stamp (List.intercalate (str ":") vs)]) := by
      unfold CollectingConn.measureLine
      dsimp only
      rw [hparse, hc.rrd]
      dsimp only
      rw [hc.last, hmust]
      simp only [Except.bind, if_true, hdata, Except.map]
      rfl
    have hcond : (c.is_collecting && isMeasure (measureText n stamp vs)) = true := by
      rw [hc.is_collecting, isMeasure_measureText]
      rfl
    rw [CollectingConn.lineread]
    dsimp only
    rw [if_pos hcond, hline]
    rfl
  · rw [updates_onLine]
    rfl

end reading

/-! ## The round trip -/

/-- **A measure makes one update**: wherever a qigong measures a set, the record it
flushes to a channel holds one measure line; and a connection that collects, and has a set
under that name as its full key, makes of the record one update of that set's rrd, the file
of its key under the path of the rrds, with the stamp and all the values. -/
theorem measure_round_trip (hS : S.Documented blank ident) (hD : S.ReadsDigits blank)
    (hident : ∀ c, ident c = true → isEol c = false) {es : List Event}
    (hrun : Lib.run (step S B) boot es = some g₀) {pcc₀ : ConnId} (hat : Measuring env pcc₀ g₀ g)
    {t : Int} {e : Entry} (h : g.measure env t prs = .ok (e, g')) {rs : RecordSet}
    (hr : g.recordsets.find? prs = some rs) (hch : rs.channels.contains pcc = true)
    (hvalues : ∀ v ∈ values g env rs, NoEol v) (hclock : 0 ≤ env.now ∧ env.now < 2 ^ 63)
    (hsize : (g.sample env rs).length < 2 ^ 64) :
    ∃ record, flushedTo pcc g g' = [record] ∧
      ((splitRecord [] record).filter isMeasure).length = 1 ∧
      ∀ (P : Crypt.Platform) (c : CollectingConn P) (s : CollectionSet) (rrd_path : Bytes)
        (lines : List (Int × Bytes)), c.is_collecting = true → c.mpcs.find? rs.name = some s →
        (∀ last, c.rrdlastupdate.find? s.key = some last →
          last < env.now ∧ env.now - last < 2 ^ 63) →
        lines.map Prod.snd = splitRecord [] record → (∀ l ∈ lines, env.now ≤ l.1 + 10) →
        ∃ r, readRecord S c lines = .ok r ∧
          updates rrd_path r.2 = [(rrd_path ++ str "/" ++ s.key ++ str ".rrd",
            decimal env.now ++ str ":" ++ List.intercalate (str ":") (values g env rs))] := by
  have hg := hat.atMeasure (atMeasure_of_run hS hrun)
  obtain ⟨hname, hlmp⟩ := hg.named prs rs hr
  obtain ⟨text, hout, hflushed⟩ := measure_flushes h hr hch
  have hne : values g env rs ≠ [] := by
    rw [values, ne_eq, List.map_eq_nil_iff, List.range_eq_nil, List.length_eq_zero_iff]
    exact hlmp
  -- the line of the record is the text the collector parses
  obtain ⟨stamp, hstamp⟩ := Int.eq_ofNat_of_zero_le hclock.1
  have hline : sampleLine g env rs = measureText rs.name stamp (values g env rs) := by
    rw [sampleLine, measureText, hstamp, values, List.flatMap_map]
  have hnoEol := noEol_sampleLine (fun c hc => hident c (hname.run c hc)) hvalues
  have hmeasure : isMeasure (sampleLine g env rs) = true := by
    rw [hline]
    exact isMeasure_measureText rs.name stamp _
  obtain ⟨quiet, hsplit, hquiet⟩ := splitRecord_measure (hg.out pcc text hout) hnoEol hmeasure
  refine ⟨text ++ (endl ++ g.sample env rs), hflushed, ?_, ?_⟩
  · rw [sample_eq, hsplit, List.filter_append, List.filter_eq_nil_iff.mpr (by simpa using hquiet)]
    simp [hmeasure]
  · intro P c s rrd_path lines hcoll hfind hlast hlines hnow
    rw [sample_eq, hsplit, hline] at hlines
    -- what was said before comes first, the measure last
    obtain ⟨ls, last, rfl, hls, hmap⟩ := List.map_eq_append_iff.mp hlines
    obtain ⟨l, rfl, hl⟩ := List.map_eq_singleton_iff.mp hmap
    have hc : Collecting c rs.name s.key (c.rrdlastupdate.find? s.key) :=
      ⟨hcoll, by rw [rrdName, hfind], rfl⟩
    obtain ⟨r, hread, hc', hnone⟩ := readRecord_quiet S rrd_path
      (hls ▸ hquiet) hc
    have hsize' : (measureText rs.name stamp (values g env rs)).length < 2 ^ 64 := by
      rw [sample_eq, hline, List.length_append] at hsize
      omega
    obtain ⟨r', hread', hone⟩ := lineread_measure rrd_path hS hD hname hc' hne
      (by omega) (hstamp ▸ hnow l (by simp)) (hstamp ▸ hlast) hsize'
    refine ⟨(r'.1, r.2 ++ (r'.2 ++ [])), ?_, ?_⟩
    · rw [readRecord_append hread, readRecord, hl, hread']
      rfl
    · rw [updates_append, List.append_nil, hnone, hone, hstamp]
      rfl

/-- The collector subscribes to the sample set. -/
def sampleSubscription : List Event :=
  sampleGreeting ++
    ["create web_load 60 load", "sub web_load"].map fun l => .line 0 sampleEnv (str l)

/-- A connection that collects the sample set. -/
def sampleCollecting : CollectingConn Collect.plainPlatform :=
  { (CollectingConn.construct 1000 Collect.plainSupplicant).assign Collect.sampleSet with
    is_collecting := true }

/-- A measure of the sample set. -/
theorem measure_round_trip_sample :
    ∃ g rs r record, Lib.run (step sampleScanners sampleBuild) boot sampleSubscription = some g ∧
      g.recordsets.find? 0 = some rs ∧ g.measure sampleEnv 1000 0 = .ok r ∧
      flushedTo 0 g r.2 = [record] ∧ ((splitRecord [] record).filter isMeasure).length = 1 ∧
      ∃ d, readRecord sampleScanners sampleCollecting
          ((splitRecord [] record).map fun l => (1000, l)) = .ok d ∧
        updates (str "/srv") d.2 = [(str "/srv/web_load.rrd",
          decimal 1000 ++ str ":" ++ List.intercalate (str ":") (values g sampleEnv rs))] := by
  have hany : (Lib.run (step sampleScanners sampleBuild) boot sampleSubscription).any (fun g =>
      (g.measure sampleEnv 1000 0).toBool && (g.recordsets.find? 0).any fun rs =>
        decide (rs.name = str "web_load") && rs.channels.contains 0 &&
          (values g sampleEnv rs).all (fun v => v.all fun c => !isEol c) &&
          decide ((g.sample sampleEnv rs).length < 2 ^ 64)) = true := by
    decide +kernel
  have hident : ∀ c, isIdent c = true → isEol c = false := by
    intro c hc
    rw [Bool.eq_false_iff]
    intro he
    simp only [isEol, Bool.or_eq_true, beq_iff_eq] at he
    rcases he with (rfl | rfl) | rfl <;> exact absurd hc (by decide)
  obtain ⟨g, hrun, hg⟩ := (Option.any_eq_true _ _).mp hany
  simp only [Bool.and_eq_true, decide_eq_true_eq, Option.any_eq_true] at hg
  obtain ⟨hok, rs, hr, ⟨⟨hname, hch⟩, hvalues⟩, hsize⟩ := hg
  have hvalues' : ∀ v ∈ values g sampleEnv rs, NoEol v := by
    simpa [NoEol, List.all_eq_true] using hvalues
  cases hm : g.measure sampleEnv 1000 0 with
  | error x => rw [hm] at hok; cases hok
  | ok r =>
    obtain ⟨record, hflushed, hone, hread⟩ := measure_round_trip sampleScanners_documented
      sampleScanners_readsDigits hident hrun (Measuring.start : Measuring sampleEnv 0 g g) hm hr hch
      hvalues' (by decide) hsize
    have hfind : sampleCollecting.mpcs.find? rs.name
        = some { Collect.sampleSet with state := .del_remote_for_create } := by
      rw [hname]
      exact Lib.OrdMap.find?_insert_self _ _ _
    have hnow : ∀ l ∈ (splitRecord [] record).map fun l => ((1000 : Int), l),
        sampleEnv.now ≤ l.1 + 10 := by
      intro l hl
      obtain ⟨x, -, rfl⟩ := List.mem_map.mp hl
      show (1000 : Int) ≤ 1000 + 10
      decide
    have hlines : ((splitRecord [] record).map fun l => ((1000 : Int), l)).map Prod.snd
        = splitRecord [] record := by
      rw [List.map_map]
      exact List.map_id _
    obtain ⟨d, hd, hupd⟩ := hread _ sampleCollecting _ (str "/srv")
      _ rfl hfind (fun _ h => by cases h) hlines hnow
    exact ⟨g, rs, r, record, hrun, hr, hm, hflushed, hone, d, hd, hupd⟩

end Qigong.Probe
