import Qigong.Probe.Touches

/-!
# Two runs that are alike to a connection

Two states are `Alike` to a connection when the names it may use lead to the same sets and
its `out` is the same, whatever the rest is. Its commands keep them alike: they fail
together, or flush the same texts (`Alike.command`).
-/

namespace Qigong.Probe

open Globals

variable {S : Scanners} {B : Build} {blank ident : UInt8 → Bool} {env env' : Env}
variable {A : ConnId} {mine : Bytes → Prop} {s t : List (ConnId × Bytes)} {g h g' h' : Globals}

/-- The states are alike to connection `A`, to which the names of `mine` belong. `s` and `t`
had been flushed when its line was begun. -/
structure Alike (A : ConnId) (mine : Bytes → Prop) (s t : List (ConnId × Bytes))
    (g h : Globals) : Prop where
  linked : Linked g ∧ Linked h
  view : ∀ n, mine n → g.view n = h.view n
  out : ∃ text, g.out A = some text ∧ h.out A = some text
  quiet : ∀ pcc, pcc ≠ A → ∀ text,
    (g.out pcc = some text → text = []) ∧ (h.out pcc = some text → text = [])
  sent : ∃ news, g.sent = s ++ news ∧ h.sent = t ++ news

theorem live_of_out {pcc : ConnId} {text : Bytes} (h : g.out pcc = some text) :
    ∃ m, g.subs pcc = some m := by
  obtain ⟨c, hc, -⟩ := Option.map_eq_some_iff.mp h
  exact ⟨c.subs, by rw [Globals.subs, hc]; rfl⟩

/-- The connection lives in both. -/
theorem Alike.live (ha : Alike A mine s t g h) :
    (∃ m, g.subs A = some m) ∧ ∃ m, h.subs A = some m := by
  obtain ⟨text, hg, hh⟩ := ha.out
  exact ⟨live_of_out hg, live_of_out hh⟩

/-- It is written the same text. -/
theorem Alike.write (ha : Alike A mine s t g h) (text : Bytes) :
    Alike A mine s t (g.write A text) (h.write A text) := by
  constructor
  case linked =>
    exact ⟨(write_sameStores g A text).linked ha.linked.1,
      (write_sameStores h A text).linked ha.linked.2⟩
  case view =>
    intro n hn
    rw [(write_sameStores g A text).view, (write_sameStores h A text).view]
    exact ha.view n hn
  case out =>
    obtain ⟨text', hg, hh⟩ := ha.out
    refine ⟨text' ++ text, ?_, ?_⟩
    · rw [out_write, if_pos rfl, hg]
      rfl
    · rw [out_write, if_pos rfl, hh]
      rfl
  case quiet =>
    intro pcc hne text'
    rw [out_write, if_neg hne, out_write, if_neg hne]
    exact ha.quiet pcc hne text'
  case sent => exact ha.sent

/-- One name leads to the same other set in both. -/
theorem Alike.resets {n : Bytes} {v : Option RecordSet} (ha : Alike A mine s t g h)
    (hg : Linked g' ∧ Resets g g' n v) (hh : Linked h' ∧ Resets h h' n v) :
    Alike A mine s t g' h' := by
  constructor
  case linked => exact ⟨hg.1, hh.1⟩
  case view =>
    intro n' hn'
    rw [hg.2.view, hh.2.view, Function.update_apply, Function.update_apply, ha.view n' hn']
  case out =>
    rw [hg.2.out, hh.2.out]
    exact ha.out
  case quiet =>
    intro pcc hne text
    rw [hg.2.out, hh.2.out]
    exact ha.quiet pcc hne text
  case sent =>
    rw [hg.2.sent, hh.2.sent]
    exact ha.sent

/-- An entry is scheduled in each, for a set of its own. -/
theorem Alike.reschedule {es fs : List Entry} (ha : Alike A mine s t g h)
    (hg : Linked { g with schedule := es }) (hh : Linked { h with schedule := fs }) :
    Alike A mine s t { g with schedule := es } { h with schedule := fs } :=
  ⟨⟨hg, hh⟩, ha.view, ha.out, ha.quiet, ha.sent⟩

/-! ## Records are told -/

/-- A connection that lives is written to and flushed, in both. -/
theorem Alike.send {pcc : ConnId} (ha : Alike A mine s t g h) (text : Bytes)
    (hg : g.conns.contains pcc = true) (hh : h.conns.contains pcc = true) :
    Alike A mine s t ((g.write pcc text).flush pcc) ((h.write pcc text).flush pcc) := by
  -- what is flushed is the same: only the `out` of the connection itself may hold a text
  obtain ⟨said, hgo, hho⟩ : ∃ said, g.out pcc = some said ∧ h.out pcc = some said := by
    by_cases hpcc : pcc = A
    · rw [hpcc]
      exact ha.out
    · obtain ⟨c, hc⟩ := Lib.OrdMap.contains_iff.mp hg
      obtain ⟨d, hd⟩ := Lib.OrdMap.contains_iff.mp hh
      have hgo : g.out pcc = some c.out := by rw [Globals.out, hc]; rfl
      have hho : h.out pcc = some d.out := by rw [Globals.out, hd]; rfl
      have hquiet := ha.quiet pcc hpcc
      exact ⟨[], by rw [hgo, (hquiet _).1 hgo], by rw [hho, (hquiet _).2 hho]⟩
  have hsend : ∀ {k : Globals}, k.out pcc = some said →
      ((k.write pcc text).flush pcc).sent = k.sent ++ [(pcc, said ++ text)] ∧
      ∀ pcc', ((k.write pcc text).flush pcc).out pcc'
        = if pcc' = pcc then some [] else k.out pcc' := by
    intro k hk
    have hw : (k.write pcc text).out pcc = some (said ++ text) := by
      rw [out_write, if_pos rfl, hk]
      rfl
    refine ⟨sent_flush hw, fun pcc' => ?_⟩
    rw [out_flush]
    split
    case isTrue heq => rw [heq, hw]; rfl
    case isFalse hne => rw [out_write, if_neg hne]
  have hsame : ∀ k : Globals, SameStores k ((k.write pcc text).flush pcc) :=
    fun k => (write_sameStores k pcc text).trans (flush_sameStores _ pcc)
  constructor
  case linked => exact ⟨(hsame g).linked ha.linked.1, (hsame h).linked ha.linked.2⟩
  case view =>
    intro n hn
    rw [(hsame g).view, (hsame h).view]
    exact ha.view n hn
  case out =>
    rw [(hsend hgo).2, (hsend hho).2]
    by_cases hA : A = pcc
    · exact ⟨[], if_pos hA, if_pos hA⟩
    · rw [if_neg hA, if_neg hA]
      exact ha.out
  case quiet =>
    intro pcc' hne text'
    rw [(hsend hgo).2, (hsend hho).2]
    split
    · exact ⟨fun h => (Option.some.inj h).symm, fun h => (Option.some.inj h).symm⟩
    · exact ha.quiet pcc' hne text'
  case sent =>
    obtain ⟨news, hgs, hhs⟩ := ha.sent
    refine ⟨news ++ [(pcc, said ++ text)], ?_, ?_⟩
    · rw [(hsend hgo).1, hgs, List.append_assoc]
    · rw [(hsend hho).1, hhs, List.append_assoc]

/-- A text told to live connections is told in both, or in none. -/
theorem Alike.tell {pccs : List ConnId} (ha : Alike A mine s t g h) (text : Bytes)
    (hg : ∀ pcc ∈ pccs, g.conns.contains pcc = true)
    (hh : ∀ pcc ∈ pccs, h.conns.contains pcc = true) :
    Lib.Lockstep (Alike A mine s t) (g.tell text pccs) (h.tell text pccs) := by
  induction pccs generalizing g h with
  | nil => exact .ok ha
  | cons pcc pccs ih =>
    have hgp := hg pcc List.mem_cons_self
    have hhp := hh pcc List.mem_cons_self
    rw [Globals.tell, Globals.tell, if_pos hgp, if_pos hhp]
    have hkeep : ∀ {k : Globals}, (∀ pcc' ∈ pcc :: pccs, k.conns.contains pcc' = true) →
        ∀ pcc' ∈ pccs,
          ((k.write pcc (endl ++ text)).flush pcc).conns.contains pcc' = true := by
      intro k hk pcc' hpcc'
      rw [live_iff, ((write_sameStores k pcc _).trans (flush_sameStores _ pcc)).subs]
      exact live_iff.mp (hk pcc' (List.mem_cons_of_mem _ hpcc'))
    exact ih (ha.send _ hgp hhp) (hkeep hg) (hkeep hh)

/-! ## Commands over identifiers -/

/-- The clock of a line, and what it reads: by the number of texts flushed since it was
begun. -/
def lineEnv (now : Int) (readings : Nat → Nat → Bytes) (s : List (ConnId × Bytes)) : Env :=
  ⟨now, fun n i => readings (n - s.length) i⟩

/-- Both took the same way, and the states are alike. -/
abbrev AlikeToo (A : ConnId) (mine : Bytes → Prop) (s t : List (ConnId × Bytes)) {α : Type}
    (x y : Globals × α) : Prop :=
  Alike A mine s t x.1 y.1 ∧ x.2 = y.2

/-- A set is sampled alike. -/
theorem Alike.sample (ha : Alike A mine s t g h) (now : Int) (readings : Nat → Nat → Bytes)
    (rs : RecordSet) :
    g.sample (lineEnv now readings s) rs = h.sample (lineEnv now readings t) rs := by
  obtain ⟨news, hg, hh⟩ := ha.sent
  have hnews : g.sent.length - s.length = h.sent.length - t.length := by
    rw [hg, hh, List.length_append, List.length_append]
    omega
  unfold Globals.sample lineEnv
  dsimp only
  rw [hnews]

/-- `delete` of a name of its own. -/
theorem Alike.deleteOne {i : Bytes} (ha : Alike A mine s t g h) (hi : mine i) :
    Lib.Lockstep (AlikeToo A mine s t) (deleteOne A g i) (deleteOne A h i) := by
  have hview := ha.view i hi
  unfold Globals.deleteOne
  cases hv : g.view i with
  | none =>
    rw [suppress_unknown ha.linked.1 A hv, suppress_unknown ha.linked.2 A (hview.symm.trans hv)]
    exact .ok ⟨(ha.write _).write _, rfl⟩
  | some rs =>
    by_cases hch : rs.channels.keys = []
    · obtain ⟨g', hg, hlg, hrg⟩ := suppress_deletes ha.linked.1 A hv hch
      obtain ⟨h', hh, hlh, hrh⟩ := suppress_deletes ha.linked.2 A (hview.symm.trans hv) hch
      rw [hg, hh]
      exact .ok ⟨(ha.resets ⟨hlg, hrg⟩ ⟨hlh, hrh⟩).write _, rfl⟩
    · rw [suppress_subscribed A hv hch, suppress_subscribed A (hview.symm.trans hv) hch]
      exact .error

/-- A registered set is measured in both: the readings are the same. -/
theorem Alike.activaterecordset {i : Bytes} (ha : Alike A mine s t g h) (hi : mine i) (now : Int)
    (readings : Nat → Nat → Bytes) :
    Lib.Lockstep (AlikeToo A mine s t)
      (g.activaterecordset (lineEnv now readings s) A i)
      (h.activaterecordset (lineEnv now readings t) A i) := by
  have hview := ha.view i hi
  cases hv : g.view i with
  | none =>
    rw [activate_unknown ha.linked.1 _ A hv, activate_unknown ha.linked.2 _ A (hview.symm.trans hv)]
    exact .ok ⟨ha.write _, rfl⟩
  | some rs =>
    have hv' := hview.symm.trans hv
    obtain ⟨prs, hr, hg⟩ := activate_measures (lineEnv now readings s) A hv
    obtain ⟨prs', hr', hh⟩ := activate_measures (lineEnv now readings t) A hv'
    rw [hg, hh, ha.sample]
    refine (Lib.Lockstep.refl (timeAdd now rs.interval)).bind fun next next' heq => ?_
    subst heq
    have htell := ha.tell (h.sample (lineEnv now readings t) rs)
      (fun _ => ha.linked.1.channel_lives hr) (fun _ => ha.linked.2.channel_lives hr')
    refine htell.and_eq.map fun g' h' ⟨ha', hg', hh'⟩ => ⟨?_, rfl⟩
    refine ha'.reschedule (ha'.linked.1.insertEntry ?_) (ha'.linked.2.insertEntry ?_)
    · exact ⟨rs, by rw [(tell_sameStores hg').recordsets]; exact hr⟩
    · exact ⟨rs, by rw [(tell_sameStores hh').recordsets]; exact hr'⟩

/-- `activate` of a name of its own, measured alike. -/
theorem Alike.activateOne {i : Bytes} (ha : Alike A mine s t g h) (hi : mine i) (now : Int)
    (readings : Nat → Nat → Bytes) :
    Lib.Lockstep (AlikeToo A mine s t)
      (activateOne (lineEnv now readings s) A g i) (activateOne (lineEnv now readings t) A h i) := by
  refine (ha.activaterecordset hi now readings).map fun x y ⟨ha', heq⟩ => ?_
  rw [heq]
  split
  · exact ⟨ha'.write _, rfl⟩
  · exact ⟨ha'.write _, rfl⟩

theorem Alike.subOne {i : Bytes} (ha : Alike A mine s t g h) (hi : mine i) (told : Bytes) :
    Lib.Lockstep (AlikeToo A mine s t) (subsOne add_subs told A g i)
      (subsOne add_subs told A h i) := by
  have hview := ha.view i hi
  unfold subsOne
  cases hv : g.view i with
  | none =>
    rw [ha.linked.1.view_eq_none_iff.mp hv,
      ha.linked.2.view_eq_none_iff.mp (hview.symm.trans hv)]
    exact .ok ⟨ha.write _, rfl⟩
  | some rs =>
    obtain ⟨prs, hn, hr⟩ := view_eq_some.mp hv
    obtain ⟨prs', hn', hr'⟩ := view_eq_some.mp (hview.symm.trans hv)
    obtain ⟨g', hg, hlg, hrg⟩ := add_subs_resets ha.linked.1 ha.live.1 hn hr
    obtain ⟨h', hh, hlh, hrh⟩ := add_subs_resets ha.linked.2 ha.live.2 hn' hr'
    rw [hn, hn']
    dsimp only
    rw [hg, hh]
    exact .ok ⟨(ha.resets ⟨hlg, hrg⟩ ⟨hlh, hrh⟩).write _, rfl⟩

theorem Alike.unsubOne {i : Bytes} (ha : Alike A mine s t g h) (hi : mine i) :
    Lib.Lockstep (AlikeToo A mine s t) (unsubOne A g i) (unsubOne A h i) := by
  have hview := ha.view i hi
  unfold Probe.unsubOne subsOne
  cases hv : g.view i with
  | none =>
    rw [ha.linked.1.view_eq_none_iff.mp hv,
      ha.linked.2.view_eq_none_iff.mp (hview.symm.trans hv)]
    exact .ok ⟨ha.write _, rfl⟩
  | some rs =>
    obtain ⟨prs, hn, hr⟩ := view_eq_some.mp hv
    obtain ⟨prs', hn', hr'⟩ := view_eq_some.mp (hview.symm.trans hv)
    rw [hn, hn']
    dsimp only
    cases hc : rs.channels.contains A with
    | true =>
      obtain ⟨g', hg, hlg, hrg⟩ := remove_subs_resets ha.linked.1 hn hr hc
      obtain ⟨h', hh, hlh, hrh⟩ := remove_subs_resets ha.linked.2 hn' hr' hc
      rw [hg, hh]
      exact .ok ⟨(ha.resets ⟨hlg, hrg⟩ ⟨hlh, hrh⟩).write _, rfl⟩
    | false =>
      rw [remove_subs_dangles ha.linked.1 hr hc, remove_subs_dangles ha.linked.2 hr' hc]
      exact .error

/-- **One identifier of a command**: the states stay alike. -/
theorem Alike.one {i : Bytes} (ha : Alike A mine s t g h) (hi : mine i) (a : Act) (now : Int)
    (readings : Nat → Nat → Bytes) :
    Lib.Lockstep (AlikeToo A mine s t)
      (a.one (lineEnv now readings s) A g i) (a.one (lineEnv now readings t) A h i) := by
  cases a with
  | delete => exact ha.deleteOne hi
  | activate => exact ha.activateOne hi now readings
  | sub => exact ha.subOne hi _
  | unsub => exact ha.unsubOne hi

/-! ## Commands -/

/-- Of the sets there are, a definition sees only whether its name is registered. -/
theorem createrecordset_congr (mmpcreators : MmpCreators) {m m' : Lib.OrdMap Bytes SetId} {d : Bytes}
    (h : m.contains (S.getidentifier d 0).1 = m'.contains (S.getidentifier d 0).1) :
    createrecordset S mmpcreators m d = createrecordset S mmpcreators m' d := by
  unfold createrecordset
  dsimp only
  rw [h]

/-- A name is taken where a set is seen under it. -/
theorem Linked.contains_view (hl : Linked g) (n : Bytes) :
    g.mrecordsets.contains n = (g.view n).isSome := by
  rw [Bool.eq_iff_iff, Lib.OrdMap.contains, Option.isSome_iff_ne_none, Option.isSome_iff_ne_none,
    ne_eq, ne_eq, hl.view_eq_none_iff]

/-- `create` under a name of its own. -/
theorem Alike.createCommand {bufin : Bytes} {p : Nat} (ha : Alike A mine s t g h) (B : Build)
    (hn : mine (S.getidentifier (bufin.drop p) 0).1) :
    Lib.Lockstep (Alike A mine s t) (g.createCommand S B A bufin p)
      (h.createCommand S B A bufin p) := by
  unfold Globals.createCommand
  refine (Lib.Lockstep.refl (substr bufin p)).and_eq.bind ?_
  rintro d d' ⟨rfl, hd, -⟩
  have hdrop : d = bufin.drop p := by
    unfold substr at hd
    split at hd
    · cases hd
    · exact (Except.ok.inj hd).symm
  have hview := ha.view _ hn
  rw [← hdrop] at hview
  have hregistered : g.mrecordsets.contains (S.getidentifier d 0).1
      = h.mrecordsets.contains (S.getidentifier d 0).1 := by
    rw [ha.linked.1.contains_view, ha.linked.2.contains_view, hview]
  rw [createrecordset_congr B.mmpcreators hregistered]
  refine (Lib.Lockstep.refl (createrecordset S B.mmpcreators h.mrecordsets d)).and_eq.map ?_
  rintro ⟨text, made⟩ r ⟨rfl, -, hmake⟩
  cases made with
  | none => exact ha.write _
  | some rs =>
    obtain ⟨hfree, hch, hmade⟩ := createrecordset_makes hmake
    have hfree' : g.mrecordsets.find? rs.name = none := by
      rw [← ha.linked.1.view_eq_none_iff, createrecordset_name hmake, hview,
        ha.linked.2.view_eq_none_iff, ← createrecordset_name hmake]
      exact hfree
    exact (ha.resets ⟨ha.linked.1.register hfree' hch hmade, ha.linked.1.register_resets rs⟩
      ⟨ha.linked.2.register hfree hch hmade, ha.linked.2.register_resets rs⟩).write _

theorem Alike.forget (ha : Alike A mine s t g h) :
    Alike A mine s t { g with prompt := [] } { h with prompt := [] } :=
  ⟨⟨(prompt_sameStores g []).linked ha.linked.1, (prompt_sameStores h []).linked ha.linked.2⟩,
    ha.view, ha.out, ha.quiet, ha.sent⟩

/-- **A command keeps the states alike**, if the names are the connection's own. -/
theorem Alike.run {f : Form} {bufin : Bytes} (ha : Alike A mine s t g h)
    (hf : f.Spelled S bufin) (hmine : ∀ n ∈ named S bufin, mine n) (B : Build) (now : Int)
    (readings : Nat → Nat → Bytes) :
    Lib.Lockstep (Alike A mine s t) (f.run S B (lineEnv now readings s) A bufin g)
      (f.run S B (lineEnv now readings t) A bufin h) := by
  cases f with
  | silent => exact .ok ha
  | tells text => exact .ok (ha.write text)
  | qiging => exact .ok (ha.write _).forget
  | create p =>
    rw [named_create hf] at hmine
    exact ha.createCommand B (hmine _ (List.mem_singleton.mpr rfl))
  | act a is missing =>
    rw [named_act hf] at hmine
    have hloop : Lib.Lockstep (AlikeToo A mine s t)
        (is.foldlM (counted (a.one (lineEnv now readings s) A)) (g, 0))
        (is.foldlM (counted (a.one (lineEnv now readings t) A)) (h, 0)) := by
      refine Lib.Lockstep.foldlM (fun i hi x y hxy => ?_) ⟨ha, rfl⟩
      refine (hxy.1.one (hmine i hi) a now readings).map fun x' y' h' => ⟨h'.1, ?_⟩
      rw [h'.2, hxy.2]
    refine hloop.map fun x y ⟨ha', heq⟩ => ?_
    rw [heq]
    split
    · exact (ha'.write _).write _
    · exact ha'.write _

end Qigong.Probe
