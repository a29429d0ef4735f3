import Qigong.Probe.CollectedConn

/-!
# The stores of a qigong agree

`mrecordsets`, `schedule`, the channels of the sets and the subscriptions of the
connections lead to one another by pointers. `Linked` says that they agree and lead to
objects that live. Every function that changes them keeps that, or ends the run; so it
holds in every state a qigong reaches (`linked_of_run`).
-/

namespace Qigong.Probe

open Globals

variable {S : Scanners} {B : Build} {env : Env} {g g' g'' : Globals} {pcc : ConnId} {prs : SetId}

namespace Globals

/-- The subscriptions of a connection that lives. -/
def subs (g : Globals) (pcc : ConnId) : Option (Lib.OrdMap SetId Int) :=
  (g.conns.find? pcc).map (·.subs)

/-- The text in the `out` of a connection that lives. -/
def out (g : Globals) (pcc : ConnId) : Option Bytes := (g.conns.find? pcc).map (·.out)

/-- The set is in the connection's `subs`. -/
def Subscribes (g : Globals) (pcc : ConnId) (prs : SetId) : Prop :=
  ∃ m, g.subs pcc = some m ∧ m.contains prs = true

/-- The connection is in the set's `channels`. -/
def HasChannel (g : Globals) (prs : SetId) (pcc : ConnId) : Prop :=
  ∃ rs, g.recordsets.find? prs = some rs ∧ rs.channels.contains pcc = true

end Globals

/-- What a set is, its channels apart. -/
def RecordSet.core (rs : RecordSet) : Bytes × Int × List MeasurePoint := (rs.name, rs.interval, rs.lmp)

/-- The stores agree, and what they lead to lives. -/
structure Linked (g : Globals) : Prop where
  registered : ∀ n prs, g.mrecordsets.find? n = some prs →
    ∃ rs, g.recordsets.find? prs = some rs ∧ rs.name = n
  owned : ∀ prs rs, g.recordsets.find? prs = some rs → g.mrecordsets.find? rs.name = some prs
  fresh : ∀ prs rs, g.recordsets.find? prs = some rs → prs < g.nextset
  made : ∀ prs rs, g.recordsets.find? prs = some rs → rs.lmp ≠ [] ∧ rs.interval ≠ 0
  scheduled : ∀ e ∈ g.schedule, ∃ rs, g.recordsets.find? e.2 = some rs
  channels : ∀ prs pcc, g.HasChannel prs pcc ↔ g.Subscribes pcc prs

/-! ## Changes of channels and subscriptions -/

/-- The sets are the same but for their channels. -/
structure SameSets (g g' : Globals) : Prop where
  nextset : g'.nextset = g.nextset
  mrecordsets : g'.mrecordsets = g.mrecordsets
  schedule : g'.schedule = g.schedule
  core : ∀ prs, (g'.recordsets.find? prs).map RecordSet.core
    = (g.recordsets.find? prs).map RecordSet.core

theorem SameSets.find {rs : RecordSet} (h : SameSets g g') (hr : g'.recordsets.find? prs = some rs) :
    ∃ rs', g.recordsets.find? prs = some rs' ∧ rs'.core = rs.core := by
  have hcore := h.core prs
  rw [hr, Option.map_some, eq_comm, Option.map_eq_some_iff] at hcore
  exact hcore

theorem SameSets.symm (h : SameSets g g') : SameSets g' g :=
  ⟨h.nextset.symm, h.mrecordsets.symm, h.schedule.symm, fun prs => (h.core prs).symm⟩

theorem SameSets.trans (h : SameSets g g') (h' : SameSets g' g'') : SameSets g g'' :=
  ⟨h'.nextset.trans h.nextset, h'.mrecordsets.trans h.mrecordsets, h'.schedule.trans h.schedule,
    fun prs => (h'.core prs).trans (h.core prs)⟩

/-- Where the sets are the same, only channels and subscriptions can disagree. -/
theorem Linked.of_sameSets (hl : Linked g) (h : SameSets g g')
    (hc : ∀ prs pcc, g'.HasChannel prs pcc ↔ g'.Subscribes pcc prs) : Linked g' where
  registered n prs hn := by
    rw [h.mrecordsets] at hn
    obtain ⟨rs, hr, rfl⟩ := hl.registered n prs hn
    obtain ⟨rs', hr', hcore⟩ := h.symm.find hr
    exact ⟨rs', hr', congrArg (·.1) hcore⟩
  owned prs rs hr := by
    obtain ⟨rs', hr', hcore⟩ := h.find hr
    rw [h.mrecordsets, ← show rs'.name = rs.name from congrArg (·.1) hcore]
    exact hl.owned prs rs' hr'
  fresh prs rs hr := by
    obtain ⟨rs', hr', -⟩ := h.find hr
    rw [h.nextset]
    exact hl.fresh prs rs' hr'
  made prs rs hr := by
    obtain ⟨rs', hr', hcore⟩ := h.find hr
    rw [← show rs'.interval = rs.interval from congrArg (·.2.1) hcore,
      ← show rs'.lmp = rs.lmp from congrArg (·.2.2) hcore]
    exact hl.made prs rs' hr'
  scheduled e he := by
    rw [h.schedule] at he
    obtain ⟨rs, hr⟩ := hl.scheduled e he
    obtain ⟨rs', hr', -⟩ := h.symm.find hr
    exact ⟨rs', hr'⟩
  channels := hc

/-- The stores are the same: texts apart. -/
structure SameStores (g g' : Globals) : Prop where
  recordsets : g'.recordsets = g.recordsets
  nextset : g'.nextset = g.nextset
  mrecordsets : g'.mrecordsets = g.mrecordsets
  schedule : g'.schedule = g.schedule
  subs : ∀ pcc, g'.subs pcc = g.subs pcc

theorem SameStores.refl (g : Globals) : SameStores g g := ⟨rfl, rfl, rfl, rfl, fun _ => rfl⟩

theorem SameStores.trans (h : SameStores g g') (h' : SameStores g' g'') : SameStores g g'' :=
  ⟨h'.recordsets.trans h.recordsets, h'.nextset.trans h.nextset, h'.mrecordsets.trans h.mrecordsets,
    h'.schedule.trans h.schedule, fun pcc => (h'.subs pcc).trans (h.subs pcc)⟩

theorem SameStores.sameSets (h : SameStores g g') : SameSets g g' :=
  ⟨h.nextset, h.mrecordsets, h.schedule, fun prs => by rw [h.recordsets]⟩

theorem SameStores.linked (h : SameStores g g') (hl : Linked g) : Linked g' := by
  refine hl.of_sameSets h.sameSets fun prs pcc => ?_
  unfold HasChannel Subscribes
  rw [h.recordsets, h.subs]
  exact hl.channels prs pcc

theorem subs_modify (g : Globals) (pcc pcc' : ConnId) {f : CollectedConn → CollectedConn}
    (hf : ∀ c, (f c).subs = c.subs) :
    ({ g with conns := g.conns.modify pcc f } : Globals).subs pcc' = g.subs pcc' := by
  unfold Globals.subs
  rw [Lib.OrdMap.find?_modify, Option.map_map]
  refine congrArg (Option.map · _) (funext fun c => ?_)
  show (if pcc' = pcc then f c else c).subs = c.subs
  split
  · exact hf c
  · rfl

theorem write_sameStores (g : Globals) (pcc : ConnId) (text : Bytes) :
    SameStores g (g.write pcc text) :=
  ⟨rfl, rfl, rfl, rfl, fun pcc' => subs_modify g pcc pcc' fun _ => rfl⟩

theorem flush_sameStores (g : Globals) (pcc : ConnId) : SameStores g (g.flush pcc) := by
  unfold Globals.flush
  cases g.conns.find? pcc with
  | none => exact .refl g
  | some c => exact ⟨rfl, rfl, rfl, rfl, fun pcc' => subs_modify g pcc pcc' fun _ => rfl⟩

theorem writePrompt_sameStores (g : Globals) (pcc : ConnId) : SameStores g (g.writePrompt pcc) :=
  ⟨rfl, rfl, rfl, rfl, fun pcc' => subs_modify g pcc pcc' fun _ => rfl⟩

theorem prompt_sameStores (g : Globals) (prompt : Bytes) :
    SameStores g { g with prompt := prompt } := ⟨rfl, rfl, rfl, rfl, fun _ => rfl⟩

theorem endLine_sameStores (g : Globals) (pcc : ConnId) : SameStores g (g.endLine pcc) := by
  unfold Globals.endLine
  split
  · exact flush_sameStores g pcc
  · exact (writePrompt_sameStores g pcc).trans (flush_sameStores _ pcc)

theorem tell_sameStores {text : Bytes} {pccs : List ConnId} (h : g.tell text pccs = .ok g') :
    SameStores g g' := by
  induction pccs generalizing g with
  | nil =>
    obtain rfl := Except.ok.inj h
    exact .refl g
  | cons pcc pccs ih =>
    rw [Globals.tell] at h
    split at h
    · exact ((write_sameStores g pcc _).trans (flush_sameStores _ pcc)).trans (ih h)
    · cases h

/-! ## Sets made and deleted -/

/-- A set just made is registered: its name is free, and it has no channel yet. -/
theorem Linked.register {rs : RecordSet} (hl : Linked g)
    (hname : g.mrecordsets.find? rs.name = none) (hch : rs.channels = .empty)
    (hmade : rs.lmp ≠ [] ∧ rs.interval ≠ 0) : Linked (g.register rs) := by
  have hfind : ∀ prs, (g.register rs).recordsets.find? prs
      = if prs = g.nextset then some rs else g.recordsets.find? prs :=
    fun prs => Lib.OrdMap.find?_insert ..
  have hold : ∀ {prs rs'}, g.recordsets.find? prs = some rs' →
      (g.register rs).recordsets.find? prs = some rs' := by
    intro prs rs' hr
    rw [hfind, if_neg (ne_of_lt (hl.fresh prs rs' hr))]
    exact hr
  -- a set found is the new one or an old one
  have hcases : ∀ {prs rs'}, (g.register rs).recordsets.find? prs = some rs' →
      (prs = g.nextset ∧ rs' = rs) ∨ g.recordsets.find? prs = some rs' := by
    intro prs rs' hr
    rw [hfind] at hr
    split at hr
    case isTrue heq => exact .inl ⟨heq, (Option.some.inj hr).symm⟩
    case isFalse => exact .inr hr
  constructor
  case registered =>
    intro n prs hn
    rw [show (g.register rs).mrecordsets = g.mrecordsets.insert rs.name g.nextset from rfl,
      Lib.OrdMap.find?_insert] at hn
    split at hn
    case isTrue heq =>
      obtain rfl := Option.some.inj hn
      exact ⟨rs, by rw [hfind, if_pos rfl], heq.symm⟩
    case isFalse =>
      obtain ⟨rs', hr, hrn⟩ := hl.registered n prs hn
      exact ⟨rs', hold hr, hrn⟩
  case owned =>
    intro prs rs' hr
    show (g.mrecordsets.insert rs.name g.nextset).find? rs'.name = some prs
    rcases hcases hr with ⟨rfl, rfl⟩ | hr
    · exact Lib.OrdMap.find?_insert_self ..
    · have hn := hl.owned prs rs' hr
      rw [Lib.OrdMap.find?_insert, if_neg]
      · exact hn
      · intro heq
        rw [heq, hname] at hn
        cases hn
  case fresh =>
    intro prs rs' hr
    rcases hcases hr with ⟨rfl, -⟩ | hr
    · exact Nat.lt_succ_self _
    · exact Nat.lt_succ_of_lt (hl.fresh prs rs' hr)
  case made =>
    intro prs rs' hr
    rcases hcases hr with ⟨-, rfl⟩ | hr
    · exact hmade
    · exact hl.made prs rs' hr
  case scheduled =>
    intro e he
    obtain ⟨rs', hr⟩ := hl.scheduled e he
    exact ⟨rs', hold hr⟩
  case channels =>
    intro prs pcc
    show (g.register rs).HasChannel prs pcc ↔ g.Subscribes pcc prs
    rw [← hl.channels]
    constructor
    · rintro ⟨rs', hr, hc⟩
      rcases hcases hr with ⟨-, rfl⟩ | hr
      · rw [hch] at hc
        cases hc
      · exact ⟨rs', hr, hc⟩
    · rintro ⟨rs', hr, hc⟩
      exact ⟨rs', hold hr, hc⟩

/-- A set without channels is deleted, with its entries. -/
theorem Linked.delete {ident : Bytes} {rs : RecordSet} (hl : Linked g)
    (hn : g.mrecordsets.find? ident = some prs) (hr : g.recordsets.find? prs = some rs)
    (hch : rs.channels.keys = []) :
    Linked { g with schedule := g.schedule.filter fun e => e.2 ≠ prs,
                    mrecordsets := g.mrecordsets.erase ident,
                    recordsets := g.recordsets.erase prs } := by
  have hname : rs.name = ident := by
    obtain ⟨rs', hr', hname⟩ := hl.registered ident prs hn
    rw [hr] at hr'
    rwa [Option.some.inj hr']
  have hfind : ∀ {prs' rs'}, (g.recordsets.erase prs).find? prs' = some rs' ↔
      prs' ≠ prs ∧ g.recordsets.find? prs' = some rs' := by
    intro prs' rs'
    rw [Lib.OrdMap.find?_erase]
    split
    case isTrue h => exact ⟨fun hx => (nomatch hx), fun hx => absurd h hx.1⟩
    case isFalse h => exact ⟨fun hx => ⟨h, hx⟩, fun hx => hx.2⟩
  constructor
  case registered =>
    intro n prs' hn'
    rw [Lib.OrdMap.find?_erase] at hn'
    split at hn'
    case isTrue => cases hn'
    case isFalse hne =>
      obtain ⟨rs', hr', hname'⟩ := hl.registered n prs' hn'
      refine ⟨rs', hfind.mpr ⟨?_, hr'⟩, hname'⟩
      rintro rfl
      rw [hr] at hr'
      exact hne (hname' ▸ (Option.some.inj hr' ▸ hname))
  case owned =>
    intro prs' rs' hr'
    obtain ⟨hne, hr'⟩ := hfind.mp hr'
    have hn' := hl.owned prs' rs' hr'
    rw [Lib.OrdMap.find?_erase, if_neg]
    · exact hn'
    · intro heq
      rw [heq, hn] at hn'
      exact hne (Option.some.inj hn').symm
  case fresh => exact fun prs' rs' hr' => hl.fresh prs' rs' (hfind.mp hr').2
  case made => exact fun prs' rs' hr' => hl.made prs' rs' (hfind.mp hr').2
  case scheduled =>
    intro e he
    obtain ⟨he, hne⟩ := List.mem_filter.mp he
    obtain ⟨rs', hr'⟩ := hl.scheduled e he
    exact ⟨rs', hfind.mpr ⟨by simpa using hne, hr'⟩⟩
  case channels =>
    -- a set without channels is in no subscription
    intro prs' pcc
    show _ ↔ g.Subscribes pcc prs'
    rw [← hl.channels]
    constructor
    · rintro ⟨rs', hr', hc⟩
      exact ⟨rs', (hfind.mp hr').2, hc⟩
    · rintro ⟨rs', hr', hc⟩
      refine ⟨rs', hfind.mpr ⟨?_, hr'⟩, hc⟩
      rintro rfl
      rw [hr] at hr'
      rw [← Option.some.inj hr', ← Lib.OrdMap.mem_keys_iff, hch] at hc
      cases hc

/-- The schedule may lead to whatever lives. -/
theorem Linked.reschedule {es : List Entry} (hl : Linked g)
    (hes : ∀ e ∈ es, ∃ rs, g.recordsets.find? e.2 = some rs) :
    Linked { g with schedule := es } :=
  ⟨hl.registered, hl.owned, hl.fresh, hl.made, hes, hl.channels⟩

/-! ## Channels and subscriptions -/

/-- Channels of one set changed. -/
theorem hasChannel_modify {f : Lib.OrdMap ConnId Int → Lib.OrdMap ConnId Int} {prs' : SetId}
    {pcc' : ConnId} {m : Lib.OrdMap ConnId CollectedConn} :
    ({ g with conns := m, recordsets := g.recordsets.modify prs fun rs =>
        { rs with channels := f rs.channels } } : Globals).HasChannel prs' pcc' ↔
      ∃ rs, g.recordsets.find? prs' = some rs ∧
        (if prs' = prs then f rs.channels else rs.channels).contains pcc' = true := by
  unfold HasChannel
  dsimp only
  rw [Lib.OrdMap.find?_modify]
  constructor
  · rintro ⟨rs, hr, hc⟩
    obtain ⟨rs', hr', rfl⟩ := Option.map_eq_some_iff.mp hr
    refine ⟨rs', hr', ?_⟩
    split <;> rename_i heq <;> simpa only [heq, if_true, if_false] using hc
  · rintro ⟨rs, hr, hc⟩
    rw [hr]
    refine ⟨_, rfl, ?_⟩
    split <;> rename_i heq <;> simpa only [heq, if_true, if_false] using hc

/-- Subscriptions of one connection changed. -/
theorem subscribes_modify {f : Lib.OrdMap SetId Int → Lib.OrdMap SetId Int} {prs' : SetId}
    {pcc' : ConnId} {m : Lib.OrdMap SetId RecordSet} :
    ({ g with recordsets := m, conns := g.conns.modify pcc fun c =>
        { c with subs := f c.subs } } : Globals).Subscribes pcc' prs' ↔
      ∃ m, g.subs pcc' = some m ∧ (if pcc' = pcc then f m else m).contains prs' = true := by
  unfold Subscribes Globals.subs
  dsimp only
  rw [Lib.OrdMap.find?_modify, Option.map_map]
  cases g.conns.find? pcc' with
  | none => exact ⟨fun ⟨_, h, _⟩ => (nomatch h), fun ⟨_, h, _⟩ => (nomatch h)⟩
  | some c =>
    simp only [Option.map_some, Function.comp, Option.some.injEq, exists_eq_left']
    split <;> exact Iff.rfl

theorem modify_sameSets {prs : SetId} {f : Lib.OrdMap ConnId Int → Lib.OrdMap ConnId Int}
    {m : Lib.OrdMap ConnId CollectedConn} :
    SameSets g { g with conns := m, recordsets := g.recordsets.modify prs fun rs =>
      { rs with channels := f rs.channels } } := by
  refine ⟨rfl, rfl, rfl, fun prs' => ?_⟩
  dsimp only
  rw [Lib.OrdMap.find?_modify, Option.map_map]
  refine congrArg (Option.map · _) (funext fun rs => ?_)
  show (if prs' = prs then { rs with channels := f rs.channels } else rs : RecordSet).core = rs.core
  split <;> rfl

/-- Joining a set is noted on both sides. -/
theorem add_subs_eq (h : g.add_subs pcc prs = .ok g') :
    (∃ rs, g.recordsets.find? prs = some rs) ∧
      g' = { g with conns := g.conns.modify pcc fun c => { c with subs := c.subs.insert prs 1 },
                    recordsets := g.recordsets.modify prs fun rs =>
                      { rs with channels := rs.channels.insert pcc 1 } } := by
  unfold Globals.add_subs Globals.add_channel at h
  split at h
  case isFalse => cases h
  case isTrue hset => exact ⟨Lib.OrdMap.contains_iff.mp hset, (Except.ok.inj h).symm⟩

/-- A set forgets a connection. -/
theorem remove_channel_eq (h : g.remove_channel prs pcc = .ok g') :
    g' = { g with recordsets := g.recordsets.modify prs fun rs =>
      { rs with channels := rs.channels.erase pcc } } := by
  unfold Globals.remove_channel at h
  split at h
  case isFalse => cases h
  case isTrue => exact (Except.ok.inj h).symm

/-- Leaving a set is noted on both sides. -/
theorem remove_subs_eq (h : g.remove_subs pcc prs = .ok g') :
    g' = { g with conns := g.conns.modify pcc fun c => { c with subs := c.subs.erase prs },
                  recordsets := g.recordsets.modify prs fun rs =>
                    { rs with channels := rs.channels.erase pcc } } := by
  unfold Globals.remove_subs at h
  split at h
  case isFalse => cases h
  case isTrue => exact remove_channel_eq h

/-- The channels of a set change at one connection, and the subscriptions of that
connection at the set: the two must agree there. -/
theorem Linked.relink {f : Lib.OrdMap ConnId Int → Lib.OrdMap ConnId Int}
    {k : Lib.OrdMap SetId Int → Lib.OrdMap SetId Int} (hl : Linked g)
    (hf : ∀ m pcc', pcc' ≠ pcc → ((f m).contains pcc' = true ↔ m.contains pcc' = true))
    (hk : ∀ m prs', prs' ≠ prs → ((k m).contains prs' = true ↔ m.contains prs' = true))
    (hboth : (∃ rs, g.recordsets.find? prs = some rs ∧ (f rs.channels).contains pcc = true) ↔
      ∃ m, g.subs pcc = some m ∧ (k m).contains prs = true) :
    Linked { g with conns := g.conns.modify pcc fun c => { c with subs := k c.subs },
                    recordsets := g.recordsets.modify prs fun rs =>
                      { rs with channels := f rs.channels } } := by
  refine hl.of_sameSets modify_sameSets fun prs' pcc' => ?_
  rw [hasChannel_modify, subscribes_modify]
  by_cases hat : prs' = prs ∧ pcc' = pcc
  · obtain ⟨rfl, rfl⟩ := hat
    simpa only [if_true] using hboth
  · have hchan : ∀ rs : RecordSet,
        (if prs' = prs then f rs.channels else rs.channels).contains pcc' = true ↔
          rs.channels.contains pcc' = true := by
      intro rs
      split
      case isTrue heq => exact hf _ _ fun hx => hat ⟨heq, hx⟩
      case isFalse => exact Iff.rfl
    have hsub : ∀ m : Lib.OrdMap SetId Int,
        (if pcc' = pcc then k m else m).contains prs' = true ↔ m.contains prs' = true := by
      intro m
      split
      case isTrue heq => exact hk _ _ fun hx => hat ⟨hx, heq⟩
      case isFalse => exact Iff.rfl
    simp only [hchan, hsub]
    exact hl.channels prs' pcc'

/-- A connection that lives subscribes to a set that lives. -/
theorem Linked.add_subs (hl : Linked g) (hlive : ∃ m, g.subs pcc = some m)
    (h : g.add_subs pcc prs = .ok g') : Linked g' := by
  obtain ⟨⟨rs, hr⟩, rfl⟩ := add_subs_eq h
  obtain ⟨m, hm⟩ := hlive
  refine hl.relink (f := fun m => m.insert pcc 1) (k := fun m => m.insert prs 1) ?_ ?_ ?_
  · exact fun m pcc' hne => Lib.OrdMap.contains_insert.trans (or_iff_right hne)
  · exact fun m prs' hne => Lib.OrdMap.contains_insert.trans (or_iff_right hne)
  · exact iff_of_true ⟨rs, hr, Lib.OrdMap.contains_insert.mpr (.inl rfl)⟩
      ⟨m, hm, Lib.OrdMap.contains_insert.mpr (.inl rfl)⟩

/-- A connection leaves a set it subscribes to. -/
theorem Linked.remove_subs (hl : Linked g) (h : g.remove_subs pcc prs = .ok g') : Linked g' := by
  obtain rfl := remove_subs_eq h
  refine hl.relink (f := fun m => m.erase pcc) (k := fun m => m.erase prs) ?_ ?_ ?_
  · exact fun m pcc' hne => Lib.OrdMap.contains_erase.trans (and_iff_right hne)
  · exact fun m prs' hne => Lib.OrdMap.contains_erase.trans (and_iff_right hne)
  · exact iff_of_false (fun ⟨_, _, h⟩ => (Lib.OrdMap.contains_erase.mp h).1 rfl)
      fun ⟨_, _, h⟩ => (Lib.OrdMap.contains_erase.mp h).1 rfl

/-! ## Connections come and go -/

/-- A new connection has no set yet. -/
theorem Linked.connect {h : Option Hostname} (hl : Linked g) (hnew : g.conns.contains pcc = false) :
    Linked (g.connect pcc h) := by
  refine hl.of_sameSets ⟨rfl, rfl, rfl, fun _ => rfl⟩ fun prs pcc' => ?_
  show g.HasChannel prs pcc' ↔ _
  rw [hl.channels]
  have hsubs : (g.connect pcc h).subs pcc' = if pcc' = pcc then some .empty else g.subs pcc' := by
    unfold Globals.subs Globals.connect
    dsimp only
    rw [Lib.OrdMap.find?_insert]
    split <;> rfl
  unfold Subscribes
  rw [hsubs]
  split
  case isFalse => exact Iff.rfl
  case isTrue heq =>
    -- a connection that does not live, or just lives, subscribes to nothing
    have hnone : g.subs pcc' = none := by
      rw [heq, Globals.subs, Option.map_eq_none_iff]
      simpa [Lib.OrdMap.contains] using hnew
    rw [hnone]
    constructor
    · rintro ⟨m, hm, -⟩
      cases hm
    · rintro ⟨m, hm, hc⟩
      rw [← Option.some.inj hm] at hc
      cases hc

/-- The loop of the destructor takes the connection out of the channels of those sets, and
does nothing else. -/
theorem foldlM_remove_channel {l : List SetId}
    (h : l.foldlM (fun (g : Globals) prs => g.remove_channel prs pcc) g = .ok g') :
    SameSets g g' ∧ (g'.conns = g.conns ∧ g'.prompt = g.prompt ∧ g'.hostname = g.hostname) ∧
      ∀ prs pcc', g'.HasChannel prs pcc' ↔ g.HasChannel prs pcc' ∧ ¬ (prs ∈ l ∧ pcc' = pcc) := by
  induction l generalizing g with
  | nil =>
    obtain rfl := Except.ok.inj h
    exact ⟨⟨rfl, rfl, rfl, fun _ => rfl⟩, ⟨rfl, rfl, rfl⟩, fun _ _ => by simp⟩
  | cons prs₀ l ih =>
    rw [List.foldlM_cons] at h
    cases hg : g.remove_channel prs₀ pcc with
    | error x => rw [hg] at h; cases h
    | ok g₁ =>
      rw [hg] at h
      obtain ⟨hsame, hrest, hchan⟩ := ih h
      obtain rfl := remove_channel_eq hg
      refine ⟨(modify_sameSets (f := fun m => m.erase pcc)).trans hsame, hrest, fun prs pcc' => ?_⟩
      rw [hchan, hasChannel_modify (f := fun m => m.erase pcc)]
      by_cases hat : prs = prs₀ ∧ pcc' = pcc
      · obtain ⟨rfl, rfl⟩ := hat
        refine iff_of_false ?_ fun h => h.2 ⟨List.mem_cons_self, rfl⟩
        rintro ⟨⟨rs, -, hc⟩, -⟩
        rw [if_pos rfl] at hc
        exact (Lib.OrdMap.contains_erase.mp hc).1 rfl
      · have hold : (∃ rs, g.recordsets.find? prs = some rs ∧
            (if prs = prs₀ then rs.channels.erase pcc else rs.channels).contains pcc' = true) ↔
              g.HasChannel prs pcc' := by
          refine exists_congr fun rs => and_congr_right fun _ => ?_
          split
          case isTrue heq =>
            exact Lib.OrdMap.contains_erase.trans (and_iff_right fun hx => hat ⟨heq, hx⟩)
          case isFalse => exact Iff.rfl
        rw [hold, List.mem_cons]
        refine and_congr_right fun _ => not_congr (and_congr_left fun hp => ?_)
        exact (or_iff_right fun hx => hat ⟨hx, hp⟩).symm

/-- The destructor leaves the sets as they are, their channels apart. -/
theorem destroy_sameSets (h : g.destroy pcc = .ok g') : SameSets g g' := by
  unfold Globals.destroy at h
  cases hc : g.conns.find? pcc with
  | none => rw [hc] at h; cases h
  | some c =>
    rw [hc] at h
    obtain ⟨g₁, hg, rfl⟩ := map_eq_ok.mp h
    obtain ⟨hsame, -, -⟩ := foldlM_remove_channel hg
    exact ⟨hsame.nextset, hsame.mrecordsets, hsame.schedule, hsame.core⟩

/-- A connection that ends is forgotten by its sets. -/
theorem Linked.destroy (hl : Linked g) (h : g.destroy pcc = .ok g') : Linked g' := by
  have hsame := destroy_sameSets h
  unfold Globals.destroy at h
  cases hc : g.conns.find? pcc with
  | none => rw [hc] at h; cases h
  | some c =>
    rw [hc] at h
    obtain ⟨g₁, hg, rfl⟩ := map_eq_ok.mp h
    obtain ⟨-, ⟨hconns, -⟩, hchan⟩ := foldlM_remove_channel hg
    refine hl.of_sameSets hsame fun prs pcc' => ?_
    show g₁.HasChannel prs pcc' ↔ _
    rw [hchan, hl.channels]
    have hsubs : ({ g₁ with conns := g₁.conns.erase pcc } : Globals).subs pcc'
        = if pcc' = pcc then none else g.subs pcc' := by
      unfold Globals.subs
      dsimp only
      rw [hconns, Lib.OrdMap.find?_erase]
      split <;> rfl
    unfold Subscribes
    rw [hsubs]
    split
    case isFalse hne => exact and_iff_left fun hx => hne hx.2
    case isTrue heq =>
      -- the sets it was in are those of its `subs`
      refine iff_of_false ?_ fun ⟨_, h, _⟩ => (nomatch h)
      rintro ⟨⟨m, hm, hprs⟩, hnot⟩
      rw [heq, Globals.subs, hc] at hm
      rw [← Option.some.inj hm] at hprs
      exact hnot ⟨Lib.OrdMap.mem_keys_iff.mpr hprs, heq⟩

/-! ## Measures -/

/-- `measure` changes no store, and its entry is for the set measured. -/
theorem measure_stores {t : Int} {e : Entry} (h : g.measure env t prs = .ok (e, g')) :
    SameStores g g' ∧ e.2 = prs ∧ ∃ rs, g.recordsets.find? prs = some rs := by
  unfold Globals.measure at h
  cases hr : g.recordsets.find? prs with
  | none => rw [hr] at h; cases h
  | some rs =>
    rw [hr] at h
    obtain ⟨next, -, h⟩ := bind_eq_ok.mp h
    obtain ⟨g₁, htell, h⟩ := map_eq_ok.mp h
    obtain ⟨rfl, rfl⟩ := Prod.mk.inj h
    exact ⟨tell_sameStores htell, rfl, rs, rfl⟩

/-- `measure` tells the channels, and nothing else is told. -/
theorem measure_tells {t : Int} {e : Entry} (h : g.measure env t prs = .ok (e, g')) :
    ∃ rs, g.recordsets.find? prs = some rs ∧ (∃ next, timeAdd t rs.interval = .ok next) ∧
      g.tell (g.sample env rs) rs.channels.keys = .ok g' := by
  unfold Globals.measure at h
  cases hr : g.recordsets.find? prs with
  | none => rw [hr] at h; cases h
  | some rs =>
    rw [hr] at h
    obtain ⟨next, hnext, h⟩ := bind_eq_ok.mp h
    obtain ⟨g₁, htell, h⟩ := map_eq_ok.mp h
    obtain ⟨rfl, rfl⟩ := Prod.mk.inj h
    exact ⟨rs, rfl, ⟨next, hnext⟩, htell⟩

theorem mem_insertEntry {e x : Entry} {es : List Entry} (h : x ∈ insertEntry e es) :
    x = e ∨ x ∈ es := by
  induction es with
  | nil => exact .inl (List.mem_singleton.mp h)
  | cons y ys ih =>
    rw [insertEntry] at h
    split at h
    · exact List.mem_cons.mp h
    · rcases List.mem_cons.mp h with rfl | h
      · exact .inr List.mem_cons_self
      · exact (ih h).imp_right (List.mem_cons_of_mem _)

/-- An entry for a set that lives is inserted. -/
theorem Linked.insertEntry {e : Entry} (hl : Linked g)
    (he : ∃ rs, g.recordsets.find? e.2 = some rs) :
    Linked { g with schedule := insertEntry e g.schedule } := by
  refine hl.reschedule fun x hx => ?_
  rcases mem_insertEntry hx with rfl | hx
  · exact he
  · exact hl.scheduled x hx

/-- A set is measured and its entry inserted. -/
theorem Linked.measure {t : Int} {e : Entry} (hl : Linked g)
    (h : g.measure env t prs = .ok (e, g')) :
    Linked { g' with schedule := Globals.insertEntry e g'.schedule } := by
  obtain ⟨hsame, he, rs, hr⟩ := measure_stores h
  exact (hsame.linked hl).insertEntry ⟨rs, by rw [hsame.recordsets, he, hr]⟩

/-- A turn of the loop over the schedule keeps `I`, of the entries before the iterator and
of the state. -/
def KeptByTurns (env : Env) (I : List Entry → Globals → Prop) : Prop :=
  ∀ kept g e es r, I kept g → g.schedule = e :: es →
    ({ g with schedule := es } : Globals).measure env e.1 e.2 = .ok r →
    (r.1.1 < e.1 → I (insertEntry r.1 kept) r.2) ∧
      (e.1 ≤ r.1.1 → I kept { r.2 with schedule := insertEntry r.1 r.2.schedule })

/-- **The rule of the loop over the schedule**: what its turns keep holds where it ends. -/
theorem pollSchedule_rule {I : List Entry → Globals → Prop} (hturn : KeptByTurns env I) {fuel : Nat}
    {kept : List Entry} (h : g.pollSchedule env fuel kept = .ok g') (hI : I kept g) :
    ∃ kept' g₁, I kept' g₁ ∧ g' = { g₁ with schedule := kept' ++ g₁.schedule } := by
  induction fuel generalizing kept g with
  | zero => cases h
  | succ fuel ih =>
    rw [Globals.pollSchedule] at h
    cases hs : g.schedule with
    | nil =>
      rw [hs] at h
      refine ⟨kept, g, hI, ?_⟩
      rw [← Except.ok.inj h, hs, List.append_nil]
    | cons e es =>
      rw [hs] at h
      dsimp only at h
      split at h
      case isFalse =>
        refine ⟨kept, g, hI, ?_⟩
        rw [← Except.ok.inj h, hs]
      case isTrue =>
        obtain ⟨r, hm, h⟩ := bind_eq_ok.mp h
        obtain ⟨hbefore, hbehind⟩ := hturn kept g e es r hI hs hm
        split at h
        case isTrue hlt => exact ih h (hbefore hlt)
        case isFalse hge => exact ih h (hbehind (Int.not_lt.mp hge))

/-- The loop over the schedule: all it reschedules lives. -/
theorem Linked.pollSchedule {fuel : Nat} {kept : List Entry} (hl : Linked g)
    (hkept : ∀ e ∈ kept, ∃ rs, g.recordsets.find? e.2 = some rs)
    (h : g.pollSchedule env fuel kept = .ok g') : Linked g' := by
  have hturn : KeptByTurns env fun kept g =>
      Linked g ∧ ∀ e ∈ kept, ∃ rs, g.recordsets.find? e.2 = some rs := by
    rintro kept g e es r ⟨hl, hkept⟩ hs hm
    have hes : Linked { g with schedule := es } :=
      hl.reschedule fun x hx => hl.scheduled x (hs ▸ List.mem_cons_of_mem _ hx)
    obtain ⟨hsame, he, rs, hr⟩ := measure_stores hm
    constructor
    · refine fun _ => ⟨hsame.linked hes, fun x hx => ?_⟩
      rw [hsame.recordsets]
      rcases mem_insertEntry hx with rfl | hx
      · exact ⟨rs, he ▸ hr⟩
      · exact hkept x hx
    · refine fun _ => ⟨hes.measure hm, fun x hx => ?_⟩
      show ∃ rs, r.2.recordsets.find? x.2 = some rs
      rw [hsame.recordsets]
      exact hkept x hx
  obtain ⟨kept', g₁, ⟨hl₁, hkept₁⟩, rfl⟩ := pollSchedule_rule hturn h ⟨hl, hkept⟩
  refine hl₁.reschedule fun x hx => ?_
  rcases List.mem_append.mp hx with hx | hx
  · exact hkept₁ x hx
  · exact hl₁.scheduled x hx

/-! ## Commands and runs -/

/-- What `createrecordset` makes. -/
theorem createrecordset_makes {mmpcreators : MmpCreators} {m : Lib.OrdMap Bytes SetId}
    {s text : Bytes} {rs : RecordSet}
    (h : createrecordset S mmpcreators m s = .ok (text, some rs)) :
    m.find? rs.name = none ∧ rs.channels = .empty ∧ rs.lmp ≠ [] ∧ rs.interval ≠ 0 := by
  unfold createrecordset at h
  dsimp only at h
  split at h
  · cases h
  split at h
  · cases h
  split at h
  · cases h
  split at h
  · cases h
  rename_i hname hint
  obtain ⟨r, -, hr⟩ := map_eq_ok.mp h
  split at hr
  · cases hr
  · rename_i hlmp
    obtain rfl := Option.some.inj (Prod.mk.inj hr).2
    refine ⟨?_, rfl, hlmp, hint⟩
    simpa [Lib.OrdMap.contains] using hname

/-- What the acts of a command keep, `activaterecordset` apart. -/
structure KeptByChanges (S : Scanners) (pcc : ConnId) (I : Globals → Prop) : Prop where
  write : ∀ g text, I g → I (g.write pcc text)
  prompt : ∀ g, I g → I { g with prompt := [] }
  register : ∀ g rs mmpcreators s text,
    createrecordset S mmpcreators g.mrecordsets s = .ok (text, some rs) → I g → I (g.register rs)
  suppress : ∀ g ident r, g.suppressrecordset pcc ident = .ok r → I g → I r.1
  add_subs : ∀ g prs g', g.add_subs pcc prs = .ok g' → I g → I g'
  remove_subs : ∀ g prs g', g.remove_subs pcc prs = .ok g' → I g → I g'

/-- What every act of a command keeps. -/
structure KeptByActs (env : Env) (pcc : ConnId) (I : Globals → Prop) : Prop where
  write : ∀ g text, I g → I (g.write pcc text)
  prompt : ∀ g, I g → I { g with prompt := [] }
  register : ∀ g rs, g.mrecordsets.find? rs.name = none → rs.channels = .empty →
    rs.lmp ≠ [] ∧ rs.interval ≠ 0 → I g → I (g.register rs)
  suppress : ∀ g ident r, g.suppressrecordset pcc ident = .ok r → I g → I r.1
  activate : ∀ g ident r, g.activaterecordset env pcc ident = .ok r → I g → I r.1
  add_subs : ∀ g prs g', g.add_subs pcc prs = .ok g' → I g → I g'
  remove_subs : ∀ g prs g', g.remove_subs pcc prs = .ok g' → I g → I g'

section acts

variable {I : Globals → Prop} {bufin : Bytes}

theorem KeptByActs.changes (S : Scanners) (hI : KeptByActs env pcc I) : KeptByChanges S pcc I where
  write := hI.write
  prompt := hI.prompt
  register g rs mmpcreators s text h hg := by
    obtain ⟨hname, hch, hmade⟩ := createrecordset_makes h
    exact hI.register g rs hname hch hmade hg
  suppress := hI.suppress
  add_subs := hI.add_subs
  remove_subs := hI.remove_subs

/-- The loop over identifiers keeps what its body keeps. -/
theorem KeptByChanges.overIdents {body : Globals → Bytes → Except Exn (Globals × Bool)}
    (hI : KeptByChanges S pcc I) (hbody : ∀ g ident r, body g ident = .ok r → I g → I r.1)
    {fuel p : Nat} {r r' : Globals × Nat} (hr : I r.1)
    (h : overIdents S pcc bufin body fuel p r = .ok r') : I r'.1 := by
  induction fuel generalizing p r with
  | zero =>
    rw [Globals.overIdents] at h
    split at h
    · obtain rfl := Except.ok.inj h
      exact hr
    · cases h
  | succ fuel ih =>
    rw [Globals.overIdents] at h
    dsimp only at h
    split at h
    · obtain rfl := Except.ok.inj h
      exact hr
    split at h
    · obtain rfl := Except.ok.inj h
      exact hI.write _ _ hr
    · obtain ⟨x, hb, h⟩ := bind_eq_ok.mp h
      exact ih (hbody _ _ _ hb hr) h

theorem KeptByChanges.forIdents {body : Globals → Bytes → Except Exn (Globals × Bool)}
    (hI : KeptByChanges S pcc I) (hbody : ∀ g ident r, body g ident = .ok r → I g → I r.1)
    {p : Nat} {command unit : Bytes} (hg : I g)
    (h : g.forIdents S pcc bufin p command unit body = .ok g') : I g' := by
  obtain ⟨r, hr, rfl⟩ := map_eq_ok.mp h
  exact hI.write _ _ (hI.overIdents hbody hg hr)

/-- What texts and deletions keep, `delete` of one identifier keeps. -/
theorem deleteOne_keeps (hwrite : ∀ g text, I g → I (g.write pcc text))
    (hsuppress : ∀ g ident r, g.suppressrecordset pcc ident = .ok r → I g → I r.1) (ident : Bytes)
    (r : Globals × Bool) (h : deleteOne pcc g ident = .ok r) (hg : I g) : I r.1 := by
  obtain ⟨x, hs, rfl⟩ := map_eq_ok.mp h
  have hx := hsuppress _ _ _ hs hg
  split
  · exact hx
  · exact hwrite _ _ hx

/-- What texts and activations keep, `activate` of one identifier keeps. -/
theorem KeptByActs.activateOne (hI : KeptByActs env pcc I) (ident : Bytes) (r : Globals × Bool)
    (h : activateOne env pcc g ident = .ok r) (hg : I g) : I r.1 := by
  obtain ⟨x, hs, rfl⟩ := map_eq_ok.mp h
  have hx := hI.activate _ _ _ hs hg
  split <;> exact hI.write _ _ hx

/-- What texts and the act keep, joining or leaving one set keeps. -/
theorem subsOne_keeps {act : Globals → ConnId → SetId → Except Exn Globals} {told : Bytes}
    (hwrite : ∀ g text, I g → I (g.write pcc text))
    (hact : ∀ prs g', act g pcc prs = .ok g' → I g → I g') (ident : Bytes) (r : Globals × Bool)
    (h : subsOne act told pcc g ident = .ok r) (hg : I g) : I r.1 := by
  unfold subsOne at h
  cases hn : g.mrecordsets.find? ident with
  | none =>
    rw [hn] at h
    obtain rfl := Except.ok.inj h
    exact hwrite _ _ hg
  | some prs =>
    rw [hn] at h
    obtain ⟨g₁, hs, rfl⟩ := map_eq_ok.mp h
    exact hwrite _ _ (hact _ _ hs hg)

theorem KeptByChanges.createCommand (hI : KeptByChanges S pcc I) {p : Nat} (hg : I g)
    (h : g.createCommand S B pcc bufin p = .ok g') : I g' := by
  obtain ⟨s, -, h⟩ := bind_eq_ok.mp h
  obtain ⟨⟨text, made⟩, hr, rfl⟩ := map_eq_ok.mp h
  cases made with
  | none => exact hI.write _ _ hg
  | some rs => exact hI.write _ _ (hI.register _ _ _ _ _ hr hg)

theorem of_ite {α : Type} {c : Prop} [Decidable c] {x y z : α} (h : (if c then x else y) = z) :
    c ∧ x = z ∨ y = z := by
  split at h
  case isTrue hc => exact .inl ⟨hc, h⟩
  case isFalse => exact .inr h

/-- **What the acts keep, `lineread`'s commands keep**, if `activate` does. -/
theorem KeptByChanges.command (hI : KeptByChanges S pcc I) (hg : I g)
    (hact : ∀ p, S.getidentifier bufin 0 = (str "activate", p) → ∀ g',
      g.forIdents S pcc bufin p (str "activate") (str "activation") (activateOne env pcc) = .ok g' →
        I g')
    (h : g.command S B env pcc bufin = .ok g') : I g' := by
  have hok : ∀ {x y : Globals}, (.ok x : Except Exn Globals) = .ok y → I x → I y := by
    rintro x y hx
    obtain rfl := Except.ok.inj hx
    exact id
  unfold Globals.command at h
  rcases of_ite h with ⟨-, h⟩ | h
  · exact hok h hg
  rcases of_ite h with ⟨-, h⟩ | h
  · exact hok h (hI.write _ _ hg)
  rcases of_ite h with ⟨-, h⟩ | h
  · exact hok h (hI.write _ _ hg)
  rcases of_ite h with ⟨-, h⟩ | h
  · exact hok h (hI.write _ _ hg)
  rcases of_ite h with ⟨-, h⟩ | h
  · exact hI.createCommand hg h
  rcases of_ite h with ⟨-, h⟩ | h
  · obtain ⟨text, -, rfl⟩ := map_eq_ok.mp h
    exact hI.write _ _ hg
  rcases of_ite h with ⟨-, h⟩ | h
  · exact hI.forIdents (fun _ => deleteOne_keeps hI.write hI.suppress) hg h
  rcases of_ite h with ⟨hword, h⟩ | h
  · exact hact _ (Prod.ext hword rfl) _ h
  rcases of_ite h with ⟨-, h⟩ | h
  · exact hI.forIdents (fun g => subsOne_keeps hI.write fun prs => hI.add_subs g prs) hg h
  rcases of_ite h with ⟨-, h⟩ | h
  · exact hI.forIdents (fun g => subsOne_keeps hI.write fun prs => hI.remove_subs g prs) hg h
  rcases of_ite h with ⟨-, h⟩ | h
  · exact hok h (hI.prompt _ (hI.write _ _ hg))
  · exact hok h (hI.write _ _ hg)

/-- **What every act keeps, `lineread`'s commands keep.** -/
theorem KeptByActs.command (hI : KeptByActs env pcc I) (hg : I g)
    (h : g.command S B env pcc bufin = .ok g') : I g' :=
  (hI.changes S).command hg (fun _ _ _ => (hI.changes S).forIdents (fun _ => hI.activateOne) hg) h

end acts

/-- What `suppressrecordset` does: the set is not known, or has no channel and goes. -/
theorem suppress_cases {ident : Bytes} {r : Globals × Bool}
    (h : g.suppressrecordset pcc ident = .ok r) :
    (g.mrecordsets.find? ident = none ∧
      r = (g.write pcc (str "unknown recordset " ++ quoted ident ++ endl), false)) ∨
    ∃ prs rs, g.mrecordsets.find? ident = some prs ∧ g.recordsets.find? prs = some rs ∧
      rs.channels.keys = [] ∧
      r = (({ g with schedule := g.schedule.filter fun e => e.2 ≠ prs,
                     mrecordsets := g.mrecordsets.erase ident,
                     recordsets := g.recordsets.erase prs } : Globals).write pcc deletionTexts,
        true) := by
  unfold Globals.suppressrecordset at h
  cases hn : g.mrecordsets.find? ident with
  | none =>
    rw [hn] at h
    exact .inl ⟨rfl, (Except.ok.inj h).symm⟩
  | some prs =>
    rw [hn] at h
    dsimp only at h
    cases hr : g.recordsets.find? prs with
    | none => rw [hr] at h; cases h
    | some rs =>
      rw [hr] at h
      dsimp only at h
      split at h
      case isTrue hch => exact .inr ⟨prs, rs, rfl, hr, hch, (Except.ok.inj h).symm⟩
      case isFalse => cases h

/-- What `activaterecordset` does: the set is not known, or is measured and rescheduled. -/
theorem activate_cases {ident : Bytes} {r : Globals × Bool}
    (h : g.activaterecordset env pcc ident = .ok r) :
    (g.mrecordsets.find? ident = none ∧
      r = (g.write pcc (str "unknown recordset " ++ quoted ident ++ endl), false)) ∨
    ∃ prs e g₁, g.mrecordsets.find? ident = some prs ∧ g.measure env env.now prs = .ok (e, g₁) ∧
      r = ({ g₁ with schedule := insertEntry e g₁.schedule }, true) := by
  unfold Globals.activaterecordset at h
  cases hn : g.mrecordsets.find? ident with
  | none =>
    rw [hn] at h
    exact .inl ⟨rfl, (Except.ok.inj h).symm⟩
  | some prs =>
    rw [hn] at h
    obtain ⟨⟨e, g₁⟩, hm, rfl⟩ := map_eq_ok.mp h
    exact .inr ⟨prs, e, g₁, rfl, hm, rfl⟩

theorem subs_relink {k : Lib.OrdMap SetId Int → Lib.OrdMap SetId Int}
    {m : Lib.OrdMap SetId RecordSet} {pcc' : ConnId} (h : ∃ m, g.subs pcc' = some m) :
    ∃ s, ({ g with recordsets := m, conns := g.conns.modify pcc fun c =>
      { c with subs := k c.subs } } : Globals).subs pcc' = some s := by
  obtain ⟨m₀, hm⟩ := h
  obtain ⟨c, hc, rfl⟩ := Option.map_eq_some_iff.mp hm
  unfold Globals.subs
  dsimp only
  rw [Lib.OrdMap.find?_modify, hc]
  exact ⟨_, rfl⟩

/-- The acts of a command of a connection that lives. -/
theorem linked_keptByActs (env : Env) (pcc : ConnId) :
    KeptByActs env pcc fun g => Linked g ∧ ∃ m, g.subs pcc = some m where
  write g text hg := by
    have hsame := write_sameStores g pcc text
    exact ⟨hsame.linked hg.1, by rw [hsame.subs]; exact hg.2⟩
  prompt g hg := ⟨(prompt_sameStores g []).linked hg.1, hg.2⟩
  register g rs hname hch hmade hg := ⟨hg.1.register hname hch hmade, hg.2⟩
  suppress g ident r h hg := by
    rcases suppress_cases h with ⟨-, rfl⟩ | ⟨prs, rs, hn, hr, hch, rfl⟩
    · have hsame := write_sameStores g pcc (str "unknown recordset " ++ quoted ident ++ endl)
      exact ⟨hsame.linked hg.1, by rw [hsame.subs]; exact hg.2⟩
    · refine ⟨(write_sameStores _ pcc deletionTexts).linked (hg.1.delete hn hr hch), ?_⟩
      rw [(write_sameStores _ pcc deletionTexts).subs]
      exact hg.2
  activate g ident r h hg := by
    rcases activate_cases h with ⟨-, rfl⟩ | ⟨prs, e, g₁, -, hm, rfl⟩
    · have hsame := write_sameStores g pcc (str "unknown recordset " ++ quoted ident ++ endl)
      exact ⟨hsame.linked hg.1, by rw [hsame.subs]; exact hg.2⟩
    · refine ⟨hg.1.measure hm, ?_⟩
      show ∃ m, g₁.subs pcc = some m
      rw [(measure_stores hm).1.subs]
      exact hg.2
  add_subs g prs g' h hg := by
    refine ⟨hg.1.add_subs hg.2 h, ?_⟩
    obtain ⟨-, rfl⟩ := add_subs_eq h
    exact subs_relink (k := fun m => m.insert prs 1) hg.2
  remove_subs g prs g' h hg := by
    refine ⟨hg.1.remove_subs h, ?_⟩
    obtain rfl := remove_subs_eq h
    exact subs_relink (k := fun m => m.erase prs) hg.2

/-- The connection an event speaks of lives, or not. -/
theorem live_iff : g.conns.contains pcc = true ↔ ∃ m, g.subs pcc = some m := by
  rw [Lib.OrdMap.contains_iff]
  exact ⟨fun ⟨c, hc⟩ => ⟨c.subs, by rw [Globals.subs, hc]; rfl⟩, fun ⟨m, hm⟩ =>
    (Option.map_eq_some_iff.mp hm).imp fun _ h => h.1⟩

/-- A step is taken where the event is possible and what it does returns. -/
theorem step_eq_some {e : Event} (h : step S B g e = some g') :
    g.possible e = true ∧ react S B g e = .ok g' := by
  unfold step at h
  split at h
  case isFalse => cases h
  case isTrue hp =>
    cases hr : react S B g e with
    | error x => rw [hr] at h; cases h
    | ok g₁ =>
      rw [hr] at h
      exact ⟨hp, congrArg _ (Option.some.inj h)⟩

/-- **Step lemma**: every event leaves the stores linked. -/
theorem step_linked {e : Event} (hl : Linked g) (h : step S B g e = some g') : Linked g' := by
  obtain ⟨hp, hr⟩ := step_eq_some h
  cases e with
  | connected pcc gethostname =>
    obtain rfl := Except.ok.inj hr
    exact hl.connect (by simpa [Globals.possible] using hp)
  | firstprompt pcc =>
    obtain rfl := Except.ok.inj hr
    exact ((((write_sameStores g pcc _).trans (prompt_sameStores _ _)).trans
      (writePrompt_sameStores _ pcc)).trans (flush_sameStores _ pcc)).linked hl
  | line pcc env bufin =>
    obtain ⟨g₁, hc, rfl⟩ := map_eq_ok.mp hr
    have h₁ := (linked_keptByActs env pcc).command ⟨hl, live_iff.mp hp⟩ hc
    exact (endLine_sameStores g₁ pcc).linked h₁.1
  | destroyed pcc => exact hl.destroy hr
  | select_poll env => exact hl.pollSchedule (fun _ h => absurd h List.not_mem_nil) hr

/-- A qigong begins with no set and no connection. -/
theorem linked_boot : Linked boot where
  registered _ _ h := (nomatch h)
  owned _ _ h := (nomatch h)
  fresh _ _ h := (nomatch h)
  made _ _ h := (nomatch h)
  scheduled _ h := absurd h List.not_mem_nil
  channels _ _ := iff_of_false (fun ⟨_, h, _⟩ => (nomatch h)) fun ⟨_, h, _⟩ => (nomatch h)

/-- **The stores are linked in every state a qigong reaches.** -/
theorem linked_of_run {es : List Event} (h : Lib.run (step S B) boot es = some g) : Linked g :=
  Lib.run_invariant (fun _ _ _ hl he => step_linked hl he) linked_boot h

end Qigong.Probe
