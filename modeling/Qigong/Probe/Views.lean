import Qigong.Probe.Unsubscribing

/-!
# What names lead to

A command speaks of record sets by name, and all it sees of one is the set registered under
the name (`Globals.view`). Every function that changes the sets changes what one name leads
to, and what the connections are told stays as it is (`Resets`).
-/

namespace Qigong.Probe

open Globals

variable {g g' g'' : Globals} {pcc : ConnId} {prs : SetId} {i n : Bytes} {rs : RecordSet}

namespace Globals

/-- The set registered under a name. -/
def view (g : Globals) (n : Bytes) : Option RecordSet :=
  (g.mrecordsets.find? n).bind g.recordsets.find?

/-- The number of prompts a connection has had. -/
def nbp (g : Globals) (pcc : ConnId) : Option Nat := (g.conns.find? pcc).map (·.nbp)

end Globals

theorem view_eq_some : g.view n = some rs ↔
    ∃ prs, g.mrecordsets.find? n = some prs ∧ g.recordsets.find? prs = some rs :=
  Option.bind_eq_some_iff

theorem view_of_find (hn : g.mrecordsets.find? n = some prs)
    (hr : g.recordsets.find? prs = some rs) : g.view n = some rs :=
  view_eq_some.mpr ⟨prs, hn, hr⟩

/-- A registered set lives, so a name that leads nowhere is not registered. -/
theorem Linked.view_eq_none_iff (hl : Linked g) : g.view n = none ↔ g.mrecordsets.find? n = none := by
  constructor
  · intro hv
    cases hn : g.mrecordsets.find? n with
    | none => rfl
    | some prs =>
      obtain ⟨rs, hr, -⟩ := hl.registered n prs hn
      rw [view_of_find hn hr] at hv
      cases hv
  · intro hn
    rw [Globals.view, hn]
    rfl

/-- Two names do not lead to one set. -/
theorem Linked.name_eq {n' : Bytes} (hl : Linked g) (hn : g.mrecordsets.find? n = some prs)
    (hn' : g.mrecordsets.find? n' = some prs) : n = n' := by
  obtain ⟨rs, hr, rfl⟩ := hl.registered n prs hn
  obtain ⟨rs', hr', rfl⟩ := hl.registered n' prs hn'
  rw [hr] at hr'
  rw [Option.some.inj hr']

/-- Where the stores are the same, names lead to the same sets. -/
theorem SameStores.view (h : SameStores g g') : g'.view = g.view := by
  funext n
  rw [Globals.view, h.mrecordsets, h.recordsets, Globals.view]

/-- The prompts are counted whatever is done with `out` and the subscriptions. -/
theorem nbp_modify {f : CollectedConn → CollectedConn} (hf : ∀ c, (f c).nbp = c.nbp)
    (pcc pcc' : ConnId) (g : Globals) :
    ({ g with conns := g.conns.modify pcc f } : Globals).nbp pcc' = g.nbp pcc' := by
  unfold Globals.nbp
  rw [Lib.OrdMap.find?_modify, Option.map_map]
  refine congrArg (Option.map · _) (funext fun c => ?_)
  show (if pcc' = pcc then f c else c).nbp = c.nbp
  split
  · exact hf c
  · rfl

/-- Writing counts no prompt. -/
theorem nbp_write (g : Globals) (pcc pcc' : ConnId) (text : Bytes) :
    (g.write pcc text).nbp pcc' = g.nbp pcc' := nbp_modify (fun _ => by rfl) pcc pcc' g

theorem nbp_flush (g : Globals) (pcc pcc' : ConnId) : (g.flush pcc).nbp pcc' = g.nbp pcc' := by
  unfold Globals.flush
  cases g.conns.find? pcc with
  | none => rfl
  | some c => exact nbp_modify (fun _ => by rfl) pcc pcc' g

theorem tell_nbp {text : Bytes} {pccs : List ConnId} (h : g.tell text pccs = .ok g')
    (pcc' : ConnId) : g'.nbp pcc' = g.nbp pcc' := by
  induction pccs generalizing g with
  | nil =>
    obtain rfl := Except.ok.inj h
    rfl
  | cons pcc pccs ih =>
    rw [Globals.tell] at h
    split at h
    · rw [ih h, nbp_flush, nbp_write]
    · cases h

/-- A prompt is counted where one is written. -/
theorem endLine_nbp (g : Globals) (pcc pcc' : ConnId) :
    (g.endLine pcc).nbp pcc'
      = if pcc' = pcc ∧ g.prompt ≠ [] then (g.nbp pcc').map (· + 1) else g.nbp pcc' := by
  unfold Globals.endLine
  split
  case isTrue hnil =>
    rw [nbp_flush, if_neg]
    exact fun h => h.2 hnil
  case isFalse hne =>
    rw [nbp_flush]
    show ((g.conns.modify pcc _).find? pcc').map _ = _
    rw [Lib.OrdMap.find?_modify, Option.map_map]
    unfold Globals.nbp
    by_cases hpcc : pcc' = pcc
    · rw [if_pos ⟨hpcc, hne⟩, Option.map_map]
      refine congrArg (Option.map · _) (funext fun c => ?_)
      simp [hpcc]
    · rw [if_neg fun h => hpcc h.1]
      refine congrArg (Option.map · _) (funext fun c => ?_)
      simp [hpcc]

/-! ## One name leads to another set -/

/-- What a name leads to is changed, and nothing a connection is told. -/
structure Resets (g g' : Globals) (n : Bytes) (v : Option RecordSet) : Prop where
  view : g'.view = Function.update g.view n v
  out : ∀ pcc, g'.out pcc = g.out pcc
  nbp : ∀ pcc, g'.nbp pcc = g.nbp pcc
  sent : g'.sent = g.sent
  prompt : g'.prompt = g.prompt

/-- The other names lead where they led. -/
theorem Resets.other {v : Option RecordSet} {n' : Bytes} (h : Resets g g' n v) (hne : n' ≠ n) :
    g'.view n' = g.view n' := by
  rw [h.view, Function.update_of_ne hne]

/-- A set is registered. -/
theorem Linked.register_resets (hl : Linked g) (rs : RecordSet) :
    Resets g (g.register rs) rs.name (some rs) := by
  refine ⟨funext fun n => ?_, fun _ => rfl, fun _ => rfl, rfl, rfl⟩
  show ((g.mrecordsets.insert rs.name g.nextset).find? n).bind
    (g.recordsets.insert g.nextset rs).find? = _
  rw [Lib.OrdMap.find?_insert, Function.update_apply]
  split
  case isTrue => exact Lib.OrdMap.find?_insert_self ..
  -- the new number is that of no other set
  case isFalse hne =>
    unfold Globals.view
    cases hn : g.mrecordsets.find? n with
    | none => rfl
    | some prs =>
      obtain ⟨rs', hr, -⟩ := hl.registered n prs hn
      exact Lib.OrdMap.find?_insert_other _ (hl.fresh prs rs' hr).ne

/-- A set is deleted. -/
theorem Linked.delete_resets (hl : Linked g) (hn : g.mrecordsets.find? i = some prs)
    (es : List Entry) :
    Resets g { g with schedule := es, mrecordsets := g.mrecordsets.erase i,
                      recordsets := g.recordsets.erase prs } i none := by
  refine ⟨funext fun n => ?_, fun _ => rfl, fun _ => rfl, rfl, rfl⟩
  show ((g.mrecordsets.erase i).find? n).bind (g.recordsets.erase prs).find? = _
  rw [Lib.OrdMap.find?_erase, Function.update_apply]
  split
  case isTrue => rfl
  case isFalse hne =>
    unfold Globals.view
    cases hn' : g.mrecordsets.find? n with
    | none => rfl
    | some prs' =>
      show (g.recordsets.erase prs).find? prs' = g.recordsets.find? prs'
      rw [Lib.OrdMap.find?_erase, if_neg]
      -- two names of one set would be one
      rintro rfl
      exact hne (hl.name_eq hn' hn)

/-- The channels of a set change, and the subscriptions of a connection. -/
theorem Linked.relink_resets {f : Lib.OrdMap ConnId Int → Lib.OrdMap ConnId Int}
    {k : Lib.OrdMap SetId Int → Lib.OrdMap SetId Int} (hl : Linked g)
    (hn : g.mrecordsets.find? i = some prs) (hr : g.recordsets.find? prs = some rs) :
    Resets g { g with conns := g.conns.modify pcc fun c => { c with subs := k c.subs },
                      recordsets := g.recordsets.modify prs fun rs =>
                        { rs with channels := f rs.channels } }
      i (some { rs with channels := f rs.channels }) := by
  refine ⟨funext fun n => ?_, fun pcc' => ?_, fun pcc' => ?_, rfl, rfl⟩
  · rw [Function.update_apply]
    unfold Globals.view
    dsimp only
    split
    case isTrue heq =>
      rw [heq, hn]
      show (g.recordsets.modify prs _).find? prs = _
      rw [Lib.OrdMap.find?_modify, hr]
      simp
    case isFalse hne =>
      cases hn' : g.mrecordsets.find? n with
      | none => rfl
      | some prs' =>
        show (g.recordsets.modify prs _).find? prs' = g.recordsets.find? prs'
        -- another name leads to another set
        have hprs : prs' ≠ prs := by
          rintro rfl
          exact hne (hl.name_eq hn' hn)
        rw [Lib.OrdMap.find?_modify]
        simp only [if_neg hprs, Option.map_id']
  · exact out_modify_same (fun c => by rfl) pcc pcc' g
  · exact nbp_modify (fun c => by rfl) pcc pcc' g

/-! ## What the functions do, by what the name leads to -/

/-- An unknown name is complained of. -/
theorem suppress_unknown (hl : Linked g) (pcc : ConnId) (hv : g.view i = none) :
    g.suppressrecordset pcc i
      = .ok (g.write pcc (str "unknown recordset " ++ quoted i ++ endl), false) := by
  unfold Globals.suppressrecordset
  rw [hl.view_eq_none_iff.mp hv]

/-- A set with a subscriber is not deleted in order: the iterator advanced is erased. -/
theorem suppress_subscribed (pcc : ConnId) (hv : g.view i = some rs) (hch : rs.channels.keys ≠ []) :
    g.suppressrecordset pcc i = .error .dangling := by
  obtain ⟨prs, hn, hr⟩ := view_eq_some.mp hv
  unfold Globals.suppressrecordset
  rw [hn]
  dsimp only
  rw [hr]
  dsimp only
  rw [if_neg hch]

/-- A set without one is. -/
theorem suppress_deletes (hl : Linked g) (pcc : ConnId) (hv : g.view i = some rs)
    (hch : rs.channels.keys = []) :
    ∃ g', g.suppressrecordset pcc i = .ok (g'.write pcc deletionTexts, true) ∧ Linked g' ∧
      Resets g g' i none := by
  obtain ⟨prs, hn, hr⟩ := view_eq_some.mp hv
  refine ⟨_, ?_, hl.delete hn hr hch, hl.delete_resets hn _⟩
  unfold Globals.suppressrecordset
  rw [hn]
  dsimp only
  rw [hr]
  dsimp only
  rw [if_pos hch]

theorem activate_unknown (hl : Linked g) (env : Env) (pcc : ConnId) (hv : g.view i = none) :
    g.activaterecordset env pcc i
      = .ok (g.write pcc (str "unknown recordset " ++ quoted i ++ endl), false) := by
  unfold Globals.activaterecordset
  rw [hl.view_eq_none_iff.mp hv]

/-- A registered set is measured, told to its channels and scheduled. -/
theorem activate_measures (env : Env) (pcc : ConnId) (hv : g.view i = some rs) :
    ∃ prs, g.recordsets.find? prs = some rs ∧
      g.activaterecordset env pcc i = (timeAdd env.now rs.interval).bind fun next =>
        (g.tell (g.sample env rs) rs.channels.keys).map fun g' =>
          ({ g' with schedule := insertEntry (next, prs) g'.schedule }, true) := by
  obtain ⟨prs, hn, hr⟩ := view_eq_some.mp hv
  refine ⟨prs, hr, ?_⟩
  unfold Globals.activaterecordset Globals.measure
  rw [hn]
  dsimp only
  rw [hr]
  dsimp only
  cases timeAdd env.now rs.interval with
  | error x => rfl
  | ok next => cases g.tell (g.sample env rs) rs.channels.keys <;> rfl

/-- A connection that lives subscribes. -/
theorem add_subs_resets (hl : Linked g) (hlive : ∃ m, g.subs pcc = some m)
    (hn : g.mrecordsets.find? i = some prs) (hr : g.recordsets.find? prs = some rs) :
    ∃ g', g.add_subs pcc prs = .ok g' ∧ Linked g' ∧
      Resets g g' i (some { rs with channels := rs.channels.insert pcc 1 }) := by
  obtain ⟨g', hadd⟩ : ∃ g', g.add_subs pcc prs = .ok g' := by
    unfold Globals.add_subs Globals.add_channel
    rw [if_pos (Lib.OrdMap.contains_iff.mpr ⟨rs, hr⟩)]
    exact ⟨_, rfl⟩
  refine ⟨g', hadd, hl.add_subs hlive hadd, ?_⟩
  obtain ⟨-, rfl⟩ := add_subs_eq hadd
  exact hl.relink_resets (f := fun m => m.insert pcc 1) (k := fun m => m.insert prs 1) hn hr

/-- A connection leaves a set it is a channel of. -/
theorem remove_subs_resets (hl : Linked g) (hn : g.mrecordsets.find? i = some prs)
    (hr : g.recordsets.find? prs = some rs) (hc : rs.channels.contains pcc = true) :
    ∃ g', g.remove_subs pcc prs = .ok g' ∧ Linked g' ∧
      Resets g g' i (some { rs with channels := rs.channels.erase pcc }) := by
  obtain ⟨g', hrem⟩ := remove_subs_ok hl ((hl.channels prs pcc).mp ⟨rs, hr, hc⟩)
  refine ⟨g', hrem, hl.remove_subs hrem, ?_⟩
  obtain rfl := remove_subs_eq hrem
  exact hl.relink_resets (f := fun m => m.erase pcc) (k := fun m => m.erase prs) hn hr

/-- It cannot leave another. -/
theorem remove_subs_dangles (hl : Linked g) (hr : g.recordsets.find? prs = some rs)
    (hc : rs.channels.contains pcc = false) : g.remove_subs pcc prs = .error .dangling := by
  unfold Globals.remove_subs
  rw [if_neg]
  -- a subscription on the one side is a channel on the other
  intro hany
  obtain ⟨rs', hr', hc'⟩ := (hl.channels prs pcc).mpr (any_subs_iff.mp hany)
  rw [hr] at hr'
  rw [← Option.some.inj hr', hc] at hc'
  cases hc'

end Qigong.Probe
