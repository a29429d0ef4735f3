import Qigong.Probe.Texts

/-!
# Deleting a record set (qigong.cpp:151–181)

`suppressrecordset` walks the channels of the set and unsubscribes each. A walk stands on an
entry (`Walk`), and goes on from it only while the entry is there; but `remove_subs` has the
set erase the very entry the walk stands on. So the walk never takes a second step
(`unsubscribe_channels_eq`): a set is deleted, and nothing refers to it any more, exactly
where no connection is subscribed to it (`deletes_cleanly_iff`).
-/

namespace Qigong.Probe

open Globals

variable {S : Scanners} {B : Build} {env : Env} {g g' : Globals} {pcc : ConnId} {prs : SetId}

/-! ## The walk over the channels -/

/-- An iterator of `channels`: the entry it stands on, `none` being `end ()`. -/
abbrev Walk := Option ConnId

namespace Globals

/-- `channels.begin ()` of a set. -/
def channelsBegin (g : Globals) (prs : SetId) : Except Exn Walk :=
  match g.recordsets.find? prs with
  | none => .error .dangling
  | some rs => .ok rs.channels.keys.head?

/-- `mi++` on the entry of `pcc`, which must be there. -/
def channelsNext (g : Globals) (prs : SetId) (pcc : ConnId) : Except Exn Walk :=
  match g.recordsets.find? prs with
  | none => .error .dangling
  | some rs =>
    if rs.channels.contains pcc then .ok (rs.channels.keys.find? fun k => pcc < k)
    else .error .dangling

/-- The loop that unsubscribes the channels (qigong.cpp:173–175). -/
def unsubscribe_channels (prs : SetId) : (fuel : Nat) → Walk → Globals → Except Exn Globals
  | _, none, g => .ok g
  | 0, some _, _ => .error .endless
  | fuel + 1, some pcc, g =>
    (g.remove_subs pcc prs).bind fun g =>
      (g.channelsNext prs pcc).bind fun mi => unsubscribe_channels prs fuel mi g

/-- `suppressrecordset` (qigong.cpp:151–181), one statement after the other. A set has no more
channels than the loop takes steps. -/
def suppressWalking (g : Globals) (pcc : ConnId) (ident : Bytes) : Except Exn (Globals × Bool) :=
  match g.mrecordsets.find? ident with
  | none => .ok (g.write pcc (str "unknown recordset " ++ quoted ident ++ endl), false)
  | some prs =>
    let g := g.write pcc (str "deleting scheduled entries" ++ endl)
    let g := { g with schedule := g.schedule.filter fun e => e.2 ≠ prs }
    let g := g.write pcc (str "deleting recordset entries" ++ endl)
    let g := { g with mrecordsets := g.mrecordsets.erase ident }
    let g := g.write pcc (str "unsubscribing channels" ++ endl)
    (g.channelsBegin prs).bind fun mi =>
      (unsubscribe_channels prs (g.conns.keys.length + 1) mi g).map fun g =>
        let g := g.write pcc (str "deleting recordset object" ++ endl)
        ({ g with recordsets := g.recordsets.erase prs }, true)

end Globals

/-- Behind `remove_subs` the walk stands on an entry that was erased. -/
theorem channelsNext_erased (h : g.remove_subs pcc prs = .ok g') :
    g'.channelsNext prs pcc = .error .dangling := by
  obtain rfl := remove_subs_eq h
  unfold channelsNext
  dsimp only
  rw [Lib.OrdMap.find?_modify]
  cases g.recordsets.find? prs with
  | none => rfl
  | some rs =>
    dsimp only [Option.map_some]
    rw [if_pos rfl, if_neg]
    intro hc
    exact (Lib.OrdMap.contains_erase.mp hc).1 rfl

theorem remove_subs_error {x : Exn} (h : g.remove_subs pcc prs = .error x) : x = .dangling := by
  unfold Globals.remove_subs Globals.remove_channel at h
  split at h
  · split at h
    · cases h
    · exact (Except.error.inj h).symm
  · exact (Except.error.inj h).symm

/-- **The walk takes no second step.** -/
theorem unsubscribe_channels_eq (prs : SetId) (fuel : Nat) (mi : Walk) (g : Globals) :
    unsubscribe_channels prs (fuel + 1) mi g = if mi = none then .ok g else .error .dangling := by
  cases mi with
  | none => rfl
  | some pcc =>
    rw [if_neg (Option.some_ne_none pcc), unsubscribe_channels]
    cases h : g.remove_subs pcc prs with
    | error x => rw [remove_subs_error h]; rfl
    | ok g' => simp only [Except.bind, channelsNext_erased h]

/-- `suppressrecordset` is its statements. -/
theorem suppressrecordset_eq (g : Globals) (pcc : ConnId) (ident : Bytes) :
    g.suppressrecordset pcc ident = g.suppressWalking pcc ident := by
  unfold Globals.suppressrecordset Globals.suppressWalking
  cases g.mrecordsets.find? ident with
  | none => rfl
  | some prs =>
    dsimp only [channelsBegin]
    have hsets : ∀ g text, (Globals.write g pcc text).recordsets = g.recordsets := fun _ _ => rfl
    simp only [hsets]
    cases hr : g.recordsets.find? prs with
    | none => rfl
    | some rs =>
      simp only [Except.bind, unsubscribe_channels_eq]
      cases hk : rs.channels.keys with
      | cons pcc' _ =>
        rw [if_neg (List.cons_ne_nil _ _), List.head?_cons, if_neg (Option.some_ne_none _)]
        rfl
      | nil =>
        rw [if_pos rfl, List.head?_nil, if_pos rfl]
        -- the four texts are written one behind the other
        simp only [Except.map, Globals.write, Lib.OrdMap.modify_modify, deletionTexts,
          List.append_assoc]

/-! ## Deletions -/

/-- Nothing refers to the set any more, and of the others all is as it was. -/
structure Detached (g g' : Globals) (prs : SetId) : Prop where
  subs : ∀ pcc, ¬ g'.Subscribes pcc prs
  schedule : ∀ e ∈ g'.schedule, e.2 ≠ prs
  mrecordsets : ∀ n, g'.mrecordsets.find? n ≠ some prs
  otherNames : ∀ n, g.mrecordsets.find? n ≠ some prs →
    g'.mrecordsets.find? n = g.mrecordsets.find? n
  otherEntries : (g'.schedule.filter fun e => e.2 ≠ prs) = g.schedule.filter fun e => e.2 ≠ prs
  otherSets : ∀ prs', prs' ≠ prs → g'.recordsets.find? prs' = g.recordsets.find? prs'
  otherSubs : ∀ pcc prs', prs' ≠ prs → (g'.Subscribes pcc prs' ↔ g.Subscribes pcc prs')

/-- The set of that name is deleted, and nothing refers to it any more. -/
def DeletesCleanly (g : Globals) (pcc : ConnId) (ident : Bytes) (prs : SetId) : Prop :=
  ∃ g', g.suppressWalking pcc ident = .ok (g', true) ∧ Detached g g' prs

/-- A set that no connection is subscribed to is deleted. -/
theorem deletesCleanly_of {ident : Bytes} {rs : RecordSet} (hl : Linked g)
    (hn : g.mrecordsets.find? ident = some prs) (hr : g.recordsets.find? prs = some rs)
    (hch : rs.channels.keys = []) (hsubs : ∀ pcc', ¬ g.Subscribes pcc' prs) (pcc : ConnId) :
    DeletesCleanly g pcc ident prs := by
  set g₁ : Globals := { g with schedule := g.schedule.filter fun e => e.2 ≠ prs,
                               mrecordsets := g.mrecordsets.erase ident,
                               recordsets := g.recordsets.erase prs } with hg₁
  have hsame := write_sameStores g₁ pcc deletionTexts
  have hsubs' : ∀ pcc' prs', (g₁.write pcc deletionTexts).Subscribes pcc' prs' ↔
      g.Subscribes pcc' prs' := by
    intro pcc' prs'
    unfold Subscribes
    rw [hsame.subs]
    exact Iff.rfl
  -- a set has one name
  have hname : ∀ n, g.mrecordsets.find? n = some prs → n = ident := by
    intro n hn'
    obtain ⟨rs₁, hr₁, rfl⟩ := hl.registered n prs hn'
    obtain ⟨rs₂, hr₂, rfl⟩ := hl.registered ident prs hn
    rw [Option.some.inj (hr₁.symm.trans hr₂)]
  refine ⟨g₁.write pcc deletionTexts, ?_, ?_⟩
  · rw [← suppressrecordset_eq]
    unfold Globals.suppressrecordset
    rw [hn]
    dsimp only
    rw [hr]
    exact if_pos hch
  · constructor
    case subs =>
      intro pcc'
      rw [hsubs']
      exact hsubs pcc'
    case schedule =>
      intro e he
      exact of_decide_eq_true (List.mem_filter.mp he).2
    case mrecordsets =>
      intro n hn'
      have hn'' : (g.mrecordsets.erase ident).find? n = some prs := hn'
      rw [Lib.OrdMap.find?_erase] at hn''
      split at hn''
      case isTrue => cases hn''
      case isFalse hne => exact hne (hname n hn'')
    case otherNames =>
      intro n hne
      show (g.mrecordsets.erase ident).find? n = _
      rw [Lib.OrdMap.find?_erase, if_neg]
      rintro rfl
      exact hne hn
    case otherEntries =>
      show (g.schedule.filter fun e => e.2 ≠ prs).filter (fun e => e.2 ≠ prs) = _
      simp only [List.filter_filter, Bool.and_self]
    case otherSets =>
      intro prs' hne
      show (g.recordsets.erase prs).find? prs' = _
      rw [Lib.OrdMap.find?_erase, if_neg hne]
    case otherSubs => exact fun pcc' prs' _ => hsubs' pcc' prs'

/-- **When a deletion detaches everybody**: in every state a qigong reaches, exactly where
no connection is subscribed to the set. -/
theorem deletes_cleanly_iff {es : List Event} (h : Lib.run (step S B) boot es = some g)
    {ident : Bytes} (hn : g.mrecordsets.find? ident = some prs) (pcc : ConnId) :
    DeletesCleanly g pcc ident prs ↔ ∀ pcc', ¬ g.Subscribes pcc' prs := by
  have hl := linked_of_run h
  obtain ⟨rs, hr, -⟩ := hl.registered ident prs hn
  have hchannels : rs.channels.keys = [] ↔ ∀ pcc', ¬ g.Subscribes pcc' prs := by
    simp only [← hl.channels, HasChannel, hr, Option.some.injEq, exists_eq_left',
      ← Lib.OrdMap.mem_keys_iff]
    exact List.eq_nil_iff_forall_not_mem
  constructor
  · rintro ⟨g', hok, -⟩
    rw [← suppressrecordset_eq] at hok
    rcases suppress_cases hok with ⟨hn', -⟩ | ⟨prs', rs', hn', hr', hch, -⟩
    · rw [hn] at hn'
      cases hn'
    · obtain rfl := Option.some.inj (hn.symm.trans hn')
      obtain rfl := Option.some.inj (hr.symm.trans hr')
      exact hchannels.mp hch
  · intro hsubs
    exact deletesCleanly_of hl hn hr (hchannels.mpr hsubs) hsubs pcc

/-- Two sets are active, and one has a subscriber. -/
def sampleBeside : List Event :=
  sampleCreation ++ ["create mail 60 load", "activate web mail", "sub mail"].map fun l =>
    .line 0 sampleEnv (str l)

/-- The other one is deleted, with its entry of the schedule. -/
theorem deletes_cleanly_iff_unsubscribed :
    ∃ g, Lib.run (step sampleScanners sampleBuild) boot sampleBeside = some g ∧
      (∃ t, (t, 0) ∈ g.schedule) ∧ g.Subscribes 0 1 ∧ DeletesCleanly g 0 (str "web") 0 := by
  have hany : (Lib.run (step sampleScanners sampleBuild) boot sampleBeside).any (fun g =>
      decide (g.mrecordsets.find? (str "web") = some 0) && (g.schedule.any fun e => e.2 == 0) &&
        ((g.subs 0).any fun m => m.contains 1) &&
        decide (g.conns.entries.flatMap (fun e => e.2.subs.keys) = [1])) = true := by
    decide +kernel
  obtain ⟨g, h, hg⟩ := (Option.any_eq_true _ _).mp hany
  simp only [Bool.and_eq_true, decide_eq_true_eq, List.any_eq_true, beq_iff_eq,
    Option.any_eq_true] at hg
  obtain ⟨⟨⟨hn, ⟨t, prs⟩, hmem, rfl⟩, hsub⟩, hsubs⟩ := hg
  refine ⟨g, h, ⟨t, hmem⟩, hsub, (deletes_cleanly_iff h hn 0).mpr ?_⟩
  rintro pcc ⟨m, hm, hc⟩
  obtain ⟨c, hconn, rfl⟩ := Option.map_eq_some_iff.mp hm
  have hin : (0 : SetId) ∈ g.conns.entries.flatMap fun e => e.2.subs.keys :=
    List.mem_flatMap.mpr ⟨(pcc, c), Lib.OrdMap.find?_eq_some_iff.mp hconn,
      Lib.OrdMap.mem_keys_iff.mpr hc⟩
  rw [hsubs, List.mem_singleton] at hin
  cases hin

/-- **With a subscriber the walk goes on from an erased entry.** -/
theorem deletion_dangles :
    ¬ ∀ (S : Scanners) (B : Build) (es : List Event) (g : Globals) (pcc : ConnId) (ident : Bytes)
      (prs : SetId), Lib.run (step S B) boot es = some g →
      g.mrecordsets.find? ident = some prs → DeletesCleanly g pcc ident prs := by
  intro hall
  have hany : (Lib.run (step sampleScanners sampleBuild) boot
      (sampleCreation ++ [.line 0 sampleEnv (str "sub web")])).any (fun g =>
        decide (g.mrecordsets.find? (str "web") = some 0) &&
          (g.suppressWalking 0 (str "web")).toOption.isNone) = true := by
    decide +kernel
  obtain ⟨g, h, hg⟩ := (Option.any_eq_true _ _).mp hany
  rw [Bool.and_eq_true, decide_eq_true_eq] at hg
  obtain ⟨g', hok, -⟩ := hall _ _ _ g 0 (str "web") 0 h hg.1
  rw [hok] at hg
  cases hg.2

end Qigong.Probe
