import Qigong.Probe.Measures
import Qigong.Probe.Activations
import Qigong.Probe.Touches

/-!
# How a set stands on the qigong

What the collector takes for granted of a set, by the state the set is in, is that the
qigong has made it as it was asked for, has it scheduled, and has the connection among
its channels (`Standing`). Nothing that happens to a qigong takes that back but a
`delete` that names the set, and the connection's own end and `unsub`
(`step_standing`).
-/

namespace Qigong.Together

open Probe Probe.Globals
open Collect (CSState CollectionSet)

variable {S : Scanners} {B : Build} {env : Env} {g g' g'' : Globals} {pcc pcc' : ConnId}
variable {blank ident : UInt8 → Bool} {n : Bytes} {bufin : Bytes}

/-! ## What is kept of a set -/

/-- The set of this name is kept as it is, and the connection if it is a channel of it. -/
structure KeepsSet (n : Bytes) (pcc : ConnId) (g g' : Globals) : Prop where
  name : ∀ prs, g.mrecordsets.find? n = some prs → g'.mrecordsets.find? n = some prs
  core : ∀ prs, g.mrecordsets.find? n = some prs →
    (g'.recordsets.find? prs).map RecordSet.core = (g.recordsets.find? prs).map RecordSet.core
  channel : ∀ prs, g.mrecordsets.find? n = some prs → g.HasChannel prs pcc → g'.HasChannel prs pcc

theorem KeepsSet.refl (n : Bytes) (pcc : ConnId) (g : Globals) : KeepsSet n pcc g g :=
  ⟨fun _ h => h, fun _ _ => rfl, fun _ _ h => h⟩

theorem KeepsSet.trans (h : KeepsSet n pcc g g') (h' : KeepsSet n pcc g' g'') :
    KeepsSet n pcc g g'' where
  name prs hn := h'.name prs (h.name prs hn)
  core prs hn := (h'.core prs (h.name prs hn)).trans (h.core prs hn)
  channel prs hn hc := h'.channel prs (h.name prs hn) (h.channel prs hn hc)

/-- Where the sets are the same, only the channels matter. -/
theorem keepsSet_of_sameSets (h : SameSets g g')
    (hc : ∀ prs, g.HasChannel prs pcc → g'.HasChannel prs pcc) : KeepsSet n pcc g g' where
  name _ hn := h.mrecordsets ▸ hn
  core prs _ := h.core prs
  channel prs _ hp := hc prs hp

theorem keepsSet_of_sameStores (h : SameStores g g') : KeepsSet n pcc g g' :=
  keepsSet_of_sameSets h.sameSets fun _ ⟨rs, hr, hc⟩ => ⟨rs, h.recordsets ▸ hr, hc⟩

/-- A text changes no set. -/
theorem keepsSet_write (g : Globals) (pcc' : ConnId) (text : Bytes) :
    KeepsSet n pcc g (g.write pcc' text) := keepsSet_of_sameStores (write_sameStores g pcc' text)

/-- A set just made is another one. -/
theorem keepsSet_register (hl : Linked g) {rs : RecordSet}
    (hfree : g.mrecordsets.find? rs.name = none) : KeepsSet n pcc g (g.register rs) := by
  -- the new number is above those of the sets there are
  have hold : ∀ prs, g.mrecordsets.find? n = some prs →
      (g.register rs).recordsets.find? prs = g.recordsets.find? prs := by
    intro prs hn
    obtain ⟨rs', hr, -⟩ := hl.registered n prs hn
    exact Lib.OrdMap.find?_insert_other rs (Nat.ne_of_lt (hl.fresh prs rs' hr))
  constructor
  · intro prs hn
    show (g.mrecordsets.insert rs.name g.nextset).find? n = some prs
    rw [Lib.OrdMap.find?_insert_other]
    · exact hn
    · rintro rfl
      rw [hfree] at hn
      cases hn
  · intro prs hn
    rw [hold prs hn]
  · rintro prs hn ⟨rs', hr, hc⟩
    exact ⟨rs', (hold prs hn).trans hr, hc⟩

/-- A set of another name is deleted. -/
theorem keepsSet_suppress (hl : Linked g) {i : Bytes} (hi : i ≠ n) {x : Globals × Bool}
    (h : g.suppressrecordset pcc' i = .ok x) : KeepsSet n pcc g x.1 := by
  rcases suppress_cases h with ⟨-, rfl⟩ | ⟨prs₀, rs₀, hn₀, -, -, rfl⟩
  · exact keepsSet_write g pcc' _
  · refine KeepsSet.trans ?_ (keepsSet_write _ pcc' deletionTexts)
    -- two names of one set would be one name
    have hother : ∀ prs, g.mrecordsets.find? n = some prs →
        (g.recordsets.erase prs₀).find? prs = g.recordsets.find? prs := by
      intro prs hn
      rw [Lib.OrdMap.find?_erase, if_neg]
      rintro rfl
      exact hi (hl.name_eq hn₀ hn)
    constructor
    · intro prs hn
      show (g.mrecordsets.erase i).find? n = some prs
      rw [Lib.OrdMap.find?_erase, if_neg (Ne.symm hi)]
      exact hn
    · intro prs hn
      show ((g.recordsets.erase prs₀).find? prs).map RecordSet.core = _
      rw [hother prs hn]
    · rintro prs hn ⟨rs, hr, hc⟩
      exact ⟨rs, (hother prs hn).trans hr, hc⟩

/-- A connection joins a set. -/
theorem keepsSet_add_subs {prs₀ : SetId} (h : g.add_subs pcc' prs₀ = .ok g') :
    KeepsSet n pcc g g' := by
  obtain ⟨-, rfl⟩ := add_subs_eq h
  refine keepsSet_of_sameSets (modify_sameSets (f := fun m => m.insert pcc' 1)) ?_
  rintro prs ⟨rs, hr, hc⟩
  rw [hasChannel_modify (f := fun m => m.insert pcc' 1)]
  refine ⟨rs, hr, ?_⟩
  split
  · exact Lib.OrdMap.contains_insert.mpr (.inr hc)
  · exact hc

/-- Another connection leaves a set. -/
theorem keepsSet_remove_subs {prs₀ : SetId} (hne : pcc' ≠ pcc)
    (h : g.remove_subs pcc' prs₀ = .ok g') : KeepsSet n pcc g g' := by
  obtain rfl := remove_subs_eq h
  refine keepsSet_of_sameSets (modify_sameSets (f := fun m => m.erase pcc')) ?_
  rintro prs ⟨rs, hr, hc⟩
  rw [hasChannel_modify (f := fun m => m.erase pcc')]
  refine ⟨rs, hr, ?_⟩
  split
  · exact Lib.OrdMap.contains_erase.mpr ⟨Ne.symm hne, hc⟩
  · exact hc

/-- Another connection ends, and leaves its sets. -/
theorem keepsSet_destroy (hne : pcc' ≠ pcc) (h : g.destroy pcc' = .ok g') :
    KeepsSet n pcc g g' := by
  refine keepsSet_of_sameSets (destroy_sameSets h) fun prs hp => ?_
  unfold Globals.destroy at h
  cases hc : g.conns.find? pcc' with
  | none =>
    rw [hc] at h
    cases h
  | some c =>
    rw [hc] at h
    obtain ⟨g₁, hg, rfl⟩ := map_eq_ok.mp h
    obtain ⟨-, -, hchan⟩ := foldlM_remove_channel hg
    exact (hchan prs pcc).mpr ⟨hp, fun hx => hne hx.2.symm⟩

/-! ## Commands -/

/-- A measure changes no set. -/
theorem keepsSet_measure {t : Int} {prs : SetId} {e : Entry} (h : g.measure env t prs = .ok (e, g')) :
    KeepsSet n pcc g g' := keepsSet_of_sameStores (measure_stores h).1

theorem keepsSet_subsOne {act : Globals → ConnId → SetId → Except Exn Globals} {told i : Bytes}
    {x : Globals × Bool} (hact : ∀ prs g', act g pcc' prs = .ok g' → KeepsSet n pcc g g')
    (h : subsOne act told pcc' g i = .ok x) : KeepsSet n pcc g x.1 := by
  unfold subsOne at h
  cases hn : g.mrecordsets.find? i with
  | none =>
    rw [hn] at h
    obtain rfl := Except.ok.inj h
    exact keepsSet_write g pcc' _
  | some prs =>
    rw [hn] at h
    obtain ⟨g₁, hg₁, rfl⟩ := map_eq_ok.mp h
    exact (hact prs g₁ hg₁).trans (keepsSet_write g₁ pcc' _)

/-- **One identifier of a command**: the set is kept, unless the command deletes it or has
the connection leave it. -/
theorem keepsSet_one (a : Act) {i : Bytes} {x : Globals × Bool} (hl : Linked g)
    (hdelete : a = .delete → i ≠ n) (hunsub : a = .unsub → pcc' ≠ pcc)
    (h : a.one env pcc' g i = .ok x) : KeepsSet n pcc g x.1 := by
  -- `delete` and `unsub` are held back by the hypotheses, the other two take nothing away
  cases a with
  | delete =>
    obtain ⟨y, hy, rfl⟩ := map_eq_ok.mp h
    have hsuppress : KeepsSet n pcc g y.1 := keepsSet_suppress hl (hdelete rfl) hy
    split
    · exact hsuppress
    · exact hsuppress.trans (keepsSet_write y.1 pcc' _)
  | activate =>
    obtain ⟨y, hy, rfl⟩ := map_eq_ok.mp h
    have hact : KeepsSet n pcc g y.1 := by
      rcases activate_cases hy with ⟨-, rfl⟩ | ⟨prs, e, g₁, -, hm, rfl⟩
      · exact keepsSet_write g pcc' _
      · exact (keepsSet_measure hm).trans ⟨fun _ hn => hn, fun _ _ => rfl, fun _ _ hc => hc⟩
    split <;> exact hact.trans (keepsSet_write _ pcc' _)
  | sub => exact keepsSet_subsOne (fun prs g' hg => keepsSet_add_subs hg) h
  | unsub => exact keepsSet_subsOne (fun prs g' hg => keepsSet_remove_subs (hunsub rfl) hg) h

/-- `create` makes a set of a name that is free. -/
theorem keepsSet_createCommand {p : Nat} (hl : Linked g)
    (h : g.createCommand S B pcc' bufin p = .ok g') : KeepsSet n pcc g g' := by
  obtain ⟨d, -, h⟩ := bind_eq_ok.mp h
  obtain ⟨⟨text, made⟩, hmake, rfl⟩ := map_eq_ok.mp h
  cases made with
  | none => exact keepsSet_write g pcc' _
  | some rs =>
    obtain ⟨hfree, -⟩ := createrecordset_makes hmake
    exact (keepsSet_register hl hfree).trans (keepsSet_write _ pcc' _)

/-- The line does not delete the set, nor has it the connection leave a set. -/
def SparesLine (S : Scanners) (n : Bytes) (pcc pcc' : ConnId) (bufin : Bytes) : Prop :=
  (lineWord S bufin = str "delete" → n ∉ idents S bufin) ∧
    (lineWord S bufin ∈ Act.unsub.words → pcc' ≠ pcc)

/-- A command keeps the sets it spares, by its form. -/
theorem Form.run_keepsSet {f : Form} (hl : Linked g) (hlive : ∃ m, g.subs pcc' = some m)
    (hf : f.Spelled S bufin) (hspares : SparesLine S n pcc pcc' bufin)
    (h : f.run S B env pcc' bufin g = .ok g') : KeepsSet n pcc g g' := by
  cases f with
  | silent =>
    obtain rfl := Except.ok.inj h
    exact .refl n pcc g
  | tells text =>
    obtain rfl := Except.ok.inj h
    exact keepsSet_write g pcc' text
  | qiging =>
    obtain rfl := Except.ok.inj h
    exact keepsSet_of_sameStores ((write_sameStores g pcc' _).trans (prompt_sameStores _ _))
  | create p => exact keepsSet_createCommand hl h
  | act a is missing =>
    obtain ⟨hword, rfl⟩ := hf
    obtain ⟨r, hr, rfl⟩ := map_eq_ok.mp h
    -- one identifier after the other
    have hloop := Lib.foldlM_keeps
      (I := fun r : Globals × Nat =>
        (Linked r.1 ∧ ∃ m, r.1.subs pcc' = some m) ∧ KeepsSet n pcc g r.1)
      (fun i hi r r' hbody hI => by
        obtain ⟨x, hx, rfl⟩ := map_eq_ok.mp hbody
        refine ⟨a.one_linked hI.1 hx, hI.2.trans (keepsSet_one a hI.1.1 ?_ ?_ hx)⟩
        · rintro rfl rfl
          exact hspares.1 (List.mem_singleton.mp hword) hi
        · rintro rfl
          exact hspares.2 hword)
      hr ⟨⟨hl, hlive⟩, .refl n pcc g⟩
    refine (hloop.2.trans ?_).trans (keepsSet_write _ pcc' _)
    split
    · exact keepsSet_write r.1 pcc' _
    · exact .refl n pcc r.1

/-- A command keeps the sets it spares. -/
theorem command_keepsSet (hS : S.Documented blank ident) (hl : Linked g)
    (hlive : ∃ m, g.subs pcc' = some m) (hspares : SparesLine S n pcc pcc' bufin)
    (h : g.command S B env pcc' bufin = .ok g') : KeepsSet n pcc g g' := by
  by_cases hlist : lineWord S bufin = str "list"
  · have hget : S.getidentifier bufin 0 = (str "list", (S.getidentifier bufin 0).2) :=
      Prod.ext hlist rfl
    have hcommand : g.command S B env pcc' bufin = g.listText.map (g.write pcc') := by
      unfold Globals.command
      rw [hget]
      rfl
    rw [hcommand] at h
    obtain ⟨text, -, rfl⟩ := map_eq_ok.mp h
    exact keepsSet_write g pcc' text
  · obtain ⟨f, hf, hrun⟩ := command_form hS hlist
    exact Form.run_keepsSet hl hlive hf hspares ((hrun B env pcc' g).symm.trans h)

/-! ## Events -/

/-- The event does not delete the set, nor does it end the connection or have it leave a
set. -/
def Spares (S : Scanners) (n : Bytes) (pcc : ConnId) : Event → Prop
  | .line pcc' _ bufin => SparesLine S n pcc pcc' bufin
  | .destroyed pcc' => pcc' ≠ pcc
  | .connected _ _ | .firstprompt _ | .select_poll _ => True

/-- An event keeps the sets it spares. -/
theorem step_keepsSet (hS : S.Documented blank ident) (hl : Linked g) {e : Event}
    (he : Spares S n pcc e) (h : step S B g e = some g') : KeepsSet n pcc g g' := by
  obtain ⟨hp, hr⟩ := step_eq_some h
  cases e with
  | connected pcc' gethostname =>
    obtain rfl := Except.ok.inj hr
    exact ⟨fun _ hn => hn, fun _ _ => rfl, fun _ _ hc => hc⟩
  | firstprompt pcc' =>
    obtain rfl := Except.ok.inj hr
    exact keepsSet_of_sameStores (((write_sameStores g pcc' _).trans (prompt_sameStores _ _)).trans
      ((writePrompt_sameStores _ pcc').trans (flush_sameStores _ pcc')))
  | line pcc' env bufin =>
    obtain ⟨g₁, hc, rfl⟩ := map_eq_ok.mp hr
    exact (command_keepsSet hS hl (live_iff.mp hp) he hc).trans
      (keepsSet_of_sameStores (endLine_sameStores g₁ pcc'))
  | destroyed pcc' => exact keepsSet_destroy he hr
  | select_poll env =>
    -- the schedule changes its entries and measures, and does nothing else
    exact pollSchedule_keeps (I := fun g₁ => KeepsSet n pcc g g₁)
      (fun g₁ es hI => hI.trans ⟨fun _ hn => hn, fun _ _ => rfl, fun _ _ hc => hc⟩)
      (fun g₁ t prs r hm hI => hI.trans (keepsSet_measure hm)) hr (.refl n pcc g)

/-! ## What the collector takes for granted -/

/-- What the collector asks a set to be. -/
def asked (s : CollectionSet) : Bytes × Int × List MeasurePoint :=
  (s.fullkey, s.base_interval, s.lptagmp.map fun t => ⟨t.fn, t.params⟩)

/-- The qigong has made the set as it was asked for. -/
def Made (g : Globals) (s : CollectionSet) (prs : SetId) : Prop :=
  g.mrecordsets.find? s.fullkey = some prs ∧
    (g.recordsets.find? prs).map RecordSet.core = some (asked s)

/-- How a set stands on the qigong when the collector has it in a state: made behind
`create`, scheduled behind `activate`, and told to the connection behind `sub`. -/
def Standing (pcc : ConnId) (g : Globals) (s : CollectionSet) : CSState → Prop
  | .activate_remote => ∃ prs, Made g s prs
  | .sub_remote => ∃ prs, Made g s prs ∧ 0 < entriesOf prs g.schedule
  | .collect => ∃ prs, Made g s prs ∧ 0 < entriesOf prs g.schedule ∧ g.HasChannel prs pcc
  | .unmatched | .del_remote | .del_remote_for_create | .create_remote | .unsub_remote => True

variable {s : CollectionSet} {prs : SetId}

theorem KeepsSet.made (h : KeepsSet s.fullkey pcc g g') (hm : Made g s prs) : Made g' s prs :=
  ⟨h.name prs hm.1, (h.core prs hm.1).trans hm.2⟩

theorem Made.lives (h : Made g s prs) : ∃ rs, g.recordsets.find? prs = some rs ∧ rs.core = asked s := by
  obtain ⟨rs, hr, hcore⟩ := Option.map_eq_some_iff.mp h.2
  exact ⟨rs, hr, hcore⟩

/-- A set that is kept, and no entry of it lost, stands as it did. -/
theorem KeepsSet.standing (h : KeepsSet s.fullkey pcc g g')
    (hentries : ∀ prs, Made g s prs → entriesOf prs g.schedule ≤ entriesOf prs g'.schedule)
    {st : CSState} (hst : Standing pcc g s st) : Standing pcc g' s st := by
  -- by what is taken for granted in the state: the set, its entry, its channel
  cases st with
  | activate_remote =>
    obtain ⟨prs, hm⟩ := hst
    exact ⟨prs, h.made hm⟩
  | sub_remote =>
    obtain ⟨prs, hm, he⟩ := hst
    exact ⟨prs, h.made hm, he.trans_le (hentries prs hm)⟩
  | collect =>
    obtain ⟨prs, hm, he, hc⟩ := hst
    exact ⟨prs, h.made hm, he.trans_le (hentries prs hm), h.channel prs hm.1 hc⟩
  | unmatched => trivial
  | del_remote => trivial
  | del_remote_for_create => trivial
  | create_remote => trivial
  | unsub_remote => trivial

/-- **Step lemma**: an event leaves standing the sets it spares. -/
theorem step_standing (hS : S.Documented blank ident) (hl : Linked g) {e : Event}
    (he : Spares S s.fullkey pcc e) (h : step S B g e = some g') {st : CSState}
    (hst : Standing pcc g s st) : Standing pcc g' s st := by
  have hkeeps := step_keepsSet hS hl he h
  refine hkeeps.standing (fun prs hm => ?_) hst
  -- the set lives behind the event, so none of its entries was lost
  obtain ⟨rs, hr, -⟩ := (hkeeps.made hm).lives
  obtain ⟨-, heq⟩ := step_adds hl h prs (.inl ⟨rs, hr⟩)
  rw [heq]
  exact Nat.le_add_right _ _

end Qigong.Together
