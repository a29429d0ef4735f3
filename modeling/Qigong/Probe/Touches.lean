import Qigong.Lib.Machine
import Qigong.Probe.Commands
import Qigong.Probe.Views

/-!
# What a command leaves alone

A command changes what the names in it lead to, and no other name; it counts no prompt, and
only `qiging` changes the prompt itself (`command_touches`).
-/

namespace Qigong.Probe

open Globals

variable {S : Scanners} {B : Build} {blank ident : UInt8 → Bool} {env : Env}
variable {g g' g'' : Globals} {pcc : ConnId} {bufin : Bytes}

/-- Between the states only what these names lead to has changed, texts and the schedule
apart. -/
structure Touches (names : List Bytes) (g g' : Globals) : Prop where
  view : ∀ n, n ∉ names → g'.view n = g.view n
  nbp : ∀ pcc, g'.nbp pcc = g.nbp pcc
  prompt : g'.prompt = g.prompt

theorem Touches.refl (names : List Bytes) (g : Globals) : Touches names g g :=
  ⟨fun _ _ => rfl, fun _ => rfl, rfl⟩

theorem Touches.trans {names : List Bytes} (h : Touches names g g') (h' : Touches names g' g'') :
    Touches names g g'' :=
  ⟨fun n hn => (h'.view n hn).trans (h.view n hn), fun c => (h'.nbp c).trans (h.nbp c),
    h'.prompt.trans h.prompt⟩

theorem touches_write (names : List Bytes) (g : Globals) (pcc : ConnId) (text : Bytes) :
    Touches names g (g.write pcc text) :=
  ⟨fun n _ => by rw [(write_sameStores g pcc text).view], fun c => nbp_write g pcc c text, rfl⟩

/-- A change of one name touches it. -/
theorem Resets.touches {names : List Bytes} {n : Bytes} {v : Option RecordSet}
    (h : Resets g g' n v) (hn : n ∈ names) : Touches names g g' :=
  ⟨fun _ hn' => h.other fun heq => hn' (heq ▸ hn), h.nbp, h.prompt⟩

/-- `delete` of one identifier touches it. -/
theorem deleteOne_touches {names : List Bytes} {i : Bytes} {x : Globals × Bool} (hl : Linked g)
    (hi : i ∈ names) (h : deleteOne pcc g i = .ok x) : Touches names g x.1 := by
  obtain ⟨y, hy, rfl⟩ := map_eq_ok.mp h
  rcases suppress_cases hy with ⟨-, rfl⟩ | ⟨prs, rs, hn, -, -, rfl⟩
  · exact (touches_write names g pcc _).trans (touches_write names _ pcc _)
  · exact ((hl.delete_resets hn _).touches hi).trans (touches_write names _ pcc _)

/-- `activate` touches no name: it changes the schedule. -/
theorem activateOne_touches {names : List Bytes} {i : Bytes} {x : Globals × Bool}
    (h : activateOne env pcc g i = .ok x) : Touches names g x.1 := by
  obtain ⟨y, hy, rfl⟩ := map_eq_ok.mp h
  have hact : Touches names g y.1 := by
    rcases activate_cases hy with ⟨-, rfl⟩ | ⟨prs, e, g₁, -, hm, rfl⟩
    · exact touches_write names g pcc _
    · obtain ⟨rs, -, -, htell⟩ := measure_tells hm
      refine ⟨fun n _ => ?_, fun c => tell_nbp htell c, (tell_texts htell).1⟩
      show g₁.view n = g.view n
      rw [(measure_stores hm).1.view]
  split <;> exact hact.trans (touches_write names _ pcc _)

/-- `add_subs` or `remove_subs`: the set of the name has other channels. -/
theorem subsOne_touches {act : Globals → ConnId → SetId → Except Exn Globals} {told : Bytes}
    {names : List Bytes} {i : Bytes} {x : Globals × Bool}
    (hact : ∀ prs g', g.mrecordsets.find? i = some prs → act g pcc prs = .ok g' →
      ∃ v, Resets g g' i v)
    (hi : i ∈ names) (h : subsOne act told pcc g i = .ok x) : Touches names g x.1 := by
  unfold subsOne at h
  cases hn : g.mrecordsets.find? i with
  | none =>
    rw [hn] at h
    obtain rfl := Except.ok.inj h
    exact touches_write names g pcc _
  | some prs =>
    rw [hn] at h
    obtain ⟨g₁, hg₁, rfl⟩ := map_eq_ok.mp h
    obtain ⟨v, hv⟩ := hact prs g₁ hn hg₁
    exact (hv.touches hi).trans (touches_write names g₁ pcc _)

/-- **One identifier of a command**: no other name is touched. -/
theorem Act.one_touches (a : Act) {names : List Bytes} {i : Bytes} {x : Globals × Bool}
    (hl : Linked g) (hi : i ∈ names) (h : a.one env pcc g i = .ok x) : Touches names g x.1 := by
  cases a with
  | delete => exact deleteOne_touches hl hi h
  | activate => exact activateOne_touches h
  | sub =>
    refine subsOne_touches (fun prs g' hn hact => ?_) hi h
    obtain ⟨⟨rs, hr⟩, rfl⟩ := add_subs_eq hact
    exact ⟨_, hl.relink_resets (f := fun m => m.insert pcc 1) (k := fun m => m.insert prs 1) hn hr⟩
  | unsub =>
    refine subsOne_touches (fun prs g' hn hact => ?_) hi h
    obtain ⟨rs, hr, -⟩ := hl.registered i prs hn
    obtain rfl := remove_subs_eq hact
    exact ⟨_, hl.relink_resets (f := fun m => m.erase pcc) (k := fun m => m.erase prs) hn hr⟩

/-- And the stores stay linked. -/
theorem Act.one_linked (a : Act) {i : Bytes} {x : Globals × Bool}
    (hl : Linked g ∧ ∃ m, g.subs pcc = some m) (h : a.one env pcc g i = .ok x) :
    Linked x.1 ∧ ∃ m, x.1.subs pcc = some m := by
  have hacts := linked_keptByActs env pcc
  cases a with
  | delete => exact deleteOne_keeps hacts.write hacts.suppress i x h hl
  | activate => exact hacts.activateOne i x h hl
  | sub => exact subsOne_keeps hacts.write (fun prs g' => hacts.add_subs g prs g') i x h hl
  | unsub => exact subsOne_keeps hacts.write (fun prs g' => hacts.remove_subs g prs g') i x h hl

/-! ## Commands -/

/-- The name a definition begins with. -/
theorem createrecordset_name {mmpcreators : MmpCreators} {m : Lib.OrdMap Bytes SetId}
    {d text : Bytes} {rs : RecordSet}
    (h : createrecordset S mmpcreators m d = .ok (text, some rs)) :
    rs.name = (S.getidentifier d 0).1 := by
  unfold createrecordset at h
  dsimp only at h
  split at h
  · cases h
  split at h
  · cases h
  split at h
  · cases h
  split at h
  · cases h
  obtain ⟨r, -, hr⟩ := map_eq_ok.mp h
  split at hr
  · cases hr
  · obtain rfl := Option.some.inj (Prod.mk.inj hr).2
    rfl

/-- `create` touches the name of its set. -/
theorem createCommand_touches {p : Nat} (hl : Linked g)
    (h : g.createCommand S B pcc bufin p = .ok g') :
    Touches [(S.getidentifier (bufin.drop p) 0).1] g g' := by
  obtain ⟨d, hd, h⟩ := bind_eq_ok.mp h
  obtain ⟨⟨text, made⟩, hmake, rfl⟩ := map_eq_ok.mp h
  have hdrop : d = bufin.drop p := by
    unfold substr at hd
    split at hd
    · cases hd
    · exact (Except.ok.inj hd).symm
  cases made with
  | none => exact touches_write _ g pcc _
  | some rs =>
    refine Touches.trans ((hl.register_resets rs).touches ?_) (touches_write _ _ pcc _)
    rw [createrecordset_name hmake, hdrop]
    exact List.mem_singleton.mpr rfl

theorem Form.run_touches {f : Form} (hl : Linked g) (hlive : ∃ m, g.subs pcc = some m)
    (hf : f.Spelled S bufin) (h : f.run S B env pcc bufin g = .ok g') :
    (∀ n, n ∉ named S bufin → g'.view n = g.view n) ∧ (∀ c, g'.nbp c = g.nbp c) ∧
      (lineWord S bufin ≠ str "qiging" → g'.prompt = g.prompt) ∧
      (lineWord S bufin = str "qiging" → g'.prompt = []) := by
  -- a form other than `qiging` touches its names only
  have hother : lineWord S bufin ≠ str "qiging" → Touches (named S bufin) g g' →
      (∀ n, n ∉ named S bufin → g'.view n = g.view n) ∧ (∀ c, g'.nbp c = g.nbp c) ∧
        (lineWord S bufin ≠ str "qiging" → g'.prompt = g.prompt) ∧
        (lineWord S bufin = str "qiging" → g'.prompt = []) :=
    fun hword ht => ⟨ht.view, ht.nbp, fun _ => ht.prompt, fun hx => absurd hx hword⟩
  have hquiet : lineWord S bufin ∉ Form.busy → lineWord S bufin ≠ str "qiging" := by
    intro hnot heq
    rw [heq] at hnot
    exact hnot (by decide)
  cases f with
  | silent =>
    obtain rfl := Except.ok.inj h
    exact hother (hquiet hf) (.refl _ g)
  | tells text =>
    obtain rfl := Except.ok.inj h
    exact hother (hquiet hf) (touches_write _ g pcc text)
  | qiging =>
    obtain rfl := Except.ok.inj h
    have ht := touches_write (named S bufin) g pcc (eos ++ str "qigong." ++ eos)
    exact ⟨ht.view, ht.nbp, fun hx => absurd hf hx, fun _ => rfl⟩
  | create p =>
    refine hother ?_ ?_
    · rw [lineWord, show S.getidentifier bufin 0 = (str "create", p) from hf]
      show str "create" ≠ str "qiging"
      decide
    · rw [named_create hf]
      exact createCommand_touches hl h
  | act a is missing =>
    refine hother ?_ ?_
    · have hne : ∀ w ∈ Act.allWords, w ≠ str "qiging" := by decide
      exact hne _ (Act.mem_allWords hf.1)
    · rw [named_act hf]
      obtain ⟨r, hr, rfl⟩ := map_eq_ok.mp h
      -- the loop touches one name after the other
      have hloop := Lib.foldlM_keeps
        (I := fun r : Globals × Nat =>
          (Linked r.1 ∧ ∃ m, r.1.subs pcc = some m) ∧ Touches is g r.1)
        (fun i hi r r' hbody hI => by
          obtain ⟨x, hx, rfl⟩ := map_eq_ok.mp hbody
          exact ⟨a.one_linked hI.1 hx, hI.2.trans (a.one_touches hI.1.1 hi hx)⟩)
        hr ⟨⟨hl, hlive⟩, .refl is g⟩
      refine (hloop.2.trans ?_).trans (touches_write is _ pcc _)
      split
      · exact touches_write is r.1 pcc _
      · exact .refl is r.1

/-- **A command leaves alone what it does not name**, and only `qiging` clears the prompt. -/
theorem command_touches (hS : S.Documented blank ident) (hlist : lineWord S bufin ≠ str "list")
    (hl : Linked g) (hlive : ∃ m, g.subs pcc = some m) (h : g.command S B env pcc bufin = .ok g') :
    (∀ n, n ∉ named S bufin → g'.view n = g.view n) ∧ (∀ c, g'.nbp c = g.nbp c) ∧
      (lineWord S bufin ≠ str "qiging" → g'.prompt = g.prompt) ∧
      (lineWord S bufin = str "qiging" → g'.prompt = []) := by
  obtain ⟨f, hf, hrun⟩ := command_form hS hlist
  exact Form.run_touches hl hlive hf ((hrun B env pcc g).symm.trans h)

end Qigong.Probe
