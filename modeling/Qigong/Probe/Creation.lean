import Qigong.Probe.Items
import Qigong.Probe.Links

/-!
# Creation

`create` is refused as a whole, or registers one set. The set holds the points that could
be made of the items of its definition, in their order, and every item left out has been
complained of (`create_outcome`): a set may hold fewer points than were asked for
(`created_short`).
-/

namespace Qigong.Probe

open Globals

variable {S : Scanners} {B : Build} {blank ident : UInt8 → Bool} {g g' : Globals} {pcc : ConnId}

/-- What may come of a definition with these items, behind a name and an interval: the
errors written, the set, and the state behind the command. -/
inductive Outcome (B : Build) (g : Globals) (name : Bytes) (interval : Int) (items : List Item) :
    Bytes → Option RecordSet → Globals → Prop
  | refused {text : Bytes} {g' : Globals} (htext : text ≠ []) (hsame : SameStores g g') :
      Outcome B g name interval items text none g'
  | made {rs : RecordSet} {g' : Globals} (hfree : g.mrecordsets.find? rs.name = none)
      (hname : rs.name = name) (hinterval : rs.interval = interval)
      (hpoints : rs.lmp = pointsMade B.mmpcreators items) (hsome : rs.lmp ≠ [])
      (hsame : SameStores (g.register rs) g') :
      Outcome B g name interval items (items.flatMap (Item.refusal B.mmpcreators)) (some rs) g'

/-- A definition is refused with an error, or makes a set of the points of its items. -/
theorem createrecordset_outcome (hS : S.Documented blank ident) (B : Build) (g : Globals)
    {s : Bytes} (hlen : s.length < npos) {items : List Item}
    (hi : Items blank ident (s.drop (S.getinteger s (S.getidentifier s 0).2).2) items) :
    (∃ text, text ≠ [] ∧ createrecordset S B.mmpcreators g.mrecordsets s = .ok (text, none)) ∨
    ∃ rs : RecordSet, g.mrecordsets.find? rs.name = none ∧ rs.name = (S.getidentifier s 0).1 ∧
      rs.interval = (S.getinteger s (S.getidentifier s 0).2).1 ∧
      rs.lmp = pointsMade B.mmpcreators items ∧ rs.lmp ≠ [] ∧
      createrecordset S B.mmpcreators g.mrecordsets s
        = .ok (items.flatMap (Item.refusal B.mmpcreators), some rs) := by
  have herr : ∀ text, creationError text ≠ [] := fun text => by simp [creationError, endl]
  unfold createrecordset
  dsimp only
  split
  · exact .inl ⟨_, herr _, rfl⟩
  split
  · exact .inl ⟨_, herr _, rfl⟩
  split
  · exact .inl ⟨_, herr _, rfl⟩
  split
  · exact .inl ⟨_, herr _, rfl⟩
  rename_i hfree hinterval
  have hfuel : s.length - (S.getinteger s (S.getidentifier s 0).2).2 < s.length + 1 := by omega
  rw [readpoints_items hS B.mmpcreators hlen hfuel hi, List.nil_append, List.nil_append]
  dsimp only [Except.map]
  by_cases hnil : pointsMade B.mmpcreators items = []
  · rw [if_pos hnil]
    exact .inl ⟨_, by simp [herr], rfl⟩
  · rw [if_neg hnil]
    refine .inr ⟨⟨_, _, _, .empty⟩, ?_, rfl, rfl, rfl, hnil, rfl⟩
    simpa [Lib.OrdMap.contains] using hfree

/-- **`create` registers one set, with the points that could be made of its items in their
order, and complains of every other item; or it leaves the stores as they are.** -/
theorem create_outcome (hS : S.Documented blank ident) (B : Build) (g : Globals) (pcc : ConnId)
    {bufin : Bytes} {p : Nat} (hlen : bufin.length < npos) (hp : p ≤ bufin.length) :
    let s := bufin.drop p
    let i := S.getidentifier s 0
    let t := S.getinteger s i.2
    (∃ items, Items blank ident (s.drop t.2) items) ∧
    ∀ items, Items blank ident (s.drop t.2) items → ∃ text made g',
      createrecordset S B.mmpcreators g.mrecordsets s = .ok (text, made) ∧
      g.createCommand S B pcc bufin p = .ok g' ∧ Outcome B g i.1 t.1 items text made g' := by
  intro s i t
  refine ⟨items_total blank ident _, fun items hi => ?_⟩
  have hlen' : s.length < npos := by
    rw [List.length_drop]
    omega
  have hcommand : ∀ text made, createrecordset S B.mmpcreators g.mrecordsets s = .ok (text, made) →
      g.createCommand S B pcc bufin p = .ok
        (made.elim (g.write pcc (text ++ (str "creation failed" ++ endl))) fun rs =>
          (g.register rs).write pcc
            (text ++ (rs.dump ++ endl) ++ (str "creation done." ++ endl))) := by
    intro text made h
    rw [Globals.createCommand, substr_ok hp]
    dsimp only [Except.bind]
    rw [h]
    cases made <;> rfl
  rcases createrecordset_outcome hS B g hlen' hi with ⟨text, htext, h⟩ |
    ⟨rs, hfree, hname, hinterval, hpoints, hsome, h⟩
  · exact ⟨text, none, _, h, hcommand _ _ h, .refused htext (write_sameStores g pcc _)⟩
  · exact ⟨_, some rs, _, h, hcommand _ _ h,
      .made hfree hname hinterval hpoints hsome (write_sameStores _ pcc _)⟩

/-! ## A set with fewer points -/

/-- The definition of a set of two points, of which one is not known. -/
def shortDefinition : Bytes := str " web 60 load() nosuch()"

theorem items_shortDefinition :
    Items isBlank isIdent (shortDefinition.drop 7)
      [.point (str "load") [], .point (str "nosuch") []] := by
  have hid : ∀ n : Bytes, n ≠ [] → (∀ c ∈ n, isIdent c = true) →
      (∀ c, n.head? = some c → isBlank c = false) → Identifier isBlank isIdent n :=
    fun n h₁ h₂ h₃ => ⟨h₁, h₂, h₃⟩
  have hskip : ∀ c ∈ str " ", isBlank c = true := forall_mem_of_all (by decide)
  have hload : Identifier isBlank isIdent (str "load") := by
    refine hid _ (by decide) (forall_mem_of_all (by decide)) fun c hc => ?_
    obtain rfl := Option.some.inj hc
    decide
  have hnosuch : Identifier isBlank isIdent (str "nosuch") := by
    refine hid _ (by decide) (forall_mem_of_all (by decide)) fun c hc => ?_
    obtain rfl := Option.some.inj hc
    decide
  have hparam : 41 ∉ ([] : Bytes) := List.not_mem_nil
  show Items isBlank isIdent (str " " ++ (str "load" ++ 40 :: ([] ++ 41 ::
    (str " " ++ (str "nosuch" ++ 40 :: ([] ++ 41 :: [])))))) _
  exact .closed hskip hload (by decide) hparam
    (.closed hskip hnosuch (by decide) hparam (.none fun c hc => absurd hc List.not_mem_nil))

/-- The position behind the interval of the definition. -/
theorem interval_shortDefinition :
    (sampleScanners.getidentifier shortDefinition 0).1 = str "web" ∧
      sampleScanners.getinteger shortDefinition (sampleScanners.getidentifier shortDefinition 0).2
        = (60, 7) := by
  decide +kernel

theorem create_outcome_short :
    ∃ text made g', createrecordset sampleScanners sampleBuild.mmpcreators boot.mrecordsets
        shortDefinition = .ok (text, made) ∧
      boot.createCommand sampleScanners sampleBuild 0 (str "create" ++ shortDefinition) 6 = .ok g' ∧
      Outcome sampleBuild boot (str "web") 60 [.point (str "load") [], .point (str "nosuch") []]
        text made g' := by
  obtain ⟨hname, hinterval⟩ := interval_shortDefinition
  have hlen : (str "create" ++ shortDefinition).length < npos := by decide
  have hp : 6 ≤ (str "create" ++ shortDefinition).length := by decide
  have h := (create_outcome sampleScanners_documented sampleBuild boot 0 hlen hp).2
  rw [show (str "create" ++ shortDefinition).drop 6 = shortDefinition by decide, hinterval, hname]
    at h
  exact h _ items_shortDefinition

/-- **A set may hold fewer points than were asked for**: an item whose function is not
known is complained of and left out, and the set is registered. -/
theorem created_short :
    ¬ ∀ (S : Scanners) (blank ident : UInt8 → Bool) (B : Build) (g : Globals) (s text : Bytes)
      (rs : RecordSet) (items : List Item), S.Documented blank ident → s.length < npos →
      createrecordset S B.mmpcreators g.mrecordsets s = .ok (text, some rs) →
      Items blank ident (s.drop (S.getinteger s (S.getidentifier s 0).2).2) items →
      rs.lmp.map Except.ok = items.map (Item.make B.mmpcreators) := by
  intro hall
  have hany : ((createrecordset sampleScanners sampleBuild.mmpcreators boot.mrecordsets
      shortDefinition).toOption.bind Prod.snd).any (fun rs => rs.lmp.length == 1) = true := by
    decide +kernel
  cases h : createrecordset sampleScanners sampleBuild.mmpcreators boot.mrecordsets
      shortDefinition with
  | error x => rw [h] at hany; cases hany
  | ok r =>
    rw [h] at hany
    obtain ⟨rs, hrs, hany⟩ := (Option.any_eq_true _ _).mp hany
    obtain ⟨text, made⟩ := r
    obtain rfl : made = some rs := hrs
    have hitems := items_shortDefinition
    rw [show (7 : Nat) = (sampleScanners.getinteger shortDefinition
      (sampleScanners.getidentifier shortDefinition 0).2).2 by
        rw [interval_shortDefinition.2]] at hitems
    have hpoints := congrArg List.length (hall _ _ _ sampleBuild boot shortDefinition text rs _
      sampleScanners_documented (by decide) h hitems)
    rw [List.length_map, List.length_map, beq_iff_eq.mp hany] at hpoints
    exact absurd hpoints (by decide)

end Qigong.Probe
