import Qigong.Probe.Items

/-!
# Where a command line is read

`create` takes a `substr` of the line, and `createrecordset` indexes the definition behind
every name of a measure point. The scanners give `npos` at the end of a string, and neither
place asks for it: `create` alone throws, and a name that ends the definition is looked
behind of at `npos`. `lineAccesses` are the places asked for, and they are in bounds exactly
when the line is `Guarded` (`accesses_in_bounds_iff`).
-/

namespace Qigong.Probe

open Globals

variable {S : Scanners} {B : Build} {blank ident : UInt8 → Bool} {g : Globals}

/-! ## Accesses -/

/-- `s.substr (pos)` or `s.substr (pos, n)`, and `s[pos]`. -/
inductive Access where
  | substr (s : Bytes) (pos : Nat)
  | index (s : Bytes) (pos : Nat)

/-- The position is not past the end: at the end `substr` is empty, and an index gives `NUL`. -/
def Access.InBounds : Access → Prop
  | .substr s pos => pos ≤ s.length
  | .index s pos => pos ≤ s.length

instance (a : Access) : Decidable a.InBounds :=
  match a with
  | .substr s pos => inferInstanceAs (Decidable (pos ≤ s.length))
  | .index s pos => inferInstanceAs (Decidable (pos ≤ s.length))

/-- The accesses behind a name (qigong.cpp:103–114). -/
def paramAccesses (s : Bytes) (p : Nat) : List Access :=
  .index s p ::
    if p ≠ npos ∧ s[p]? = some 40 ∧ (getparam s p).isSome = true then [.substr s (p + 1)] else []

/-- `readpoints`, with the accesses made. -/
def readpointsAccessed (S : Scanners) (mmpcreators : MmpCreators) (s : Bytes) :
    (fuel p : Nat) → List MeasurePoint × Bytes →
      List Access × Except Exn (List MeasurePoint × Bytes)
  | 0, p, r => ([], if p = npos then .ok r else .error .endless)
  | fuel + 1, p, r =>
    if p = npos then ([], .ok r)
    else
      let i := S.getidentifier s p
      if i.1 = [] then
        ([], if i.2 = npos then .ok r
          else .ok (r.1, r.2 ++ creationError (str "measure-point identifier is 0 bytes long.")))
      else
        let rest : List Access × Except Exn (List MeasurePoint × Bytes) := match getparam s i.2 with
          | none => ([], .ok (r.1, r.2 ++ creationError (str "unmatched parenthesis in param.")))
          | some (param, next) =>
            match createpoint mmpcreators i.1 param with
            | .error text => readpointsAccessed S mmpcreators s fuel next (r.1, r.2 ++ text)
            | .ok pmp => readpointsAccessed S mmpcreators s fuel next (r.1 ++ [pmp], r.2)
        (paramAccesses s i.2 ++ rest.1, rest.2)

/-- The accesses change nothing. -/
theorem readpointsAccessed_snd (S : Scanners) (mmpcreators : MmpCreators) (s : Bytes) (fuel p : Nat)
    (r : List MeasurePoint × Bytes) :
    (readpointsAccessed S mmpcreators s fuel p r).2 = readpoints S mmpcreators s fuel p r := by
  induction fuel generalizing p r with
  | zero => rfl
  | succ fuel ih =>
    unfold readpointsAccessed readpoints
    split
    · rfl
    dsimp only
    split
    · rfl
    cases getparam s (S.getidentifier s p).2 with
    | none => rfl
    | some d =>
      dsimp only
      cases createpoint mmpcreators (S.getidentifier s p).1 d.1 with
      | error text => exact ih _ _
      | ok pmp => exact ih _ _

/-- A definition whose items are read: its name is free, and it has an interval
(qigong.cpp:65–84). -/
def HeadAccepted (S : Scanners) (mrecordsets : Lib.OrdMap Bytes SetId) (s : Bytes) : Prop :=
  let i := S.getidentifier s 0
  i.1 ≠ [] ∧ i.2 ≠ npos ∧ mrecordsets.contains i.1 = false ∧ (S.getinteger s i.2).1 ≠ 0

instance (S : Scanners) (mrecordsets : Lib.OrdMap Bytes SetId) (s : Bytes) :
    Decidable (HeadAccepted S mrecordsets s) :=
  inferInstanceAs (Decidable (_ ∧ _ ∧ _ ∧ _))

/-- The accesses of `createrecordset`. -/
def creationAccesses (S : Scanners) (mmpcreators : MmpCreators)
    (mrecordsets : Lib.OrdMap Bytes SetId) (s : Bytes) : List Access :=
  if HeadAccepted S mrecordsets s then
    (readpointsAccessed S mmpcreators s (s.length + 1)
      (S.getinteger s (S.getidentifier s 0).2).2 ([], [])).1
  else []

/-- The accesses of `lineread`: only `create` looks into the line but through the scanners. -/
def lineAccesses (S : Scanners) (B : Build) (g : Globals) (bufin : Bytes) : List Access :=
  let i := S.getidentifier bufin 0
  if i.1 = str "create" then
    .substr bufin i.2 ::
      match Qigong.substr bufin i.2 with
      | .ok s => creationAccesses S B.mmpcreators g.mrecordsets s
      | .error _ => []
  else []

/-! ## The items of a definition -/

/-- The accesses behind the items are in bounds exactly where none ends the definition. -/
theorem items_in_bounds (hS : S.Documented blank ident) (mmpcreators : MmpCreators) {s : Bytes}
    (hlen : s.length < npos) {fuel p : Nat} (hfuel : s.length - p < fuel) {items : List Item}
    (h : Items blank ident (s.drop p) items) (r : List MeasurePoint × Bytes) :
    (∀ a ∈ (readpointsAccessed S mmpcreators s fuel p r).1, a.InBounds) ↔
      ∀ n, Item.last n ∉ items := by
  induction fuel generalizing p items r with
  | zero => omega
  | succ fuel ih =>
    have hread := h.read hS hlen
    unfold readpointsAccessed
    dsimp only
    by_cases hp : p = npos
    · rw [if_pos hp]
      rw [hp, List.drop_eq_nil_of_le hlen.le] at h
      obtain rfl := items_nil h
      simp
    rw [if_neg hp]
    cases hread with
    | none hget => simp [hget]
    | @nameless q hget hq => simp [hget]
    | @last n hn hget =>
      -- the position behind the name is `npos`
      refine iff_of_false (fun hall => ?_) fun hno => hno n List.mem_cons_self
      have hat := hall (.index s npos) (by
        rw [hget]
        dsimp only
        rw [if_neg hn]
        exact List.mem_append_left _ List.mem_cons_self)
      exact absurd hat (Nat.not_le.mpr hlen)
    | @unclosed n q hn hget hq hparam =>
      rw [hget]
      dsimp only
      rw [if_neg hn, hparam]
      simp [paramAccesses, hparam, Access.InBounds, hq.le]
    | @point n param q next items hn hget hq hparam hnext hend hrest =>
      have hhere : ∀ a ∈ paramAccesses s q, a.InBounds := by
        intro a ha
        unfold paramAccesses at ha
        rcases List.mem_cons.mp ha with rfl | ha
        · exact hq.le
        · split at ha
          · obtain rfl := List.mem_singleton.mp ha
            exact hq
          · exact absurd ha List.not_mem_nil
      have hlast : (∀ n', Item.last n' ∉ Item.point n param :: items) ↔
          ∀ n', Item.last n' ∉ items := by
        simp
      have hsplit : ∀ l : List Access, (∀ a ∈ paramAccesses s q ++ l, a.InBounds) ↔
          ∀ a ∈ l, a.InBounds := by
        intro l
        rw [List.forall_mem_append]
        exact and_iff_right hhere
      rw [hget, hlast]
      dsimp only
      rw [if_neg hn, hparam]
      dsimp only
      rw [hsplit]
      cases createpoint mmpcreators n param with
      | error text => exact ih (by omega) hrest _
      | ok pmp => exact ih (by omega) hrest _

/-! ## The line -/

/-- The text ends with the name of a measure point, without parentheses. -/
def EndsBare (blank ident : UInt8 → Bool) (text : Bytes) : Prop :=
  ∃ items n, Items blank ident text items ∧ Item.last n ∈ items

/-- A line whose places are all there: if it is a `create`, a definition stands behind the
word, and one whose items are read does not end with a bare name. -/
def Guarded (S : Scanners) (blank ident : UInt8 → Bool) (g : Globals) (bufin : Bytes) : Prop :=
  let i := S.getidentifier bufin 0
  let s := bufin.drop i.2
  i.1 = str "create" → i.2 ≠ npos ∧ (HeadAccepted S g.mrecordsets s →
    ¬ EndsBare blank ident (s.drop (S.getinteger s (S.getidentifier s 0).2).2))

theorem creation_in_bounds_iff (hS : S.Documented blank ident) (mmpcreators : MmpCreators)
    (mrecordsets : Lib.OrdMap Bytes SetId) {s : Bytes} (hlen : s.length < npos) :
    (∀ a ∈ creationAccesses S mmpcreators mrecordsets s, a.InBounds) ↔
      (HeadAccepted S mrecordsets s →
        ¬ EndsBare blank ident (s.drop (S.getinteger s (S.getidentifier s 0).2).2)) := by
  unfold creationAccesses
  split
  case isFalse hhead => exact iff_of_true (by simp) fun h => absurd h hhead
  case isTrue hhead =>
    have hfuel : s.length - (S.getinteger s (S.getidentifier s 0).2).2 < s.length + 1 := by omega
    constructor
    · rintro hall - ⟨items, n, hitems, hn⟩
      exact (items_in_bounds hS mmpcreators hlen hfuel hitems _).mp hall n hn
    · intro hbare
      obtain ⟨items, hitems⟩ := items_total blank ident
        (s.drop (S.getinteger s (S.getidentifier s 0).2).2)
      refine (items_in_bounds hS mmpcreators hlen hfuel hitems _).mpr fun n hn => ?_
      exact hbare hhead ⟨items, n, hitems, hn⟩

/-- A `create` with nothing behind it throws. -/
theorem createCommand_throws {bufin : Bytes} {p : Nat} {pcc : ConnId}
    (h : ¬ (Access.substr bufin p).InBounds) :
    g.createCommand S B pcc bufin p = .error .out_of_range := by
  rw [Globals.createCommand, substr_throws (Nat.not_le.mp h)]
  rfl

/-- **A line is read within its bounds exactly when it is guarded**, in every state. -/
theorem accesses_in_bounds_iff (hS : S.Documented blank ident) (B : Build) (g : Globals)
    {bufin : Bytes} (hlen : bufin.length < npos) :
    (∀ a ∈ lineAccesses S B g bufin, a.InBounds) ↔ Guarded S blank ident g bufin := by
  unfold lineAccesses Guarded
  dsimp only
  split
  case isFalse hword => exact iff_of_true (by simp) fun h => absurd h hword
  case isTrue hword =>
    rw [List.forall_mem_cons]
    by_cases hp : (S.getidentifier bufin 0).2 = npos
    · -- nothing stands behind the word
      refine iff_of_false (fun h => ?_) fun h => (h hword).1 hp
      have hat : (S.getidentifier bufin 0).2 ≤ bufin.length := h.1
      omega
    · have hle : (S.getidentifier bufin 0).2 ≤ bufin.length := by
        rw [hS.getidentifier] at hp ⊢
        exact ((scan_progress blank ident bufin 0).resolve_left hp).2.le
      have hlen' : (bufin.drop (S.getidentifier bufin 0).2).length < npos := by
        rw [List.length_drop]
        omega
      rw [substr_ok hle]
      dsimp only
      rw [creation_in_bounds_iff hS _ _ hlen']
      constructor
      · exact fun h _ => ⟨hp, h.2⟩
      · exact fun h => ⟨hle, (h hword).2⟩

/-- A parameter, even an empty one, ends the definition safely. -/
theorem accesses_in_bounds_iff_param :
    (∀ a ∈ lineAccesses sampleScanners sampleBuild boot (str "create web 60 load()"), a.InBounds) ∧
      Guarded sampleScanners isBlank isIdent boot (str "create web 60 load()") := by
  have hbounds : ∀ a ∈ lineAccesses sampleScanners sampleBuild boot (str "create web 60 load()"),
      a.InBounds := by
    decide +kernel
  exact ⟨hbounds,
    (accesses_in_bounds_iff sampleScanners_documented sampleBuild boot (by decide)).mp hbounds⟩

/-- A name that ends the definition is looked behind of, past the end. -/
example : ∃ a ∈ lineAccesses sampleScanners sampleBuild boot (str "create web 60 load"),
    ¬ a.InBounds := by
  decide +kernel

/-- **`create` alone is read past its end**, by a qigong that has just started. -/
theorem create_past_end :
    ¬ ∀ (S : Scanners) (blank ident : UInt8 → Bool) (B : Build) (es : List Event) (g : Globals)
      (bufin : Bytes), S.Documented blank ident → Lib.run (step S B) boot es = some g →
      bufin.length < npos → ∀ a ∈ lineAccesses S B g bufin, a.InBounds := by
  intro hall
  have h := hall sampleScanners isBlank isIdent sampleBuild [] boot (str "create")
    sampleScanners_documented rfl (by decide)
  have hpast : ¬ ∀ a ∈ lineAccesses sampleScanners sampleBuild boot (str "create"), a.InBounds := by
    decide +kernel
  exact hpast h

end Qigong.Probe
