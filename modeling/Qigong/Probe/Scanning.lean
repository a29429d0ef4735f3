import Qigong.Probe.CollectedConn
import Mathlib.Data.List.TakeWhile

/-!
# What a command line holds

The loops of `lineread` and of `createrecordset` read the line as they go, and what they
read depends on the line alone: its identifiers (`idents`), and the measure points it
defines (`points`). With the scanner as documented both loops end, and they do what they
do for what is read, one after the other (`overIdents_eq`, `readpoints_eq`).
-/

namespace Qigong.Probe

open Globals

variable {S : Scanners} {B : Build} {blank ident : UInt8 → Bool}

/-! ## The scanner -/

/-- What is read stands in the string. -/
theorem getidentifier_subset (hS : S.Documented blank ident) (s : Bytes) (p : Nat) :
    (S.getidentifier s p).1 ⊆ s := by
  intro c hc
  rw [hS.getidentifier] at hc
  exact List.mem_of_mem_drop ((List.dropWhile_suffix _).subset ((List.takeWhile_prefix _).subset hc))

theorem noEol_of_subset {s t : Bytes} (h : t ⊆ s) (hs : NoEol s) : NoEol t := fun c hc => hs c (h hc)

/-- An identifier that is not empty leaves the position behind, or at the end. -/
theorem getidentifier_progress (hS : S.Documented blank ident) {s : Bytes} {p : Nat}
    (h : (S.getidentifier s p).1 ≠ []) :
    (S.getidentifier s p).2 = npos ∨
      p < (S.getidentifier s p).2 ∧ (S.getidentifier s p).2 < s.length := by
  rw [hS.getidentifier] at h ⊢
  have hpos := List.length_pos_iff.mpr h
  exact (scan_progress blank ident s p).imp_right fun hscan => by omega

/-- What a scan for identifiers gives: a run of their characters that no blank begins. -/
structure Identifier (blank ident : UInt8 → Bool) (n : Bytes) : Prop where
  ne_nil : n ≠ []
  run : ∀ c ∈ n, ident c = true
  head : ∀ c, n.head? = some c → blank c = false

theorem identifier_of_scan (hS : S.Documented blank ident) {s : Bytes} {p : Nat}
    (h : (S.getidentifier s p).1 ≠ []) : Identifier blank ident (S.getidentifier s p).1 := by
  rw [hS.getidentifier] at h ⊢
  refine ⟨h, fun c hc => List.mem_takeWhile_imp hc, fun c hc => ?_⟩
  simp only [scan] at hc
  rw [List.head?_takeWhile] at hc
  have hne := (Option.filter_eq_some_iff.mp hc).1
  simpa [hne] using List.head?_dropWhile_not blank (s.drop p)

/-- An identifier behind blanks is read, where what follows it does not go on. -/
theorem getidentifier_at (hS : S.Documented blank ident) {n : Bytes} (hn : Identifier blank ident n)
    (pre skip rest : Bytes) (hskip : ∀ c ∈ skip, blank c = true)
    (hrest : ∀ c, rest.head? = some c → ident c = false) :
    S.getidentifier (pre ++ (skip ++ (n ++ rest))) pre.length
      = (n, if rest = [] then npos else pre.length + skip.length + n.length) := by
  rw [hS.getidentifier]
  exact scan_at pre skip n rest hskip hn.head hn.run hn.ne_nil hrest

/-- A word of small letters is an identifier. -/
theorem identifier_word (hS : S.Documented blank ident) {word : Bytes} (hne : word ≠ [])
    (hword : ∀ c ∈ word, c ∈ str "abcdefghijklmnopqrstuvwxyz") : Identifier blank ident word where
  ne_nil := hne
  run c hc := (hS.letters c (hword c hc)).2
  head c hc := (hS.letters c (hword c (List.mem_of_mem_head? hc))).1

/-- A word of small letters, and a space behind it. -/
theorem getidentifier_word (hS : S.Documented blank ident) {word : Bytes} (hne : word ≠ [])
    (hword : ∀ c ∈ word, c ∈ str "abcdefghijklmnopqrstuvwxyz") (rest : Bytes) :
    S.getidentifier (word ++ 32 :: rest) 0 = (word, word.length) := by
  have h := getidentifier_at hS (identifier_word hS hne hword) [] [] (32 :: rest)
    (fun _ h => (nomatch h)) (fun c hc => Option.some.inj hc ▸ hS.space.2)
  simpa using h

/-! ## Identifiers -/

/-- The identifiers a command reads from a position on: up to the end, or to an empty one. -/
def identsFrom (S : Scanners) (bufin : Bytes) : (fuel p : Nat) → List Bytes
  | 0, _ => []
  | fuel + 1, p =>
    if p = npos then []
    else
      let i := S.getidentifier bufin p
      if i.1 = [] then [] else i.1 :: identsFrom S bufin fuel i.2

/-- The identifiers behind the command of a line. -/
def idents (S : Scanners) (bufin : Bytes) : List Bytes :=
  identsFrom S bufin (bufin.length + 1) (S.getidentifier bufin 0).2

theorem noEol_identsFrom (hS : S.Documented blank ident) {bufin : Bytes} (hline : NoEol bufin)
    {fuel p : Nat} : ∀ i ∈ identsFrom S bufin fuel p, NoEol i := by
  induction fuel generalizing p with
  | zero => exact fun i hi => absurd hi List.not_mem_nil
  | succ fuel ih =>
    rw [identsFrom]
    dsimp only
    split
    · exact fun i hi => absurd hi List.not_mem_nil
    split
    · exact fun i hi => absurd hi List.not_mem_nil
    · intro i hi
      rcases List.mem_cons.mp hi with rfl | hi
      · exact noEol_of_subset (getidentifier_subset hS bufin p) hline
      · exact ih i hi

/-- The body of a command for one identifier, with the count. -/
def counted (body : Globals → Bytes → Except Exn (Globals × Bool)) (r : Globals × Nat)
    (i : Bytes) : Except Exn (Globals × Nat) :=
  (body r.1 i).map fun x => (x.1, if x.2 then r.2 + 1 else r.2)

/-- The answer to a command that ends in an empty identifier. -/
def missingText : Bytes := str "error: missing identifier" ++ endl

/-- **The loop over identifiers is its body for each of them**, and may end with a
complaint that depends on the line alone. -/
theorem overIdents_eq (hS : S.Documented blank ident) {bufin : Bytes} {fuel p : Nat}
    (hfuel : p = npos ∨ bufin.length - p < fuel) :
    ∃ b : Bool, ∀ (pcc : ConnId) (body : Globals → Bytes → Except Exn (Globals × Bool)) r,
      overIdents S pcc bufin body fuel p r
        = ((identsFrom S bufin fuel p).foldlM (counted body) r).map fun r =>
            (if b then r.1.write pcc missingText else r.1, r.2) := by
  induction fuel generalizing p with
  | zero =>
    obtain rfl := hfuel.resolve_right (Nat.not_lt_zero _)
    exact ⟨false, fun pcc body r => if_pos rfl⟩
  | succ fuel ih =>
    by_cases hp : p = npos
    · refine ⟨false, fun pcc body r => ?_⟩
      rw [overIdents, identsFrom, if_pos hp, if_pos hp]
      rfl
    by_cases hi : (S.getidentifier bufin p).1 = []
    · refine ⟨true, fun pcc body r => ?_⟩
      rw [overIdents, identsFrom, if_neg hp, if_neg hp, if_pos hi, if_pos hi]
      rfl
    · have hnext := getidentifier_progress hS hi
      obtain ⟨b, hb⟩ := ih (p := (S.getidentifier bufin p).2)
        (hnext.imp_right fun h => by rcases hfuel with h' | h' <;> omega)
      refine ⟨b, fun pcc body r => ?_⟩
      rw [overIdents, identsFrom, if_neg hp, if_neg hp, if_neg hi, if_neg hi, List.foldlM_cons]
      unfold counted
      cases hbody : body r.1 (S.getidentifier bufin p).1 with
      | error x => rfl
      | ok x => exact hb pcc body _

/-! ## Measure points -/

/-- The measure points a definition names, each with its parameter: up to the end, to an
empty name, or to a parenthesis that is not closed. -/
def pointsFrom (S : Scanners) (s : Bytes) : (fuel p : Nat) → List (Bytes × Bytes)
  | 0, _ => []
  | fuel + 1, p =>
    if p = npos then []
    else
      let i := S.getidentifier s p
      if i.1 = [] then []
      else
        match getparam s i.2 with
        | none => []
        | some (param, next) => (i.1, param) :: pointsFrom S s fuel next

/-- A text made of errors of `createrecordset`. -/
def Complaint (text : Bytes) : Prop :=
  ∃ ts : List Bytes, (∀ t ∈ ts, NoEol t) ∧ text = ts.flatMap creationError

theorem complaint_nil : Complaint [] := ⟨[], fun _ h => absurd h List.not_mem_nil, rfl⟩

theorem complaint_error {t : Bytes} (h : NoEol t) : Complaint (creationError t) :=
  ⟨[t], by simpa using h, by simp⟩

theorem Complaint.append {t u : Bytes} (ht : Complaint t) (hu : Complaint u) :
    Complaint (t ++ u) := by
  obtain ⟨ts, hts, rfl⟩ := ht
  obtain ⟨us, hus, rfl⟩ := hu
  refine ⟨ts ++ us, fun x hx => ?_, by rw [List.flatMap_append]⟩
  exact (List.mem_append.mp hx).elim (hts x) (hus x)

@[simp] theorem noEol_quoted {t : Bytes} : NoEol (quoted t) ↔ NoEol t := by
  have h : NoEol [34] := by decide
  simp only [quoted, noEol_append, h, true_and, and_true]

/-- Behind a parameter the scan is further on, and the parameter stands in the string. -/
theorem getparam_eq_some {s param : Bytes} {p next : Nat} (h : getparam s p = some (param, next)) :
    param ⊆ s ∧ (next = p ∨ p ≠ npos ∧ p < next) := by
  unfold getparam at h
  split at h
  case isFalse =>
    obtain ⟨rfl, rfl⟩ := Prod.mk.inj (Option.some.inj h)
    exact ⟨List.nil_subset _, .inl rfl⟩
  case isTrue hp =>
    obtain ⟨q, hq, h⟩ := Option.map_eq_some_iff.mp h
    obtain ⟨rfl, rfl⟩ := Prod.mk.inj h
    obtain ⟨i, -, rfl⟩ := Option.map_eq_some_iff.mp hq
    refine ⟨fun c hc => List.mem_of_mem_drop (List.mem_of_mem_take hc), .inr ⟨hp.1, by omega⟩⟩

theorem createpoint_error {mmpcreators : MmpCreators} {i param text : Bytes} (hi : NoEol i)
    (hparam : NoEol param) (h : createpoint mmpcreators i param = .error text) : Complaint text := by
  unfold createpoint at h
  split at h
  · obtain rfl := Except.error.inj h
    refine complaint_error ?_
    simp only [noEol_append, noEol_quoted, hi]
    decide
  · split at h
    · obtain rfl := Except.error.inj h
      refine complaint_error ?_
      simp only [noEol_append, hi, hparam]
      decide
    · cases h

/-- **The loop over the measure points makes the points named**, those whose function
makes one, and complains about the rest. -/
theorem readpoints_eq (hS : S.Documented blank ident) (mmpcreators : MmpCreators) {s : Bytes}
    (hs : NoEol s) {fuel p : Nat} (hfuel : p = npos ∨ s.length - p < fuel)
    (r : List MeasurePoint × Bytes) :
    ∃ text, Complaint text ∧ readpoints S mmpcreators s fuel p r
      = .ok (r.1 ++ (pointsFrom S s fuel p).filterMap fun d =>
          (createpoint mmpcreators d.1 d.2).toOption, r.2 ++ text) := by
  induction fuel generalizing p r with
  | zero =>
    obtain rfl := hfuel.resolve_right (Nat.not_lt_zero _)
    exact ⟨[], complaint_nil, by simp [readpoints, pointsFrom]⟩
  | succ fuel ih =>
    unfold readpoints pointsFrom
    dsimp only
    by_cases hp : p = npos
    · exact ⟨[], complaint_nil, by simp [hp]⟩
    by_cases hi : (S.getidentifier s p).1 = []
    · simp only [if_neg hp, if_pos hi]
      split
      · exact ⟨[], complaint_nil, by simp⟩
      · have hempty : NoEol (str "measure-point identifier is 0 bytes long.") := by decide
        exact ⟨_, complaint_error hempty, by simp⟩
    simp only [if_neg hp, if_neg hi]
    have hnext := getidentifier_progress hS hi
    -- a parenthesis that is not closed ends the definition
    cases hparam : getparam s (S.getidentifier s p).2 with
    | none =>
      have hunmatched : NoEol (str "unmatched parenthesis in param.") := by decide
      exact ⟨_, complaint_error hunmatched, by simp⟩
    | some d =>
      obtain ⟨param, next⟩ := d
      obtain ⟨hsub, hle⟩ := getparam_eq_some hparam
      have hfuel' : next = npos ∨ s.length - next < fuel := by omega
      cases hc : createpoint mmpcreators (S.getidentifier s p).1 param with
      | error e =>
        obtain ⟨text, htext, heq⟩ := ih hfuel' (r.1, r.2 ++ e)
        have he := createpoint_error (noEol_of_subset (getidentifier_subset hS s p) hs)
          (noEol_of_subset hsub hs) hc
        refine ⟨e ++ text, he.append htext, ?_⟩
        simp [heq, hc, Except.toOption]
      | ok pmp =>
        obtain ⟨text, htext, heq⟩ := ih hfuel' (r.1 ++ [pmp], r.2)
        refine ⟨text, htext, ?_⟩
        simp [heq, hc, Except.toOption]

/-- The loop ends, whatever it reads. -/
theorem readpoints_returns (hS : S.Documented blank ident) (mmpcreators : MmpCreators) {s : Bytes}
    {fuel p : Nat} (hfuel : p = npos ∨ s.length - p < fuel) (r : List MeasurePoint × Bytes) :
    ∃ r', readpoints S mmpcreators s fuel p r = .ok r' := by
  induction fuel generalizing p r with
  | zero =>
    obtain rfl := hfuel.resolve_right (Nat.not_lt_zero _)
    exact ⟨r, if_pos rfl⟩
  | succ fuel ih =>
    unfold readpoints
    dsimp only
    by_cases hp : p = npos
    · exact ⟨r, if_pos hp⟩
    by_cases hi : (S.getidentifier s p).1 = []
    · rw [if_neg hp, if_pos hi]
      split <;> exact ⟨_, rfl⟩
    rw [if_neg hp, if_neg hi]
    have hnext := getidentifier_progress hS hi
    cases hparam : getparam s (S.getidentifier s p).2 with
    | none => exact ⟨_, rfl⟩
    | some d =>
      obtain ⟨param, next⟩ := d
      obtain ⟨-, hle⟩ := getparam_eq_some hparam
      have hfuel' : next = npos ∨ s.length - next < fuel := by omega
      dsimp only
      cases createpoint mmpcreators (S.getidentifier s p).1 param with
      | error e => exact ih hfuel' _
      | ok pmp => exact ih hfuel' _

theorem createrecordset_returns (hS : S.Documented blank ident) (mmpcreators : MmpCreators)
    (mrecordsets : Lib.OrdMap Bytes SetId) (s : Bytes) :
    ∃ r, createrecordset S mmpcreators mrecordsets s = .ok r := by
  unfold createrecordset
  dsimp only
  split
  · exact ⟨_, rfl⟩
  split
  · exact ⟨_, rfl⟩
  split
  · exact ⟨_, rfl⟩
  split
  · exact ⟨_, rfl⟩
  have hfuel : (S.getinteger s (S.getidentifier s 0).2).2 = npos ∨
      s.length - (S.getinteger s (S.getidentifier s 0).2).2 < s.length + 1 := .inr (by omega)
  obtain ⟨r, hr⟩ := readpoints_returns hS mmpcreators hfuel ([], [])
  rw [hr]
  exact ⟨_, rfl⟩

/-- What a definition must hold for its set to be created: a name that is free, an
interval, and a measure point whose function is compiled in and makes one. -/
def Creatable (S : Scanners) (mmpcreators : MmpCreators) (mrecordsets : Lib.OrdMap Bytes SetId)
    (s : Bytes) : Prop :=
  let i := S.getidentifier s 0
  let t := S.getinteger s i.2
  i.1 ≠ [] ∧ i.2 ≠ npos ∧ mrecordsets.find? i.1 = none ∧ t.1 ≠ 0 ∧
    ∃ d ∈ pointsFrom S s (s.length + 1) t.2, ∃ mpc, mmpcreators.find? d.1 = some mpc ∧
      mpc d.2 ≠ none

theorem createpoint_ne_none {mmpcreators : MmpCreators} {i param : Bytes} :
    (createpoint mmpcreators i param).toOption ≠ none ↔
      ∃ mpc, mmpcreators.find? i = some mpc ∧ mpc param ≠ none := by
  unfold createpoint
  cases mmpcreators.find? i with
  | none => simp [Except.toOption]
  | some mpc =>
    simp only [Option.some.injEq, exists_eq_left']
    cases mpc param with
    | none => simp [Except.toOption]
    | some pmp => simp [Except.toOption]

/-- **`createrecordset` makes a set exactly when it can**, and else complains. -/
theorem createrecordset_iff (hS : S.Documented blank ident) (mmpcreators : MmpCreators)
    (mrecordsets : Lib.OrdMap Bytes SetId) {s : Bytes} (hs : NoEol s) :
    ∃ text made, Complaint text ∧
      createrecordset S mmpcreators mrecordsets s = .ok (text, made) ∧
      (made.isSome = true ↔ Creatable S mmpcreators mrecordsets s) := by
  unfold createrecordset Creatable
  dsimp only
  have hname := noEol_of_subset (getidentifier_subset hS s 0) hs
  -- the checks in the order of the source
  by_cases hi : (S.getidentifier s 0).1 = []
  · have herr : NoEol (str "name is zero bytes long.") := by decide
    exact ⟨_, none, complaint_error herr, if_pos hi, by simp [hi]⟩
  rw [if_neg hi]
  by_cases hp : (S.getidentifier s 0).2 = npos
  · have herr : NoEol (str "missing interval field.") := by decide
    exact ⟨_, none, complaint_error herr, if_pos hp, by simp [hp]⟩
  rw [if_neg hp]
  by_cases hreg : mrecordsets.contains (S.getidentifier s 0).1 = true
  · refine ⟨_, none, complaint_error ?_, if_pos hreg, ?_⟩
    · rw [noEol_append, noEol_quoted]
      exact ⟨hname, by decide⟩
    · obtain ⟨prs, hprs⟩ := Lib.OrdMap.contains_iff.mp hreg
      simp [hprs]
  rw [if_neg hreg]
  by_cases ht : (S.getinteger s (S.getidentifier s 0).2).1 = 0
  · have herr : NoEol (str "null interval given ???") := by decide
    exact ⟨_, none, complaint_error herr, if_pos ht, by simp [ht]⟩
  rw [if_neg ht]
  have hfree : mrecordsets.find? (S.getidentifier s 0).1 = none := by
    simpa [Lib.OrdMap.contains] using hreg
  set p := (S.getinteger s (S.getidentifier s 0).2).2 with hp₂
  have hfuel : p = npos ∨ s.length - p < s.length + 1 := .inr (by omega)
  obtain ⟨text, htext, heq⟩ := readpoints_eq hS mmpcreators hs hfuel ([], [])
  rw [heq]
  simp only [List.nil_append, Except.map]
  set made := (pointsFrom S s (s.length + 1) (S.getinteger s (S.getidentifier s 0).2).2).filterMap
    fun d => (createpoint mmpcreators d.1 d.2).toOption with hmade
  have hiff : made ≠ [] ↔ ∃ d ∈ pointsFrom S s (s.length + 1)
      (S.getinteger s (S.getidentifier s 0).2).2, ∃ mpc, mmpcreators.find? d.1 = some mpc ∧
        mpc d.2 ≠ none := by
    simp only [← createpoint_ne_none, ne_eq, hmade, List.filterMap_eq_nil_iff, not_forall,
      exists_prop]
  by_cases hnil : made = []
  · refine ⟨_, none, htext.append (complaint_error ?_), by rw [if_pos hnil], ?_⟩
    · simp only [noEol_append, noEol_quoted, hname]
      decide
    · have hnot := mt hiff.mpr (not_not.mpr hnil)
      exact iff_of_false Bool.false_ne_true fun h => hnot h.2.2.2.2
  · exact ⟨_, some _, htext, by rw [if_neg hnil], iff_of_true rfl ⟨hi, hp, hfree, ht, hiff.mp hnil⟩⟩

end Qigong.Probe
