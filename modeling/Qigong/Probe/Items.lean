import Qigong.Probe.Scanning

/-!
# The items of a definition

Behind its name and its interval a definition lists measure points: a name, and perhaps a
parameter between parentheses. `Items` says which items a text holds, as text, with what is
malformed about the last one; every text holds some (`items_total`). The scanner reads them
one by one (`Items.read`), and what the loop of `createrecordset` makes of each is
`Item.make` (`readpoints_items`).
-/

namespace Qigong.Probe

open Globals

variable {S : Scanners} {blank ident : UInt8 → Bool}

/-- An item: a measure point with its parameter, a measure point whose name ends the text,
a name that is empty, or a parenthesis that is not closed. -/
inductive Item where
  | point (name param : Bytes)
  | last (name : Bytes)
  | nameless
  | unclosed (name : Bytes)

/-- The items a text holds. What is malformed ends them. -/
inductive Items (blank ident : UInt8 → Bool) : Bytes → List Item → Prop
  | none {skip : Bytes} (hskip : ∀ c ∈ skip, blank c = true) : Items blank ident skip []
  | nameless {skip rest : Bytes} {c : UInt8} (hskip : ∀ c ∈ skip, blank c = true)
      (hblank : blank c = false) (hident : ident c = false) :
      Items blank ident (skip ++ c :: rest) [.nameless]
  | last {skip n : Bytes} (hskip : ∀ c ∈ skip, blank c = true) (hn : Identifier blank ident n) :
      Items blank ident (skip ++ n) [.last n]
  | bare {skip n rest : Bytes} {c : UInt8} {items : List Item}
      (hskip : ∀ c ∈ skip, blank c = true) (hn : Identifier blank ident n)
      (hident : ident c = false) (hc : c ≠ 40) (h : Items blank ident (c :: rest) items) :
      Items blank ident (skip ++ (n ++ c :: rest)) (.point n [] :: items)
  | unclosed {skip n rest : Bytes} (hskip : ∀ c ∈ skip, blank c = true)
      (hn : Identifier blank ident n) (hident : ident 40 = false) (hrest : 41 ∉ rest) :
      Items blank ident (skip ++ (n ++ 40 :: rest)) [.unclosed n]
  | closed {skip n param rest : Bytes} {items : List Item} (hskip : ∀ c ∈ skip, blank c = true)
      (hn : Identifier blank ident n) (hident : ident 40 = false) (hparam : 41 ∉ param)
      (h : Items blank ident rest items) :
      Items blank ident (skip ++ (n ++ 40 :: (param ++ 41 :: rest))) (.point n param :: items)

/-- A text is split where a test first fails. -/
theorem split_run (run : UInt8 → Bool) (text : Bytes) :
    ∃ w rest, text = w ++ rest ∧ (∀ c ∈ w, run c = true) ∧
      ∀ c, rest.head? = some c → run c = false := by
  refine ⟨text.takeWhile run, text.dropWhile run, List.takeWhile_append_dropWhile.symm,
    fun c hc => List.mem_takeWhile_imp hc, fun c hc => ?_⟩
  have h := List.head?_dropWhile_not run text
  rw [hc] at h
  simpa using h

/-- Every text holds items. -/
theorem items_total (blank ident : UInt8 → Bool) (text : Bytes) :
    ∃ items, Items blank ident text items := by
  induction hlen : text.length using Nat.strong_induction_on generalizing text with
  | _ len ih =>
    obtain ⟨skip, t, rfl, hskip, ht⟩ := split_run blank text
    obtain ⟨n, rest, rfl, hn, hrest⟩ := split_run ident t
    rw [List.length_append, List.length_append] at hlen
    -- by what stands behind the blanks, and behind the name
    cases n with
    | nil =>
      cases rest with
      | nil =>
        rw [List.append_nil, List.append_nil]
        exact ⟨[], .none hskip⟩
      | cons c rest => exact ⟨_, .nameless hskip (ht c rfl) (hrest c rfl)⟩
    | cons a n =>
      have hid : Identifier blank ident (a :: n) :=
        ⟨List.cons_ne_nil a n, hn, fun c hc => ht c (by rw [List.head?_append, hc]; rfl)⟩
      cases rest with
      | nil =>
        rw [List.append_nil]
        exact ⟨_, .last hskip hid⟩
      | cons c rest =>
        have hc := hrest c rfl
        simp only [List.length_cons] at hlen
        by_cases hopen : c = 40
        · subst hopen
          obtain ⟨param, rest, rfl, hparam, hclose⟩ := split_run (· != 41) rest
          have hparam' : 41 ∉ param := fun h => absurd (hparam 41 h) (by decide)
          cases rest with
          | nil =>
            rw [List.append_nil]
            exact ⟨_, .unclosed hskip hid hc hparam'⟩
          | cons d rest =>
            obtain rfl : d = 41 := by simpa using hclose d rfl
            simp only [List.length_append, List.length_cons] at hlen
            obtain ⟨items, hitems⟩ := ih rest.length (by omega) rest rfl
            exact ⟨_, .closed hskip hid hc hparam' hitems⟩
        · obtain ⟨items, hitems⟩ := ih (c :: rest).length (by rw [List.length_cons]; omega) _ rfl
          exact ⟨_, .bare hskip hid hc hopen hitems⟩

/-! ## Reading an item -/

/-- Nothing but blanks is left. -/
theorem getidentifier_blank (hS : S.Documented blank ident) (pre : Bytes) {skip : Bytes}
    (hskip : ∀ c ∈ skip, blank c = true) :
    S.getidentifier (pre ++ skip) pre.length = ([], npos) := by
  rw [hS.getidentifier]
  have hnil : skip.dropWhile blank = [] := List.dropWhile_eq_nil_iff.mpr hskip
  simp [scan, hnil]

/-- What stands behind the blanks is no identifier. -/
theorem getidentifier_nameless (hS : S.Documented blank ident) (pre : Bytes)
    {skip rest : Bytes} {c : UInt8} (hskip : ∀ c ∈ skip, blank c = true)
    (hblank : blank c = false) (hident : ident c = false) :
    S.getidentifier (pre ++ (skip ++ c :: rest)) pre.length = ([], pre.length + skip.length) := by
  rw [hS.getidentifier]
  have hstop : ∀ {run : UInt8 → Bool}, run c = false → (c :: rest).dropWhile run = c :: rest := by
    intro run hrun
    rw [List.dropWhile_cons_of_neg]
    rw [hrun]
    exact Bool.false_ne_true
  have hdrop : (skip ++ c :: rest).dropWhile blank = c :: rest := by
    rw [List.dropWhile_append_of_pos hskip, hstop hblank]
  have htake : (c :: rest).takeWhile ident = [] := by
    rw [List.takeWhile_cons_of_neg]
    rw [hident]
    exact Bool.false_ne_true
  unfold scan
  rw [List.drop_left]
  dsimp only
  rw [hdrop, htake, hstop hident, if_neg (List.cons_ne_nil c rest)]
  refine Prod.ext rfl ?_
  simp only [List.length_append, List.length_cons]
  omega

/-- A name is read, and the position is that of the character behind it. -/
theorem getidentifier_name (hS : S.Documented blank ident) (pre rest : Bytes) {skip n : Bytes}
    {c : UInt8} (hskip : ∀ c ∈ skip, blank c = true) (hn : Identifier blank ident n)
    (hident : ident c = false) :
    ∃ pre', pre ++ (skip ++ (n ++ c :: rest)) = pre' ++ c :: rest ∧ pre.length < pre'.length ∧
      S.getidentifier (pre' ++ c :: rest) pre.length = (n, pre'.length) := by
  have hget := getidentifier_at hS hn pre skip (c :: rest) hskip
    (fun d hd => Option.some.inj hd ▸ hident)
  rw [if_neg (List.cons_ne_nil c rest)] at hget
  have hn0 := List.length_pos_iff.mpr hn.ne_nil
  refine ⟨pre ++ (skip ++ n), by simp, ?_, ?_⟩
  · simp only [List.length_append]
    omega
  · rw [show pre ++ (skip ++ n) ++ c :: rest = pre ++ (skip ++ (n ++ c :: rest)) by simp, hget,
      List.length_append, List.length_append, Nat.add_assoc]

theorem getparam_bare {s : Bytes} {p : Nat} (h : p = npos ∨ s[p]? ≠ some 40) :
    getparam s p = some ([], p) := by
  unfold getparam
  rw [if_neg]
  rintro ⟨hp, hs⟩
  exact h.elim hp fun h => h hs

theorem getparam_at {pre rest : Bytes} (hlen : (pre ++ 40 :: rest).length < npos) :
    getparam (pre ++ 40 :: rest) pre.length
      = (findFrom 41 (pre ++ 40 :: rest) (pre.length + 1)).map fun q =>
          (((pre ++ 40 :: rest).drop (pre.length + 1)).take (q - (pre.length + 1)), q + 1) := by
  rw [List.length_append, List.length_cons] at hlen
  refine if_pos ⟨by omega, ?_⟩
  rw [List.getElem?_append_right (le_refl _), Nat.sub_self]
  rfl

/-- **What the scanner reads of the items of a text**, at the position it begins at. -/
inductive ReadAs (S : Scanners) (blank ident : UInt8 → Bool) (s : Bytes) (p : Nat) :
    List Item → Prop
  | none (h : S.getidentifier s p = ([], npos)) : ReadAs S blank ident s p []
  | nameless {q : Nat} (h : S.getidentifier s p = ([], q)) (hq : q < s.length) :
      ReadAs S blank ident s p [.nameless]
  | last {n : Bytes} (hn : n ≠ []) (h : S.getidentifier s p = (n, npos)) :
      ReadAs S blank ident s p [.last n]
  | unclosed {n : Bytes} {q : Nat} (hn : n ≠ []) (h : S.getidentifier s p = (n, q))
      (hq : q < s.length) (hparam : getparam s q = none) : ReadAs S blank ident s p [.unclosed n]
  | point {n param : Bytes} {q next : Nat} {items : List Item} (hn : n ≠ [])
      (h : S.getidentifier s p = (n, q)) (hq : q < s.length)
      (hparam : getparam s q = some (param, next)) (hnext : p < next) (hend : next ≤ s.length)
      (hrest : Items blank ident (s.drop next) items) :
      ReadAs S blank ident s p (.point n param :: items)

theorem Items.readAt (hS : S.Documented blank ident) (pre : Bytes) {text : Bytes} {items : List Item}
    (hlen : (pre ++ text).length < npos) (h : Items blank ident text items) :
    ReadAs S blank ident (pre ++ text) pre.length items := by
  cases h with
  | none hskip => exact .none (getidentifier_blank hS pre hskip)
  | nameless hskip hblank hident =>
    refine .nameless (getidentifier_nameless hS pre hskip hblank hident) ?_
    simp only [List.length_append, List.length_cons]
    omega
  | @last skip n hskip hn =>
    have hget := getidentifier_at hS hn pre skip [] hskip (fun c hc => (nomatch hc))
    rw [List.append_nil, if_pos rfl] at hget
    exact .last hn.ne_nil hget
  | @bare skip n rest c items hskip hn hident hc h =>
    obtain ⟨pre', heq, hlt, hget⟩ := getidentifier_name hS pre rest hskip hn hident
    rw [heq]
    refine .point hn.ne_nil hget (by simp) (getparam_bare (.inr ?_)) hlt (by simp) ?_
    · rw [List.getElem?_append_right (le_refl _), Nat.sub_self]
      simpa using hc
    · rw [List.drop_left]
      exact h
  | @unclosed skip n rest hskip hn hident hrest =>
    obtain ⟨pre', heq, -, hget⟩ := getidentifier_name hS pre rest hskip hn hident
    rw [heq] at hlen ⊢
    refine .unclosed hn.ne_nil hget (by simp) ?_
    rw [getparam_at hlen, Option.map_eq_none_iff, findFrom_eq_none_iff]
    have hdrop : (pre' ++ 40 :: rest).drop (pre'.length + 1) = rest := by simp
    rw [hdrop]
    exact hrest
  | @closed skip n param rest items hskip hn hident hparam h =>
    obtain ⟨pre', heq, hlt, hget⟩ :=
      getidentifier_name hS pre (param ++ 41 :: rest) hskip hn hident
    rw [heq] at hlen ⊢
    have hfind := findFrom_at (pre' ++ [40]) rest hparam
    rw [List.length_append, List.length_singleton, List.append_assoc, List.singleton_append]
      at hfind
    have hopen : getparam (pre' ++ 40 :: (param ++ 41 :: rest)) pre'.length
        = some (param, pre'.length + 1 + param.length + 1) := by
      rw [getparam_at hlen, hfind]
      simp
    refine .point hn.ne_nil hget (by simp) hopen (by omega) ?_ ?_
    · simp only [List.length_append, List.length_cons]
      omega
    · have hdrop : (pre' ++ 40 :: (param ++ 41 :: rest)).drop
          (pre'.length + 1 + param.length + 1) = rest := by
        rw [show pre' ++ 40 :: (param ++ 41 :: rest) = (pre' ++ [40] ++ param ++ [41]) ++ rest by
          simp, show pre'.length + 1 + param.length + 1 = (pre' ++ [40] ++ param ++ [41]).length by
          simp only [List.length_append, List.length_singleton], List.drop_left]
      rw [hdrop]
      exact h

theorem items_nil {items : List Item} (h : Items blank ident [] items) : items = [] := by
  generalize htext : ([] : Bytes) = text at h
  cases h with
  | none => rfl
  | nameless => exact absurd htext.symm (by simp)
  | last hskip hn => exact absurd (List.append_eq_nil_iff.mp htext.symm).2 hn.ne_nil
  | bare => exact absurd htext.symm (by simp)
  | unclosed => exact absurd htext.symm (by simp)
  | closed => exact absurd htext.symm (by simp)

/-- **The items behind a position are read there**, wherever it is. -/
theorem Items.read (hS : S.Documented blank ident) {s : Bytes} {p : Nat} {items : List Item}
    (hlen : s.length < npos) (h : Items blank ident (s.drop p) items) :
    ReadAs S blank ident s p items := by
  rcases le_or_gt p s.length with hp | hp
  · have hread := Items.readAt hS (s.take p) (by rw [List.take_append_drop]; exact hlen) h
    rwa [List.take_append_drop, List.length_take_of_le hp] at hread
  · rw [List.drop_eq_nil_of_le hp.le] at h
    obtain rfl := items_nil h
    refine .none ?_
    rw [hS.getidentifier, scan, List.drop_eq_nil_of_le hp.le]
    rfl

/-! ## What is made of the items -/

/-- What `createrecordset` makes of an item, or its error. -/
def Item.make (mmpcreators : MmpCreators) : Item → Except Bytes MeasurePoint
  | .point n param => createpoint mmpcreators n param
  | .last n => createpoint mmpcreators n []
  | .nameless => .error (creationError (str "measure-point identifier is 0 bytes long."))
  | .unclosed _ => .error (creationError (str "unmatched parenthesis in param."))

/-- The points made of items. -/
def pointsMade (mmpcreators : MmpCreators) (items : List Item) : List MeasurePoint :=
  items.filterMap fun i => (i.make mmpcreators).toOption

/-- The error of an item of which nothing is made. -/
def Item.refusal (mmpcreators : MmpCreators) (i : Item) : Bytes :=
  match i.make mmpcreators with
  | .error text => text
  | .ok _ => []

theorem readpoints_npos (S : Scanners) (mmpcreators : MmpCreators) (s : Bytes) (fuel : Nat)
    (r : List MeasurePoint × Bytes) : readpoints S mmpcreators s fuel npos r = .ok r := by
  cases fuel <;> exact if_pos rfl

/-- **The loop over the measure points makes what can be made of each item**, in their
order, and writes the errors of the others. -/
theorem readpoints_items (hS : S.Documented blank ident) (mmpcreators : MmpCreators) {s : Bytes}
    (hlen : s.length < npos) {fuel p : Nat} (hfuel : s.length - p < fuel) {items : List Item}
    (h : Items blank ident (s.drop p) items) (r : List MeasurePoint × Bytes) :
    readpoints S mmpcreators s fuel p r = .ok (r.1 ++ pointsMade mmpcreators items,
      r.2 ++ items.flatMap (Item.refusal mmpcreators)) := by
  induction fuel generalizing p items r with
  | zero => omega
  | succ fuel ih =>
    have hread := h.read hS hlen
    unfold readpoints
    dsimp only
    by_cases hp : p = npos
    · rw [if_pos hp]
      rw [hp, List.drop_eq_nil_of_le hlen.le] at h
      obtain rfl := items_nil h
      simp [pointsMade]
    rw [if_neg hp]
    cases hread with
    | none hget => simp [hget, pointsMade]
    | @nameless q hget hq =>
      rw [hget]
      dsimp only
      rw [if_pos rfl, if_neg (show q ≠ npos by omega)]
      simp [pointsMade, Item.make, Item.refusal, Except.toOption]
    | @last n hn hget =>
      rw [hget]
      dsimp only
      rw [if_neg hn, getparam_bare (.inl rfl)]
      dsimp only
      cases hmake : createpoint mmpcreators n [] with
      | error text =>
        simp [readpoints_npos, pointsMade, Item.make, Item.refusal, hmake, Except.toOption]
      | ok pmp =>
        simp [readpoints_npos, pointsMade, Item.make, Item.refusal, hmake, Except.toOption]
    | @unclosed n q hn hget hq hparam =>
      rw [hget]
      dsimp only
      rw [if_neg hn, hparam]
      simp [pointsMade, Item.make, Item.refusal, Except.toOption]
    | @point n param q next items hn hget hq hparam hnext hend hrest =>
      rw [hget]
      dsimp only
      rw [if_neg hn, hparam]
      dsimp only
      cases hmake : createpoint mmpcreators n param with
      | error text =>
        dsimp only
        rw [ih (by omega) hrest]
        simp [pointsMade, Item.make, Item.refusal, hmake, Except.toOption]
      | ok pmp =>
        dsimp only
        rw [ih (by omega) hrest]
        simp [pointsMade, Item.make, Item.refusal, hmake, Except.toOption]

end Qigong.Probe
