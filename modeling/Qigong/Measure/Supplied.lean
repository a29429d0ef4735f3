import Mathlib.Data.List.DropRight
import Mathlib.Data.List.TakeWhile
import Qigong.Measure.MeasurePoint

/-!
# When a measure point has its values

What has to be there outside, for each kind of measure point, so that a call of `measure`
leaves a value in each column (`Supplied`).
-/

namespace Qigong.Measure

variable {R : Readers} {blank : UInt8 → Bool} {env : Outside}

/-- A value of a column. -/
abbrev IsValue (v : Bytes) : Prop := Lib.IsField 58 v

theorem isValue_unknown : IsValue unknown := by decide

/-- A number is a value: it has a digit, and no colon. -/
theorem isValue_decimal (n : Int) : IsValue (decimal n) := by
  -- a negative number is a sign and the digits of a natural one
  have hnat : ∀ m : Nat, IsValue (decimal m) := by
    refine fun m => ⟨decimal_nat_ne_nil m, fun hmem => ?_⟩
    exact absurd (isDigit_decimal m 58 hmem) (by decide)
  cases n with
  | ofNat m => exact hnat m
  | negSucc m =>
    rw [decimal_negSucc]
    refine ⟨List.cons_ne_nil _ _, fun hmem => ?_⟩
    rcases List.mem_append.mp hmem with hmem | hmem
    · exact absurd hmem (by decide)
    · exact (hnat (m + 1)).2 hmem

/-! ## Words and loops over strings -/

theorem drop_behind (u v : Bytes) (c : UInt8) : (u ++ c :: v).drop (u.length + 1) = v := by
  rw [List.append_cons, List.drop_left' (by rw [List.length_append, List.length_singleton])]

theorem takeWhile_space {word rest : Bytes} (h : 32 ∉ word) :
    (word ++ 32 :: rest).takeWhile (· != 32) = word := by
  rw [List.takeWhile_append_of_pos, List.takeWhile_cons_of_neg (by decide), List.append_nil]
  intro c hc
  exact bne_iff_ne.mpr fun heq => h (heq ▸ hc)

theorem takeWhile_no_space {word : Bytes} (h : 32 ∉ word) : word.takeWhile (· != 32) = word := by
  refine List.takeWhile_eq_self_iff.mpr fun c hc => ?_
  exact bne_iff_ne.mpr fun heq => h (heq ▸ hc)

/-- A loop over strings finds what the first string that decides gives. -/
theorem whileStrings_eq_some_iff {β : Type} {look : Bytes → Except Exn (Option β)}
    {ss : List Bytes} {b : β} :
    whileStrings look ss = .ok (some b) ↔ ∃ before s after, ss = before ++ s :: after ∧
      (∀ l ∈ before, look l = .ok none) ∧ look s = .ok (some b) := by
  constructor
  · intro h
    induction ss with
    | nil => cases h
    | cons s ss ih =>
      rw [whileStrings] at h
      split at h
      case h_1 hs =>
        obtain ⟨before, s', after, rfl, hbefore, hs'⟩ := ih h
        refine ⟨s :: before, s', after, rfl, fun l hl => ?_, hs'⟩
        rcases List.mem_cons.mp hl with rfl | hl
        · exact hs
        · exact hbefore l hl
      case h_2 hs =>
        cases h
        exact ⟨[], s, ss, rfl, fun l hl => absurd hl List.not_mem_nil, hs⟩
      case h_3 => cases h
  · rintro ⟨before, s, after, rfl, hbefore, hs⟩
    induction before with
    | nil => rw [List.nil_append, whileStrings, hs]
    | cons l before ih =>
      rw [List.cons_append, whileStrings, hbefore l List.mem_cons_self]
      exact ih fun l hl => hbefore l (List.mem_cons_of_mem _ hl)

/-- The first string that is not passed over gives a value for a column. -/
def FirstGives (passed : Bytes → Prop) (gives : Bytes → Bytes → Prop) (ss : List Bytes) : Prop :=
  ∃ before s after v, ss = before ++ s :: after ∧ (∀ l ∈ before, passed l) ∧ gives s v ∧ IsValue v

/-- A loop over strings leaves a value exactly where the first string that decides gives
one. -/
theorem foundOr_isValue_iff {look : Bytes → Except Exn (Option (Option Bytes))}
    {passed : Bytes → Prop} {gives : Bytes → Bytes → Prop} {ss : List Bytes}
    (hpassed : ∀ s ∈ ss, look s = .ok none ↔ passed s)
    (hgives : ∀ s ∈ ss, ∀ v, look s = .ok (some (some v)) ↔ gives s v) :
    (∃ r, (whileStrings look ss).map (foundOr []) = .ok r ∧ IsValue r.1) ↔
      FirstGives passed gives ss := by
  constructor
  · rintro ⟨r, hr, hvalue⟩
    obtain ⟨found, hfound, rfl⟩ := map_eq_ok.mp hr
    match found, hvalue with
    | some (some v), hvalue =>
      obtain ⟨before, s, after, rfl, hbefore, hs⟩ := whileStrings_eq_some_iff.mp hfound
      refine ⟨before, s, after, v, rfl, fun l hl => ?_, ?_, hvalue⟩
      · exact (hpassed l (List.mem_append_left _ hl)).mp (hbefore l hl)
      · exact (hgives s (List.mem_append_right _ List.mem_cons_self) v).mp hs
    | some none, hvalue => exact absurd rfl hvalue.1
    | none, hvalue => exact absurd rfl hvalue.1
  · rintro ⟨before, s, after, v, rfl, hbefore, hs, hvalue⟩
    refine ⟨(v, true), map_eq_ok.mpr ⟨some (some v), ?_, rfl⟩, hvalue⟩
    refine whileStrings_eq_some_iff.mpr ⟨before, s, after, rfl, fun l hl => ?_, ?_⟩
    · exact (hpassed l (List.mem_append_left _ hl)).mpr (hbefore l hl)
    · exact (hgives s (List.mem_append_right _ List.mem_cons_self) v).mpr hs

/-! ## `/proc/diskstats` -/

namespace MPdiskstats

/-- What stands behind the two numbers of a string, and the space behind them. -/
def Behind (s rest : Bytes) : Prop := numbersEnd s < s.length ∧ rest = s.drop (numbersEnd s + 1)

/-- The string is of another disk. -/
def Passed (m : MPdiskstats) (s : Bytes) : Prop := ∃ rest, Behind s rest ∧ ¬ m.diskname <+: rest

/-- The string is of the disk, and this is the field asked for, between single spaces. -/
def Gives (m : MPdiskstats) (s v : Bytes) : Prop :=
  ∃ rest, Behind s rest ∧ m.diskname <+: rest ∧ (rest.splitOn 32)[m.field]? = some v

/-- Behind as many spaces stands the field of that number. -/
theorem seekField_eq {s : Bytes} (field : Nat) {p : Nat} (hp : p ≤ s.length) :
    (∀ q, seekField s field p = some q → q ≤ s.length) ∧
      (seekField s field p).map (fun q => (s.drop q).takeWhile (· != 32))
        = ((s.drop p).splitOn 32)[field]? := by
  -- a space ends a field; behind the last one there is no further
  induction field generalizing p with
  | zero =>
    refine ⟨fun q hq => Option.some.inj hq ▸ hp, ?_⟩
    rw [seekField, Option.map_some]
    cases hf : findFrom 32 s p with
    | none =>
      have hfree := findFrom_eq_none_iff.mp hf
      rw [List.splitOn_eq_singleton hfree, takeWhile_no_space hfree]
      rfl
    | some q =>
      obtain ⟨-, word, heq, hfree, -⟩ := findFrom_eq_some hf
      rw [heq, List.splitOn_append_cons_self_of_not_mem hfree, takeWhile_space hfree]
      rfl
  | succ field ih =>
    rw [seekField]
    cases hf : findFrom 32 s p with
    | none =>
      have hfree := findFrom_eq_none_iff.mp hf
      rw [List.splitOn_eq_singleton hfree]
      exact ⟨fun q hq => (nomatch hq), rfl⟩
    | some q =>
      obtain ⟨hq, word, heq, hfree, -⟩ := findFrom_eq_some hf
      rw [heq, List.splitOn_append_cons_self_of_not_mem hfree, List.getElem?_cons_succ]
      exact ih hq

variable {m : MPdiskstats} {s v : Bytes}

/-- What a string behind its numbers decides. -/
theorem look_eq {rest : Bytes} (h : Behind s rest) :
    m.look s = if m.diskname <+: rest then .ok (some (rest.splitOn 32)[m.field]?) else .ok none := by
  obtain ⟨hlt, rfl⟩ := h
  obtain ⟨hle, hfield⟩ := seekField_eq (s := s) m.field (p := numbersEnd s + 1) hlt
  unfold look
  dsimp only
  rw [substr_ok hlt]
  show (if _ then _ else _) = _
  -- `compare` sees the prefix as `take`, `Gives` as a prefix
  by_cases hname : m.diskname <+: s.drop (numbersEnd s + 1)
  · rw [if_pos (List.prefix_iff_eq_take.mp hname).symm, if_pos hname, ← hfield]
    cases hseek : seekField s m.field (numbersEnd s + 1) with
    | none => rfl
    | some q =>
      dsimp only
      rw [wordAt, substr_ok (hle q hseek)]
      rfl
  · rw [if_neg fun h => hname (List.prefix_iff_eq_take.mpr h.symm), if_neg hname]

/-- A string that ends with its numbers has no position behind them. -/
theorem look_throws (h : ¬ numbersEnd s < s.length) : m.look s = .error .out_of_range := by
  unfold look
  dsimp only
  rw [substr_throws (by omega)]
  rfl

/-- A string is passed over exactly where it is of another disk. -/
theorem look_eq_none_iff : m.look s = .ok none ↔ m.Passed s := by
  by_cases hlt : numbersEnd s < s.length
  · -- a string of the disk decides, whether or not it has the field
    rw [look_eq ⟨hlt, rfl⟩]
    split
    case isTrue hname =>
      refine ⟨fun h => (nomatch h), ?_⟩
      rintro ⟨rest, ⟨-, rfl⟩, hother⟩
      exact absurd hname hother
    case isFalse hname => exact ⟨fun _ => ⟨_, ⟨hlt, rfl⟩, hname⟩, fun _ => rfl⟩
  · rw [look_throws hlt]
    exact ⟨fun h => (nomatch h), fun ⟨_, hbehind, _⟩ => absurd hbehind.1 hlt⟩

/-- A string gives a value exactly where the disk is its own and has the field. -/
theorem look_eq_some_iff : m.look s = .ok (some (some v)) ↔ m.Gives s v := by
  by_cases hlt : numbersEnd s < s.length
  · rw [look_eq ⟨hlt, rfl⟩]
    split
    case isTrue hname =>
      refine ⟨fun h => ⟨_, ⟨hlt, rfl⟩, hname, Option.some.inj (Except.ok.inj h)⟩, ?_⟩
      rintro ⟨rest, ⟨-, rfl⟩, -, hv⟩
      rw [hv]
    case isFalse hname =>
      refine ⟨fun h => (nomatch h), ?_⟩
      rintro ⟨rest, ⟨-, rfl⟩, hother, -⟩
      exact absurd hother hname
  · rw [look_throws hlt]
    exact ⟨fun h => (nomatch h), fun ⟨_, hbehind, _⟩ => absurd hbehind.1 hlt⟩

end MPdiskstats

/-! ## `/proc/net/dev` -/

/-- What is left of a string at a position; nothing at `npos`. -/
def Left (s : Bytes) (p : Nat) (t : Bytes) : Prop :=
  t = [] ∧ p = npos ∨ t ≠ [] ∧ ∃ pre, s = pre ++ t ∧ p = pre.length

section left

variable {s t : Bytes} {p : Nat}

/-- A scanner that skips to a suffix returns its position, and `npos` where nothing is left. -/
theorem left_of_suffix (h : t <:+ s) : Left s (if t = [] then npos else s.length - t.length) t := by
  obtain ⟨pre, rfl⟩ := h
  by_cases ht : t = []
  · exact .inl ⟨ht, if_pos ht⟩
  · refine .inr ⟨ht, pre, rfl, ?_⟩
    rw [if_neg ht, List.length_append, Nat.add_sub_cancel]

/-- In a string shorter than `npos`, the position tells what is left. -/
theorem Left.drop (h : Left s p t) (hlen : s.length < npos) : s.drop p = t := by
  rcases h with ⟨rfl, rfl⟩ | ⟨-, pre, rfl, rfl⟩
  · exact List.drop_eq_nil_of_le hlen.le
  · exact List.drop_left

/-- In a string shorter than `npos`, that position is a mark no other one has. -/
theorem Left.eq_npos_iff (h : Left s p t) (hlen : s.length < npos) : p = npos ↔ t = [] := by
  rcases h with ⟨rfl, rfl⟩ | ⟨hne, pre, rfl, rfl⟩
  · exact iff_of_true rfl rfl
  · refine iff_of_false (fun heq => ?_) hne
    rw [List.length_append] at hlen
    omega

theorem Left.wordAt (h : Left s p t) (hne : t ≠ []) :
    wordAt s p = .ok (t.takeWhile (· != 32)) := by
  obtain ⟨-, pre, rfl, rfl⟩ := h.resolve_left fun h => hne h.1
  have hle : pre.length ≤ (pre ++ t).length := by
    rw [List.length_append]
    exact Nat.le_add_right _ _
  rw [Measure.wordAt, substr_ok hle, List.drop_left]
  rfl

/-- `seekspace` leaves what stands behind the blanks. -/
theorem left_seekspace (hR : R.Described blank) (s : Bytes) (p : Nat) :
    Left s (R.seekspace s p) ((s.drop p).dropWhile blank) := by
  rw [hR.seekspace]
  exact left_of_suffix ((List.dropWhile_suffix _).trans (List.drop_suffix _ _))

theorem left_getinteger (hR : R.Described blank) (s : Bytes) (p : Nat) :
    Left s (R.getinteger s p).2 (((s.drop p).dropWhile blank).dropWhile isDigit) := by
  rw [hR.getinteger]
  exact left_of_suffix ((List.dropWhile_suffix _).trans
    ((List.dropWhile_suffix _).trans (List.drop_suffix _ _)))

end left

namespace MPnetstats

/-- What stands behind an integer and the blanks behind it. -/
def behindInteger (blank : UInt8 → Bool) (t : Bytes) : Bytes :=
  (t.dropWhile isDigit).dropWhile blank

/-- What stands behind as many integers, the blanks before them skipped. -/
def behindIntegers (blank : UInt8 → Bool) (field : Nat) (t : Bytes) : Bytes :=
  (behindInteger blank)^[field] (t.dropWhile blank)

theorem behindInteger_nil (field : Nat) : (behindInteger blank)^[field] [] = [] :=
  Function.iterate_fixed rfl field

/-- As many turns of the loop over fields skip as many integers, each with its blanks. -/
theorem left_seekField (hR : R.Described blank) {s : Bytes} (hlen : s.length < npos) (field : Nat)
    {p : Nat} {t : Bytes} (h : Left s p t) (ht : t.dropWhile blank = t) :
    Left s (seekField R s field p) ((behindInteger blank)^[field] t) := by
  induction field generalizing p t with
  | zero => exact h
  | succ field ih =>
    have hint := left_getinteger hR s p
    -- the blanks in front are skipped already: `t` begins with none
    rw [h.drop hlen, ht] at hint
    have hspace := left_seekspace hR s (R.getinteger s p).2
    rw [hint.drop hlen] at hspace
    rw [seekField, Function.iterate_succ_apply]
    dsimp only
    -- the line may end behind the integer, or behind its blanks
    by_cases hq : (R.getinteger s p).2 = npos
    · have hnil := (hint.eq_npos_iff hlen).mp hq
      rw [if_pos hq, behindInteger, hnil, List.dropWhile_nil, behindInteger_nil]
      exact .inl ⟨rfl, rfl⟩
    rw [if_neg hq]
    by_cases hq' : R.seekspace s (R.getinteger s p).2 = npos
    · have hnil := (hspace.eq_npos_iff hlen).mp hq'
      rw [if_pos hq', behindInteger, hnil, behindInteger_nil]
      exact .inl ⟨rfl, rfl⟩
    · rw [if_neg hq']
      exact ih hspace (List.dropWhile_idempotent _ _)

/-- The string is of another interface. -/
def Passed (m : MPnetstats) (s : Bytes) : Prop := findWord m.intname s = none

/-- The string is of the interface, and this is what stands behind as many integers, up
to the next space. -/
def Gives (blank : UInt8 → Bool) (m : MPnetstats) (s v : Bytes) : Prop :=
  ∃ p, findWord m.intname s = some p ∧
    behindIntegers blank m.field (s.drop (p + m.intname.length)) ≠ [] ∧
    v = (behindIntegers blank m.field (s.drop (p + m.intname.length))).takeWhile (· != 32)

variable {m : MPnetstats} {s v : Bytes}

/-- A string is passed over exactly where the name of the interface is not found in it. -/
theorem look_eq_none_iff : m.look R s = .ok none ↔ m.Passed s := by
  unfold look Passed
  cases findWord m.intname s with
  | none => exact iff_of_true rfl rfl
  | some p =>
    refine iff_of_false (fun h => ?_) (fun h => (nomatch h))
    dsimp only at h
    split at h
    · cases h
    · obtain ⟨v, -, hv⟩ := map_eq_ok.mp h
      cases hv

/-- What stands at a field, up to the next space. -/
def wordOf (t : Bytes) : Option Bytes := if t = [] then none else some (t.takeWhile (· != 32))

/-- What a string of the interface decides. -/
theorem look_found (hR : R.Described blank) (hlen : s.length < npos) {p : Nat}
    (hp : findWord m.intname s = some p) :
    m.look R s = .ok (some (wordOf
      (behindIntegers blank m.field (s.drop (p + m.intname.length))))) := by
  have hleft := left_seekField hR hlen m.field (left_seekspace hR s (p + m.intname.length))
    (List.dropWhile_idempotent _ _)
  unfold look wordOf behindIntegers
  rw [hp]
  dsimp only
  -- `npos` is where the line ends before the field
  by_cases hq : seekField R s m.field (R.seekspace s (p + m.intname.length)) = npos
  · rw [if_pos hq, if_pos ((hleft.eq_npos_iff hlen).mp hq)]
  · have hne := mt (hleft.eq_npos_iff hlen).mpr hq
    rw [if_neg hq, if_neg hne, hleft.wordAt hne]
    rfl

/-- A string gives a value exactly where the name is found and something stands at the field. -/
theorem look_eq_some_iff (hR : R.Described blank) (hlen : s.length < npos) :
    m.look R s = .ok (some (some v)) ↔ m.Gives blank s v := by
  unfold Gives
  cases hp : findWord m.intname s with
  | none =>
    rw [look_eq_none_iff.mpr hp]
    exact ⟨fun h => (nomatch h), fun ⟨p, h, _⟩ => (nomatch h)⟩
  | some p =>
    rw [look_found hR hlen hp, wordOf]
    split
    case isTrue hnil =>
      refine iff_of_false (fun h => (nomatch h)) ?_
      rintro ⟨p', hp', hne, -⟩
      cases hp'
      exact hne hnil
    case isFalse hne =>
      constructor
      · intro h
        exact ⟨p, rfl, hne, (Option.some.inj (Option.some.inj (Except.ok.inj h))).symm⟩
      · rintro ⟨p', hp', -, rfl⟩
        cases hp'
        rfl

end MPnetstats

/-! ## Servers -/

namespace MMemcached

/-- A server is asked for the same names whatever the parameter is. -/
theorem mem_keys_make {param name : Bytes} :
    name ∈ (make param).mss.keys ↔ name ∈ asked.map Prod.fst := by
  rw [make, Lib.OrdMap.mem_keys_foldl_insert]
  exact or_iff_left List.not_mem_nil

end MMemcached

namespace MMySQLGStatus

variable {name : Bytes}

theorem mem_keys_foldl_read (ws : List Bytes) (x : MMySQLGStatus × Bytes) :
    name ∈ (ws.foldl read x).1.gvar.keys ↔ (name ∈ ws ∧ name ∉ stypes) ∨ name ∈ x.1.gvar.keys := by
  induction ws generalizing x with
  | nil => simp
  | cons w ws ih =>
    rw [List.foldl_cons, ih, read]
    split
    case isTrue hw =>
      have hne : name = w → ¬ name ∉ stypes := fun heq hmem => hmem (heq ▸ hw)
      rw [List.mem_cons]
      tauto
    case isFalse hw =>
      have hmem : name = w → name ∉ stypes := fun heq => heq ▸ hw
      rw [Lib.OrdMap.mem_keys_insert, List.mem_cons]
      tauto

/-- **The variables of a point** are the words of its parameter that name no type. -/
theorem mem_keys_make {param : Bytes} :
    name ∈ (make param).gvar.keys ↔ name ∈ words param ∧ name ∉ stypes := by
  rw [make, mem_keys_foldl_read]
  exact or_iff_left List.not_mem_nil

theorem fetch_foldl_read (ws : List Bytes) (x : MMySQLGStatus × Bytes) :
    (ws.foldl read x).1.fetch_slave_state = true ↔
      secondsBehindMaster ∈ ws ∨ x.1.fetch_slave_state = true := by
  induction ws generalizing x with
  | nil => simp
  | cons w ws ih =>
    rw [List.foldl_cons, ih, read]
    split
    -- a type is no variable: the flag stays
    case isTrue hw =>
      have hne : secondsBehindMaster ≠ w := by
        rintro rfl
        exact absurd hw (by decide)
      simp [hne]
    case isFalse hw =>
      rw [List.mem_cons]
      simp only [Bool.or_eq_true, beq_iff_eq]
      rw [show w = secondsBehindMaster ↔ secondsBehindMaster = w from eq_comm]
      tauto

/-- The state of the slave is fetched where its delay is asked for. -/
theorem fetch_make {param : Bytes} :
    (make param).fetch_slave_state = true ↔ secondsBehindMaster ∈ words param := by
  rw [make, fetch_foldl_read]
  exact or_iff_left Bool.false_ne_true

/-! ### The rows -/

/-- Rows give values to the variables there are, and add none. -/
theorem keys_foldl_readrow (rows : List (Bytes × Bytes)) (gvar : Lib.OrdMap Bytes Bytes) :
    (rows.foldl readrow gvar).keys = gvar.keys := by
  induction rows generalizing gvar with
  | nil => rfl
  | cons row rows ih =>
    rw [List.foldl_cons, ih, readrow]
    split
    case isTrue h => exact Lib.OrdMap.keys_insert h row.2
    case isFalse => rfl

/-- The last row of a name gives its value. -/
theorem find?_foldl_readrow (rows : List (Bytes × Bytes)) {gvar : Lib.OrdMap Bytes Bytes} {v : Bytes}
    (h : gvar.find? name = some v) :
    (rows.foldl readrow gvar).find? name
      = some (((rows.reverse.find? fun row => row.1 = name).map (·.2)).getD v) := by
  -- the value in front of the rows is kept general: each row of the name replaces it
  induction rows generalizing gvar v with
  | nil => exact h
  | cons row rows ih =>
    have hrow : (readrow gvar row).find? name = some (if row.1 = name then row.2 else v) := by
      unfold readrow
      by_cases heq : row.1 = name
      · rw [if_pos (Lib.OrdMap.contains_iff.mpr ⟨v, heq ▸ h⟩), heq, if_pos rfl,
          Lib.OrdMap.find?_insert_self]
      · rw [if_neg heq]
        split
        · rw [Lib.OrdMap.find?_insert_other _ (Ne.symm heq), h]
        · exact h
    rw [List.foldl_cons, ih hrow, List.reverse_cons, List.find?_append]
    -- a later row of the name hides this one
    cases hfind : rows.reverse.find? fun row => row.1 = name with
    | some row' => rfl
    | none =>
      by_cases heq : row.1 = name
      · simp [heq]
      · simp [heq]

theorem keys_readrows (gvar : Lib.OrdMap Bytes Bytes) (res : MysqlRes) :
    (readrows gvar res).keys = gvar.keys := by
  unfold readrows
  dsimp only
  split
  · rw [Lib.OrdMap.keys_mapVals]
  · rw [keys_foldl_readrow, Lib.OrdMap.keys_mapVals]

/-- What a result tells of a variable. -/
def told (res : MysqlRes) (name : Bytes) : Option Bytes :=
  if res.num_fields < 2 then none
  else (res.rows.reverse.find? fun row => row.1 = name).map (·.2)

/-- Behind a result a variable has what it tells of it, `U` where it tells nothing. -/
theorem find?_readrows {gvar : Lib.OrdMap Bytes Bytes} (h : name ∈ gvar.keys) (res : MysqlRes) :
    (readrows gvar res).find? name = some ((told res name).getD unknown) := by
  obtain ⟨v, hv⟩ := Lib.OrdMap.contains_iff.mp (Lib.OrdMap.mem_keys_iff.mp h)
  have hunknown : (gvar.mapVals fun _ _ => unknown).find? name = some unknown := by
    rw [Lib.OrdMap.find?_mapVals, hv, Option.map_some]
  unfold readrows told
  dsimp only
  split
  · exact hunknown
  · exact find?_foldl_readrow res.rows hunknown

end MMySQLGStatus

/-! ## Every kind -/

/-- The first word of the first string of a file can stand in a column, if there is one. -/
def FirstWordIsValue (R : Readers) (env : Outside) (path : Bytes) : Prop :=
  ∀ content word rest, env.file path = some content →
    firstString R content = word ++ 32 :: rest → 32 ∉ word → IsValue word

/-- What is outside gives a point of this kind and parameter its values. -/
def Supplied (R : Readers) (blank : UInt8 → Bool) (env : Outside) (param : Bytes) : Kind → Prop
  | .diskstats =>
    FirstGives (MPdiskstats.make param).Passed (MPdiskstats.make param).Gives
      (strings R env (str "/proc/diskstats"))
  | .netstats =>
    FirstGives (MPnetstats.make param).Passed ((MPnetstats.make param).Gives blank)
      (strings R env (str "/proc/net/dev"))
  | .loadavg => FirstWordIsValue R env (str "/proc/loadavg")
  | .conncount => FirstWordIsValue R env (str "/proc/loadavg")
  | .meminfo => env.file (str "/proc/meminfo") ≠ none
  | .memcached => ∀ stat, env.memcached_stat = some stat →
    ∀ name ∈ MMemcached.asked.map Prod.fst, ∀ v, stat name = some v → IsValue v
  | .mysqlgstatus =>
    (MMySQLGStatus.secondsBehindMaster ∈ MMySQLGStatus.words param →
      env.slave_status = none ∨ env.global_status = none) ∧
    ∀ res, env.global_status = some res → ∀ name ∈ MMySQLGStatus.words param,
      name ∉ MMySQLGStatus.stypes → name ≠ MMySQLGStatus.secondsBehindMaster →
        ∀ v, MMySQLGStatus.told res name = some v → IsValue v
  | .filelen => True
  | .matchflen => True
  | .freespace => True
  | .filevalue => True

end Qigong.Measure
