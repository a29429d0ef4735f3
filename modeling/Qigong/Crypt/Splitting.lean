import Qigong.Crypt.Session

/-!
# Two ways to cut a text into lines (qicrypt.cpp:674–692, 837–875)

`read` cuts what it has read byte by byte; `prelineread` cuts a deciphered record by looking
for the next line end and moving two positions along (`recordLines`). They agree on the lines
that are ended. What is left behind the last line end is no line for `read`, which keeps it for
the next buffer; `prelineread` passes it on where there is something left, or where the record
has no line end at all (`record_splits_as_stream`).
-/

namespace Qigong.Crypt

namespace CryptConnection

/-! ## The loop of `prelineread` -/

/-- `temp.find_first_of (matcheol, p)`. -/
def find_first_of (temp : Bytes) (p : Nat) : Option Nat :=
  ((temp.drop p).findIdx? isEol).map (p + ·)

/-- `q++` for the second half of a pair, and the position behind. -/
def behindEol (temp : Bytes) (q : Nat) : Nat :=
  if q + 1 < temp.length ∧ isEolPair (temp.getD q 0) (temp.getD (q + 1) 0) = true then q + 1 + 1
  else q + 1

theorem lt_behindEol (temp : Bytes) (q : Nat) : q < behindEol temp q := by
  unfold behindEol
  split <;> omega

theorem le_of_find_first_of {temp : Bytes} {p q : Nat} (h : find_first_of temp p = some q) :
    p ≤ q := by
  obtain ⟨i, -, rfl⟩ := Option.map_eq_some_iff.mp h
  exact Nat.le_add_right p i

/-- The loop (qicrypt.cpp:849–874) for a line from `p` to the line end at `q`. -/
def splitLoop (temp : Bytes) (p q : Nat) : List Bytes :=
  (temp.drop p).take (q - p) ::
    if _hlt : behindEol temp q < temp.length then
      match _h : find_first_of temp (behindEol temp q) with
      | some q' => splitLoop temp (behindEol temp q) q'
      | none => [temp.drop (behindEol temp q)]
    else []
termination_by temp.length - q
decreasing_by
  have h1 := lt_behindEol temp q
  have h2 := le_of_find_first_of _h
  omega

/-- The values of `bufin` that `prelineread` passes to `lineread` for a record. -/
def recordLines (temp : Bytes) : List Bytes :=
  match find_first_of temp 0 with
  | none => [temp]
  | some q => splitLoop temp 0 q

/-! ## Up to a line end -/

/-- What stands behind a line end. -/
def afterEol (c : UInt8) : Bytes → Bytes
  | [] => []
  | d :: s => if isEolPair c d then s else d :: s

/-- A text without a line end goes on the line under way. -/
theorem splitRecord_text (cur s : Bytes) {line : Bytes} (h : NoEol line) :
    splitRecord cur (line ++ s) = splitRecord (cur ++ line) s := by
  induction line generalizing cur with
  | nil => simp
  | cons c line ih =>
    have hc : ¬ isEol c = true := by
      rw [h c List.mem_cons_self]
      exact Bool.false_ne_true
    have hnext : splitRecord cur (c :: (line ++ s)) = splitRecord (cur ++ [c]) (line ++ s) := by
      cases line ++ s with
      | nil => simp [splitRecord, hc]
      | cons d t => rw [splitRecord, if_neg hc]
    have hline := ih (cur ++ [c]) fun d hd => h d (List.mem_cons_of_mem _ hd)
    rw [List.cons_append, hnext, hline, List.append_assoc, List.singleton_append]

/-- A line end ends it, and what is left behind it is split in turn. -/
theorem splitRecord_eol (cur s : Bytes) {c : UInt8} (h : isEol c = true) :
    splitRecord cur (c :: s) =
      cur :: if afterEol c s = [] then [] else splitRecord [] (afterEol c s) := by
  cases s with
  | nil => simp [splitRecord, afterEol, h]
  | cons d s =>
    rw [splitRecord, if_pos h, afterEol]
    split
    · split <;> rfl
    · rw [if_neg (List.cons_ne_nil _ _)]

/-- From the position behind a line end on stands what stands behind it. -/
theorem drop_behindEol {temp s : Bytes} {c : UInt8} {q : Nat} (h : temp.drop q = c :: s) :
    temp.drop (behindEol temp q) = afterEol c s := by
  have hlen := congrArg List.length h
  rw [List.length_drop, List.length_cons] at hlen
  have hq : temp.getD q 0 = c := by
    have hget := congrArg List.head? h
    rw [List.head?_drop, List.head?_cons] at hget
    rw [List.getD_eq_getElem?_getD, hget, Option.getD_some]
  have hs : temp.drop (q + 1) = s := by rw [← List.drop_drop, h, List.drop_one, List.tail_cons]
  unfold behindEol
  cases s with
  | nil =>
    have hnot : ¬ q + 1 < temp.length := by
      rw [List.length_nil] at hlen
      omega
    rw [if_neg fun hpair => hnot hpair.1, hs, afterEol]
  | cons d s =>
    have hlt : q + 1 < temp.length := by
      rw [List.length_cons] at hlen
      omega
    have hd : temp.getD (q + 1) 0 = d := by
      have hget := congrArg List.head? hs
      rw [List.head?_drop, List.head?_cons] at hget
      rw [List.getD_eq_getElem?_getD, hget, Option.getD_some]
    rw [hq, hd, afterEol]
    -- a pair is skipped as a whole, a single line end alone
    by_cases hpair : isEolPair c d = true
    · rw [if_pos ⟨hlt, hpair⟩, if_pos hpair, ← List.drop_drop, hs, List.drop_one, List.tail_cons]
    · rw [if_neg fun h => hpair h.2, if_neg hpair, hs]

/-- Where none is found there is none. -/
theorem find_first_of_none {temp : Bytes} {p : Nat} (h : find_first_of temp p = none) :
    NoEol (temp.drop p) := by
  rw [find_first_of, Option.map_eq_none_iff, List.findIdx?_eq_none_iff] at h
  exact h

/-- The line up to the line end that is found. -/
theorem find_first_of_some {temp : Bytes} {p q : Nat} (h : find_first_of temp p = some q) :
    ∃ line c s, temp.drop p = line ++ c :: s ∧ NoEol line ∧ isEol c = true ∧
      q = p + line.length := by
  obtain ⟨i, hi, rfl⟩ := Option.map_eq_some_iff.mp h
  obtain ⟨hlt, hc, hbefore⟩ := List.findIdx?_eq_some_iff_getElem.mp hi
  refine ⟨(temp.drop p).take i, (temp.drop p)[i], (temp.drop p).drop (i + 1), ?_, ?_, hc, ?_⟩
  · rw [List.getElem_cons_drop, List.take_append_drop]
  · intro d hd
    obtain ⟨j, hj, rfl⟩ := List.mem_iff_getElem.mp hd
    rw [List.length_take] at hj
    rw [List.getElem_take]
    exact Bool.not_eq_true _ ▸ hbefore j (by omega)
  · rw [List.length_take, Nat.min_eq_left (Nat.le_of_lt hlt)]

/-- The loop moves along the record as `splitRecord` does. -/
theorem splitLoop_eq {temp : Bytes} {p q : Nat} (h : find_first_of temp p = some q) :
    -- the loop ends with the record, goes on to the next line end, or takes the rest as a line
    splitLoop temp p q = splitRecord [] (temp.drop p) := by
  induction p, q using splitLoop.induct temp with
  | case1 p q ih =>
  obtain ⟨line, c, s, hdrop, hline, hc, rfl⟩ := find_first_of_some h
  -- the line end found, and behind it the rest of the record
  have hat : temp.drop (p + line.length) = c :: s := by
    rw [← List.drop_drop, hdrop, List.drop_left]
  have hbehind := drop_behindEol hat
  have hnil : afterEol c s = [] ↔ ¬ behindEol temp (p + line.length) < temp.length := by
    rw [← hbehind, List.drop_eq_nil_iff, Nat.not_lt]
  rw [splitLoop, hdrop, Nat.add_sub_cancel_left, List.take_left, splitRecord_text _ _ hline,
    splitRecord_eol _ _ hc, List.nil_append, ← hbehind]
  congr 1
  split
  case isFalse hend => rw [if_pos (hbehind.trans (hnil.mpr hend))]
  case isTrue hlt =>
  rw [if_neg fun heq => hnil.mp (hbehind ▸ heq) hlt]
  split
  case h_1 q' hq' => exact ih hlt q' hq' hq'
  case h_2 hnone =>
    have hrest := splitRecord_text [] [] (find_first_of_none hnone)
    rw [List.append_nil, List.nil_append] at hrest
    rw [hrest]
    rfl

/-- `splitRecord` is what the loop of `prelineread` does. -/
theorem recordLines_eq (temp : Bytes) : recordLines temp = splitRecord [] temp := by
  unfold recordLines
  split
  case h_1 hnone =>
    have hrest := splitRecord_text [] [] (find_first_of_none hnone)
    rw [List.drop_zero, List.append_nil, List.nil_append] at hrest
    rw [hrest]
    rfl
  case h_2 q hq => exact splitLoop_eq hq

/-! ## The two loops -/

/-- The rest of a buffer is a line of a record where there is something left, or where the
record has no line end. -/
def restLine (w rest : Bytes) : List Bytes :=
  if rest ≠ [] ∨ NoEol w then [rest] else []

theorem restLine_eol {c : UInt8} (h : isEol c = true) (s rest : Bytes) :
    restLine (c :: s) rest = if rest ≠ [] then [rest] else [] := by
  have hnot : ¬ NoEol (c :: s) := fun hall => by
    rw [hall c List.mem_cons_self] at h
    cases h
  simp [restLine, hnot]

theorem restLine_cons {c : UInt8} (h : ¬ isEol c = true) (s rest : Bytes) :
    restLine (c :: s) rest = restLine s rest := by
  have hiff : NoEol (c :: s) ↔ NoEol s := by simp [h]
  simp only [restLine, hiff]

/-- A buffer without a line end is all left over. -/
theorem cutLines_text (cur : Bytes) {s : Bytes} (h : NoEol s) : cutLines cur s = ([], cur ++ s) := by
  fun_induction cutLines cur s with
  | case1 => simp
  | case2 cur c hc =>
    rw [h c List.mem_cons_self] at hc
    cases hc
  | case3 => rfl
  | case4 cur c d s hc r ih =>
    rw [h c List.mem_cons_self] at hc
    cases hc
  | case5 cur c d s hc ih =>
    rw [ih fun e he => h e (List.mem_cons_of_mem _ he), List.append_assoc, List.singleton_append]

/-- What is left of a text that is not empty is a line of it where it is not empty. -/
theorem restLine_cutLines {s : Bytes} (h : s ≠ []) :
    restLine s (cutLines [] s).2 = if (cutLines [] s).2 ≠ [] then [(cutLines [] s).2] else [] := by
  have hiff : (cutLines [] s).2 ≠ [] ∨ NoEol s ↔ (cutLines [] s).2 ≠ [] := by
    refine ⟨fun hor => hor.elim id fun hs => ?_, .inl⟩
    rwa [cutLines_text [] hs]
  simp only [restLine, hiff]

/-- A text cut by one loop is cut so by the other, up to what is left. -/
theorem splitRecord_eq_cutLines (cur w : Bytes) :
    splitRecord cur w = (cutLines cur w).1 ++ restLine w (cutLines cur w).2 := by
  -- both go by one character, or by a pair: what is left over differs at the end only
  fun_induction splitRecord cur w with
  | case1 cur => simp [cutLines, restLine]
  | case2 cur c hc => simp [cutLines, hc, restLine_eol hc]
  | case3 cur c hc => simp [cutLines, hc, restLine]
  | case4 cur c d hc hp => simp [cutLines, hc, hp, restLine_eol hc]
  | case5 cur c d s hc hp hs ih =>
    rw [cutLines, if_pos hc, if_pos hp, restLine_eol hc, ih, restLine_cutLines hs, List.cons_append]
  | case6 cur c d s hc hp ih =>
    rw [cutLines, if_pos hc, if_neg hp, restLine_eol hc, ih, restLine_cutLines (List.cons_ne_nil d s),
      List.cons_append]
  | case7 cur c d s hc ih =>
    rw [cutLines, if_neg hc, restLine_cons hc, ih]

/-- **A record is split as a stream is**: in state `Accepted`, `prelineread` passes on the
lines that `read` would cut out of the record as one buffer, and behind them what is left. -/
theorem record_splits_as_stream {P : Platform} {c : CryptConnection P}
    (hc : c.challenging = ChallengeState.Accepted) (env : LineEnv) (w : Bytes) :
    c.onText env w = .ok (c, (recordLines w).map .lineread) ∧
      recordLines w = (cutLines [] w).1 ++
        if (cutLines [] w).2 ≠ [] ∨ NoEol w then [(cutLines [] w).2] else [] := by
  constructor
  · rw [onText_accepted hc, recordLines_eq]
  · rw [recordLines_eq]
    exact splitRecord_eq_cutLines [] w

/-- A session that is accepted. -/
def acceptedSupplicant : CryptConnection samplePlatform :=
  { sampleSupplicant with challenging := ChallengeState.Accepted }

theorem record_splits_as_stream_accepted :
    recordLines (str "a\r\n\nb") = [str "a", [], str "b"] ∧
      acceptedSupplicant.onText (fairEnv [] []) (str "a\r\n\nb")
        = .ok (acceptedSupplicant, [.lineread (str "a"), .lineread [], .lineread (str "b")]) := by
  have h := record_splits_as_stream (c := acceptedSupplicant) rfl (fairEnv [] []) (str "a\r\n\nb")
  have hlines : recordLines (str "a\r\n\nb") = [str "a", [], str "b"] := by
    rw [h.2]
    decide
  exact ⟨hlines, by rw [h.1, hlines]; rfl⟩

end CryptConnection

end Qigong.Crypt
