import Mathlib.Data.Int.Order.Basic
import Qigong.Lib.Lists
import Qigong.Measure.Columns
import Qigong.Measure.Filelen

/-!
# Which file `matchflen` follows (qimeasure.cpp:44–90 and 386–417)

The parameter of `matchflen` is a directory, the beginning and the end of a name, separated by
commas. The beginning is set only where a second comma is found: of `dir,begin` nothing but the
directory is used, and the newest regular file of any name is followed.

The loop over the directory keeps the newest match, the last of equals (`getlast_eq`). So the
file followed is the one that is meant where the parameter has no comma or two, or the newest
regular file has a name that begins as it should (`newest_iff`).
-/

namespace Qigong.Measure

variable {env : Outside}

/-! ## Names -/

theorem findWord_eq_zero_iff {w s : Bytes} : findWord w s = some 0 ↔ w <+: s := by
  unfold findWord
  rw [List.range_succ_eq_map, List.find?_cons]
  cases h : w.isPrefixOf (s.drop 0) with
  | true => exact iff_of_true rfl (List.isPrefixOf_iff_prefix.mp h)
  | false =>
    refine iff_of_false (fun hf => ?_) fun hp => ?_
    · have hmem := List.mem_of_find?_eq_some hf
      simp at hmem
    · rw [List.drop_zero, List.isPrefixOf_iff_prefix.mpr hp] at h
      cases h

/-- The greatest number that passes a test. -/
theorem find?_range_reverse {t : Nat → Bool} {n p : Nat} :
    (List.range n).reverse.find? t = some p ↔
      p < n ∧ t p = true ∧ ∀ q, p < q → q < n → t q = false := by
  induction n with
  | zero => exact ⟨fun h => (nomatch h), fun h => (nomatch h.1)⟩
  | succ n ih =>
    rw [List.range_succ, List.reverse_append, List.reverse_singleton, List.singleton_append,
      List.find?_cons]
    cases hn : t n with
    | true =>
      rw [Option.some.injEq]
      constructor
      · rintro rfl
        exact ⟨Nat.lt_succ_self n, hn, fun q hlt hle => by omega⟩
      · rintro ⟨hle, -, hmax⟩
        by_contra hne
        rw [hmax n (by omega) (Nat.lt_succ_self n)] at hn
        cases hn
    | false =>
      dsimp only
      rw [ih]
      constructor
      · rintro ⟨hlt, hp, hmax⟩
        refine ⟨by omega, hp, fun q hpq hq => ?_⟩
        rcases Nat.lt_succ_iff_lt_or_eq.mp hq with hq | rfl
        · exact hmax q hpq hq
        · exact hn
      · rintro ⟨hlt, hp, hmax⟩
        have hne : p ≠ n := by
          rintro rfl
          rw [hn] at hp
          cases hp
        exact ⟨by omega, hp, fun q hpq hq => hmax q hpq (by omega)⟩

/-- The last place of a word is the end of the string where the word ends it. -/
theorem rfindWord_eq_iff {w s : Bytes} :
    rfindWord w s = some (s.length - w.length) ↔ w <:+ s := by
  rw [rfindWord, find?_range_reverse, List.isPrefixOf_iff_prefix]
  constructor
  · rintro ⟨-, hp, -⟩
    have hlen := hp.length_le
    rw [List.length_drop] at hlen
    have heq : w = s.drop (s.length - w.length) := hp.eq_of_length (by
      rw [List.length_drop]
      omega)
    rw [heq]
    exact List.drop_suffix _ _
  · rintro ⟨pre, rfl⟩
    have hlen : (pre ++ w).length - w.length = pre.length := by
      rw [List.length_append, Nat.add_sub_cancel]
    rw [hlen, List.drop_left]
    have hlast : pre.length < (pre ++ w).length + 1 := by
      rw [List.length_append]
      omega
    refine ⟨hlast, List.prefix_rfl, fun q hq hq' => Bool.eq_false_iff.mpr fun hp => ?_⟩
    have hle := (List.isPrefixOf_iff_prefix.mp hp).length_le
    rw [List.length_drop, List.length_append] at hle
    rw [List.length_append] at hq'
    omega

/-- The name begins and ends so, and is that of a regular file. -/
structure Matches (fname_begin fname_end : Bytes) (fname : Bytes) (fst : DirStat) : Prop where
  isReg : fst.isReg = true
  starts : fname_begin <+: fname
  ends : fname_end <:+ fname

/-- `matchentry` asks what is meant by a match. -/
theorem matchentry_iff {g : MatchBeginEnd} {fname : Bytes} {fst : DirStat} :
    g.matchentry fname fst = true ↔ Matches g.fname_begin g.fname_end fname fst := by
  unfold MatchBeginEnd.matchentry
  have hends : (g.fname_end.isEmpty ||
      rfindWord g.fname_end fname == some (fname.length - g.fname_end.length)) = true ↔
        g.fname_end <:+ fname := by
    rw [Bool.or_eq_true, beq_iff_eq, rfindWord_eq_iff, List.isEmpty_iff, or_iff_right_of_imp]
    intro h
    rw [h]
    exact List.nil_suffix
  rw [Bool.and_eq_true, Bool.and_eq_true, beq_iff_eq, findWord_eq_zero_iff, hends]
  exact ⟨fun ⟨⟨h₁, h₂⟩, h₃⟩ => ⟨h₁, h₂, h₃⟩, fun h => ⟨⟨h.isReg, h.starts⟩, h.ends⟩⟩

/-! ## The parameter -/

/-- The three forms of the parameter. -/
inductive Form where
  | dir
  | dirBegin
  | dirBeginEnd
deriving DecidableEq, Repr

namespace Form

/-- The parameter. -/
def param (dir fname_begin fname_end : Bytes) : Form → Bytes
  | .dir => dir
  | .dirBegin => dir ++ 44 :: fname_begin
  | .dirBeginEnd => dir ++ 44 :: (fname_begin ++ 44 :: fname_end)

/-- What the name is to begin and to end with; a missing part is empty. -/
def wanted (fname_begin fname_end : Bytes) : Form → Bytes × Bytes
  | .dir => ([], [])
  | .dirBegin => (fname_begin, [])
  | .dirBeginEnd => (fname_begin, fname_end)

end Form

/-- **What the constructor makes of each form**: the beginning is set with the end only. -/
theorem make_param {dir fname_begin fname_end : Bytes} (hdir : 44 ∉ dir)
    (hbegin : 44 ∉ fname_begin) (hend : 44 ∉ fname_end) (form : Form) :
    MatchBeginEnd.make (form.param dir fname_begin fname_end)
      = match form with
        | .dir | .dirBegin => ⟨dir, [], []⟩
        | .dirBeginEnd => ⟨dir, fname_begin, fname_end⟩ := by
  have hfirst : ∀ rest, findFrom 44 (dir ++ 44 :: rest) 0 = some dir.length := fun rest => by
    simpa using findFrom_at [] rest hdir
  have hlast : ∀ {u v : Bytes}, 44 ∉ v → findFrom 44 (u ++ 44 :: v) (u.length + 1) = none :=
    fun {u v} hv => findFrom_eq_none_iff.mpr ((drop_behind u v 44).symm ▸ hv)
  cases form with
  | dir =>
    have hnone : findFrom 44 dir 0 = none := findFrom_eq_none_iff.mpr hdir
    show MatchBeginEnd.make dir = _
    rw [MatchBeginEnd.make, hnone]
  | dirBegin =>
    show MatchBeginEnd.make (dir ++ 44 :: fname_begin) = _
    rw [MatchBeginEnd.make, hfirst]
    dsimp only
    rw [hlast hbegin, List.take_left]
  | dirBeginEnd =>
    have hsecond : findFrom 44 (dir ++ 44 :: (fname_begin ++ 44 :: fname_end)) (dir.length + 1)
        = some (dir.length + 1 + fname_begin.length) := by
      have hat := findFrom_at (dir ++ [44]) fname_end hbegin
      rwa [List.append_assoc, List.singleton_append, List.length_append,
        List.length_singleton] at hat
    have hthird : findFrom 44 (dir ++ 44 :: (fname_begin ++ 44 :: fname_end))
        (dir.length + 1 + fname_begin.length + 1) = none := by
      have hpos : (dir ++ 44 :: fname_begin).length = dir.length + 1 + fname_begin.length := by
        rw [List.length_append, List.length_cons]
        omega
      have hnone := hlast (u := dir ++ 44 :: fname_begin) hend
      rwa [List.append_assoc, List.cons_append, hpos] at hnone
    have hdrop : (dir ++ 44 :: (fname_begin ++ 44 :: fname_end)).drop
        (dir.length + 1 + fname_begin.length + 1) = fname_end := by
      rw [Nat.add_assoc, ← List.drop_drop, drop_behind, drop_behind]
    show MatchBeginEnd.make (dir ++ 44 :: (fname_begin ++ 44 :: fname_end)) = _
    rw [MatchBeginEnd.make, hfirst]
    dsimp only
    rw [hsecond]
    dsimp only
    rw [hthird]
    dsimp only
    rw [List.take_left, drop_behind, Nat.add_sub_cancel_left, List.take_left, hdrop]

/-! ## The loop over the directory -/

/-- The entries that match, with what `lstat` tells of them. -/
def matching (fname_begin fname_end : Bytes) (entries : List (Bytes × Option DirStat)) :
    List (Bytes × DirStat) :=
  entries.filterMap fun e => e.2.bind fun fst =>
    if fst.isReg = true ∧ fname_begin <+: e.1 ∧ fname_end <:+ e.1 then some (e.1, fst) else none

/-- They are the entries that `lstat` knows and that match. -/
theorem mem_matching_iff {fname_begin fname_end fname : Bytes} {fst : DirStat}
    {entries : List (Bytes × Option DirStat)} :
    (fname, fst) ∈ matching fname_begin fname_end entries ↔
      (fname, some fst) ∈ entries ∧ Matches fname_begin fname_end fname fst := by
  rw [matching, List.mem_filterMap]
  constructor
  · rintro ⟨⟨fname', fst'⟩, hmem, h⟩
    obtain ⟨fst₀, rfl, h⟩ := Option.bind_eq_some_iff.mp h
    split at h
    case isTrue hm =>
      obtain ⟨rfl, rfl⟩ := Prod.mk.inj (Option.some.inj h)
      exact ⟨hmem, hm.1, hm.2.1, hm.2.2⟩
    case isFalse => cases h
  · rintro ⟨hmem, hm⟩
    exact ⟨_, hmem, if_pos ⟨hm.isReg, hm.starts, hm.ends⟩⟩

theorem matching_append_singleton (fname_begin fname_end : Bytes)
    (entries : List (Bytes × Option DirStat)) (e : Bytes × Option DirStat) :
    matching fname_begin fname_end (entries ++ [e]) =
      matching fname_begin fname_end entries ++ matching fname_begin fname_end [e] :=
  List.filterMap_append

/-- The newest of the matches, the last of equals. -/
def newest (fname_begin fname_end : Bytes) (entries : List (Bytes × Option DirStat)) :
    Option (Bytes × DirStat) :=
  Lib.lastGreatest (fun x : Bytes × DirStat => x.2.st_mtime)
    (matching fname_begin fname_end entries)

/-- The newest match is a match, and no match is newer. -/
theorem newest_spec {fname_begin fname_end : Bytes} {entries : List (Bytes × Option DirStat)}
    {x : Bytes × DirStat} (h : newest fname_begin fname_end entries = some x) :
    (x.1, some x.2) ∈ entries ∧ Matches fname_begin fname_end x.1 x.2 ∧
      ∀ fname fst, (fname, some fst) ∈ entries → Matches fname_begin fname_end fname fst →
        fst.st_mtime ≤ x.2.st_mtime := by
  obtain ⟨hmem, hmatches⟩ := mem_matching_iff.mp (Lib.lastGreatest_mem h)
  refine ⟨hmem, hmatches, fun fname fst hmem' hmatches' => ?_⟩
  exact Lib.le_lastGreatest (y := (fname, fst)) h (mem_matching_iff.mpr ⟨hmem', hmatches'⟩)

theorem matching_singleton (g : MatchBeginEnd) (fname : Bytes) (fst : DirStat) :
    matching g.fname_begin g.fname_end [(fname, some fst)]
      = if g.matchentry fname fst = true then [(fname, fst)] else [] := by
  split
  case isTrue hm =>
    have h := matchentry_iff.mp hm
    simp [matching, h.isReg, h.starts, h.ends]
  case isFalse hm =>
    refine List.eq_nil_iff_forall_not_mem.mpr ?_
    rintro ⟨fname', fst'⟩ hx
    obtain ⟨hmem, hmatches⟩ := mem_matching_iff.mp hx
    obtain ⟨rfl, hfst⟩ := Prod.mk.inj (List.mem_singleton.mp hmem)
    obtain rfl := Option.some.inj hfst
    exact hm (matchentry_iff.mpr hmatches)

/-- One turn of the loop keeps the newest match so far; with none, 0 stands for its time. -/
theorem look_newest (g : MatchBeginEnd) (entries : List (Bytes × Option DirStat))
    {e : Bytes × Option DirStat} (htime : ∀ fst, e.2 = some fst → 0 ≤ fst.st_mtime) :
    g.look ((newest g.fname_begin g.fname_end entries).map
        fun x => (g.dirname ++ str "/" ++ x.1, x.2.st_mtime)) e
      = (newest g.fname_begin g.fname_end (entries ++ [e])).map
        fun x => (g.dirname ++ str "/" ++ x.1, x.2.st_mtime) := by
  rw [newest, newest, matching_append_singleton]
  obtain ⟨fname, fst⟩ := e
  cases fst with
  | none =>
    -- an entry that `lstat` fails on is passed over
    show _ = (Lib.lastGreatest _ (_ ++ [])).map _
    rw [List.append_nil]
    rfl
  | some fst =>
    rw [matching_singleton]
    -- a match replaces the newest so far if it is no older
    by_cases hm : g.matchentry fname fst = true
    · have hpos := htime fst rfl
      rw [if_pos hm, Lib.lastGreatest_append]
      cases Lib.lastGreatest (fun x : Bytes × DirStat => x.2.st_mtime)
          (matching g.fname_begin g.fname_end entries) with
      | none => simp [MatchBeginEnd.look, Lib.keepGreatest, hm, hpos]
      | some x =>
        by_cases hle : x.2.st_mtime ≤ fst.st_mtime
        · simp [MatchBeginEnd.look, Lib.keepGreatest, hm, hle]
        · simp [MatchBeginEnd.look, Lib.keepGreatest, hle]
    · rw [if_neg hm, List.append_nil]
      simp [MatchBeginEnd.look, hm]

/-- **What the loop keeps is the newest match**, where no time is negative. -/
theorem foldl_look {g : MatchBeginEnd} {entries : List (Bytes × Option DirStat)}
    (htimes : ∀ fname fst, (fname, some fst) ∈ entries → 0 ≤ fst.st_mtime) :
    entries.foldl g.look none = (newest g.fname_begin g.fname_end entries).map
      fun x => (g.dirname ++ str "/" ++ x.1, x.2.st_mtime) := by
  induction entries using List.reverseRecOn with
  | nil => rfl
  | append_singleton entries e ih =>
    have hrest := ih fun fname fst hmem => htimes fname fst (List.mem_append_left _ hmem)
    rw [List.foldl_append, List.foldl_cons, List.foldl_nil, hrest]
    refine look_newest g entries fun fst hfst => htimes e.1 fst (List.mem_append_right _ ?_)
    rw [← hfst]
    exact List.mem_cons_self

/-- `getlast` gives the newest match, under its directory. -/
theorem getlast_eq {g : MatchBeginEnd} {entries : List (Bytes × Option DirStat)}
    (hdir : env.readdir g.dirname = some entries)
    (htimes : ∀ fname fst, (fname, some fst) ∈ entries → 0 ≤ fst.st_mtime) :
    g.getlast env = (newest g.fname_begin g.fname_end entries).map
      fun x => g.dirname ++ str "/" ++ x.1 := by
  rw [MatchBeginEnd.getlast, hdir, Option.bind_some, foldl_look htimes, Option.map_map]
  rfl

/-! ## The file that is followed -/

/-- The file that `reopen` selects, for an object constructed with `param`. -/
def selected (env : Outside) (param : Bytes) (m : MPfilelen) : Option Bytes :=
  let fname := (MPlastmatchfilelen.reopen env (MatchBeginEnd.make param) m).fname
  if fname = [] then none else some fname

theorem reopen_fname (m : MPfilelen) : (m.reopen env).fname = m.fname := by
  unfold MPfilelen.reopen
  split <;> rfl

/-- What is selected is the newest match, with the parameter cut as `make` cuts it. -/
theorem selected_eq {param : Bytes} {entries : List (Bytes × Option DirStat)} (m : MPfilelen)
    (hdir : env.readdir (MatchBeginEnd.make param).dirname = some entries)
    (htimes : ∀ fname fst, (fname, some fst) ∈ entries → 0 ≤ fst.st_mtime) :
    selected env param m = (newest (MatchBeginEnd.make param).fname_begin
      (MatchBeginEnd.make param).fname_end entries).map
        fun x => (MatchBeginEnd.make param).dirname ++ str "/" ++ x.1 := by
  unfold selected MPlastmatchfilelen.reopen
  rw [getlast_eq hdir htimes]
  cases newest (MatchBeginEnd.make param).fname_begin (MatchBeginEnd.make param).fname_end
      entries with
  | none => rfl
  | some x =>
    dsimp only [Option.map_some]
    rw [reopen_fname, if_neg]
    simp [str]

/-- What is meant by the file to follow: a regular file of the directory that begins and ends
so and is no older than any other such, and none where there is none. -/
structure Followed (dir fname_begin fname_end : Bytes) (entries : List (Bytes × Option DirStat))
    (selected : Option Bytes) : Prop where
  file : ∀ f, selected = some f → ∃ fname fst, f = dir ++ str "/" ++ fname ∧
    (fname, some fst) ∈ entries ∧ Matches fname_begin fname_end fname fst ∧
    ∀ fname' fst', (fname', some fst') ∈ entries → Matches fname_begin fname_end fname' fst' →
      fst'.st_mtime ≤ fst.st_mtime
  noFile : selected = none ↔ ¬ ∃ fname fst, (fname, some fst) ∈ entries ∧
    Matches fname_begin fname_end fname fst

/-- The newest match is what is meant. -/
theorem followed_newest (dir fname_begin fname_end : Bytes)
    (entries : List (Bytes × Option DirStat)) :
    Followed dir fname_begin fname_end entries
      ((newest fname_begin fname_end entries).map fun x => dir ++ str "/" ++ x.1) where
  file f hf := by
    obtain ⟨x, hx, rfl⟩ := Option.map_eq_some_iff.mp hf
    exact ⟨x.1, x.2, rfl, newest_spec hx⟩
  noFile := by
    rw [Option.map_eq_none_iff, newest, Lib.lastGreatest_eq_none_iff,
      List.eq_nil_iff_forall_not_mem, not_exists]
    refine ⟨fun h fname ⟨fst, hmem⟩ => h (fname, fst) (mem_matching_iff.mpr hmem),
      fun h x hx => h x.1 ⟨x.2, mem_matching_iff.mp hx⟩⟩

/-- **When the file that is meant is followed**: the parameter has no comma or two, or the
newest regular file of the directory, if there is one, begins as the name is to begin. -/
theorem newest_iff {dir fname_begin fname_end : Bytes} {entries : List (Bytes × Option DirStat)}
    (hdir : 44 ∉ dir) (hbegin : 44 ∉ fname_begin) (hend : 44 ∉ fname_end)
    (hentries : env.readdir dir = some entries)
    (htimes : ∀ fname fst, (fname, some fst) ∈ entries → 0 ≤ fst.st_mtime)
    (form : Form) (m : MPfilelen) :
    Followed dir (form.wanted fname_begin fname_end).1 (form.wanted fname_begin fname_end).2
        entries (selected env (form.param dir fname_begin fname_end) m) ↔
      (form = .dirBegin → ∀ x, newest [] [] entries = some x → fname_begin <+: x.1) := by
  have hmake := make_param hdir hbegin hend form
  have hsel : ∀ g, MatchBeginEnd.make (form.param dir fname_begin fname_end) = g →
      g.dirname = dir → selected env (form.param dir fname_begin fname_end) m =
        (newest g.fname_begin g.fname_end entries).map fun x => dir ++ str "/" ++ x.1 := by
    rintro g rfl hg
    rw [selected_eq m (hg.symm ▸ hentries) htimes, hg]
  -- only the form with one comma puts the beginning in the wrong field
  rw [hsel _ hmake (by cases form <;> rfl)]
  cases form with
  | dir => exact iff_of_true (followed_newest _ _ _ _) fun h => (nomatch h)
  | dirBeginEnd => exact iff_of_true (followed_newest _ _ _ _) fun h => (nomatch h)
  | dirBegin =>
    show Followed dir fname_begin [] entries ((newest [] [] entries).map _) ↔ _
    constructor
    · -- the file selected is the newest of all, and must be one of those meant
      rintro h - x hx
      obtain ⟨fname, fst, heq, -, hmatches, -⟩ := h.file _ (congrArg (Option.map _) hx)
      rw [List.append_cancel_left heq]
      exact hmatches.starts
    · -- and where that one begins as asked, it is the newest of those too
      intro h
      cases hx : newest [] [] entries with
      | none =>
        have hnone := (followed_newest dir [] [] entries).noFile
        rw [hx] at hnone
        refine ⟨fun f hf => (nomatch hf), iff_of_true rfl ?_⟩
        rintro ⟨fname, fst, hmem, hmatches⟩
        exact hnone.mp rfl ⟨fname, fst, hmem, hmatches.isReg, List.nil_prefix, List.nil_suffix⟩
      | some x =>
        obtain ⟨hmem, hmatches, hle⟩ := newest_spec hx
        have hmatches' : Matches fname_begin [] x.1 x.2 :=
          ⟨hmatches.isReg, h rfl x hx, List.nil_suffix⟩
        refine ⟨fun f hf => ?_, iff_of_false (fun hf => (nomatch hf)) fun hno => ?_⟩
        · exact ⟨x.1, x.2, (Option.some.inj hf).symm, hmem, hmatches', fun fname fst hmem' h' =>
            hle fname fst hmem' ⟨h'.isReg, List.nil_prefix, List.nil_suffix⟩⟩
        · exact hno ⟨x.1, x.2, hmem, hmatches'⟩

/-- A directory with a log and another file, modified at these times. -/
def twoFiles (log core : Int) : Outside :=
  { nothing with
    readdir := fun _ => some [(str "app.log", some ⟨true, log⟩), (str "core", some ⟨true, core⟩)] }

theorem twoFiles_times {log core : Int} (hlog : 0 ≤ log) (hcore : 0 ≤ core) : ∀ fname fst,
    (fname, some fst) ∈ [(str "app.log", some (⟨true, log⟩ : DirStat)), (str "core", some ⟨true, core⟩)] →
    0 ≤ fst.st_mtime := by
  intro fname fst hmem
  rcases List.mem_cons.mp hmem with h | h
  · rw [Option.some.inj (Prod.mk.inj h).2]
    exact hlog
  · rw [Option.some.inj (Prod.mk.inj (List.mem_singleton.mp h)).2]
    exact hcore

/-- With one comma the log is followed where it is the newest file. -/
theorem newest_iff_app : Followed (str "/var/log") (str "app") []
    [(str "app.log", some ⟨true, 2⟩), (str "core", some ⟨true, 1⟩)]
    (selected (twoFiles 2 1) (str "/var/log,app") (MPfilelen.make (twoFiles 2 1) [] 30)) := by
  have hdir : 44 ∉ str "/var/log" := by decide
  have hbegin : 44 ∉ str "app" := by decide
  have hend : 44 ∉ ([] : Bytes) := List.not_mem_nil
  have htimes := @twoFiles_times 2 1 (by decide) (by decide)
  refine (newest_iff hdir hbegin hend rfl htimes .dirBegin (MPfilelen.make (twoFiles 2 1) [] 30)).mpr ?_
  intro _ x hx
  obtain rfl : (str "app.log", ⟨true, 2⟩) = x := Option.some.inj hx
  decide

/-- Where it is not, the newest file is followed, whatever its name. -/
theorem begin_not_followed : ¬ ∀ (env : Outside) (dir fname_begin fname_end : Bytes)
    (entries : List (Bytes × Option DirStat)) (form : Form) (m : MPfilelen),
    44 ∉ dir → 44 ∉ fname_begin → 44 ∉ fname_end → env.readdir dir = some entries →
    (∀ fname fst, (fname, some fst) ∈ entries → 0 ≤ fst.st_mtime) →
    Followed dir (form.wanted fname_begin fname_end).1 (form.wanted fname_begin fname_end).2
      entries (selected env (form.param dir fname_begin fname_end) m) := by
  intro h
  obtain ⟨fname, fst, heq, -, hmatches, -⟩ := (h (twoFiles 1 2) (str "/var/log") (str "app") [] _
    .dirBegin (MPfilelen.make (twoFiles 1 2) [] 30) (by decide) (by decide) (by decide) rfl
    (twoFiles_times (by decide) (by decide))).file (str "/var/log/core") (by decide +kernel)
  have hcore : str "/var/log" ++ str "/" ++ str "core" = str "/var/log" ++ str "/" ++ fname := heq
  obtain rfl : str "core" = fname := List.append_cancel_left hcore
  exact absurd hmatches.starts (by decide)

end Qigong.Measure
