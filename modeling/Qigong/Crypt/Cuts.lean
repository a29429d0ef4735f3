import Mathlib.Data.List.Infix
import Qigong.Crypt.Reading
import Qigong.Crypt.Splitting

/-!
# Where the stream is cut

What a peer is given for records that are read in pieces, exactly. A record's end that a
boundary between two pieces falls into is read as two line ends, and the second one as an
empty line behind the record (`CutAt`, `withBlanks`); no other boundary matters
(`passed_records`). So the application is given the lines of each text and an empty line
behind it exactly where the record's end was cut (`cut_lines_exact`). A text can be cut so
that the connection is destroyed exactly where its record is longer than the limit
(`undestroyed_iff`).
-/

namespace Qigong.Crypt

open ChallengeState

namespace CryptConnection

variable {P : Platform}

/-! ## Records read in pieces -/

/-- One of the pieces begins where `rest` is left to be read. -/
def CutAt (cs : List Bytes) (rest : Bytes) : Prop := ∃ ds, ds <:+ cs ∧ ds.flatten = rest

instance (cs : List Bytes) (rest : Bytes) : Decidable (CutAt cs rest) :=
  decidable_of_iff (∃ ds ∈ cs.tails, ds.flatten = rest) (by simp only [CutAt, List.mem_tails])

/-- Lines, and an empty one behind each whose end one of the pieces `cs` begins in. -/
def withBlanks (cs : List Bytes) : List Bytes → List Bytes
  | [] => []
  | l :: ls =>
    l :: ((if CutAt cs (13 :: wire ls) then [[]] else []) ++ withBlanks cs ls)

theorem withBlanks_arrives (cs ls : List Bytes) :
    Lib.Arrives [] (fun l => [l]) ls (withBlanks cs ls) [] := by
  induction ls with
  | nil => exact .done _
  | cons l ls ih =>
    refine .next (f := fun l => [l]) ?_
    split
    · exact .extra ih
    · exact ih

/-- A piece more in front makes no difference where nothing is left from its beginning. -/
theorem cutAt_cons_iff {s : Bytes} {ss : List Bytes} {rest : Bytes}
    (h : rest.length < (s :: ss).flatten.length) : CutAt (s :: ss) rest ↔ CutAt ss rest := by
  constructor
  · rintro ⟨ds, hds, rfl⟩
    rcases List.suffix_cons_iff.mp hds with rfl | hds
    · exact absurd h (lt_irrefl _)
    · exact ⟨ds, hds, rfl⟩
  · rintro ⟨ds, hds, hrest⟩
    exact ⟨ds, hds.trans (List.suffix_cons s ss), hrest⟩

theorem wire_length_le {ls ms : List Bytes} (h : ls <:+ ms) : (wire ls).length ≤ (wire ms).length := by
  obtain ⟨pre, rfl⟩ := h
  rw [wire_append, List.length_append]
  omega

/-- Nor does it where what is left is longer than what is left behind each of the lines. -/
theorem withBlanks_cons {s : Bytes} {ss : List Bytes} {ls : List Bytes}
    (h : ∀ l ms, l :: ms <:+ ls → (wire ms).length + 1 < (s :: ss).flatten.length) :
    withBlanks (s :: ss) ls = withBlanks ss ls := by
  induction ls with
  | nil => rfl
  | cons l ls ih =>
    -- what is left from the longer piece on is too long to be what stands behind the line
    have hcut : CutAt (s :: ss) (13 :: wire ls) ↔ CutAt ss (13 :: wire ls) :=
      cutAt_cons_iff (h l ls List.suffix_rfl)
    rw [withBlanks, withBlanks, ih fun m ms hm => h m ms (hm.trans (List.suffix_cons l ls))]
    simp only [hcut]

/-- What is emitted from a state on, in the rest of a piece and in further pieces. -/
def scanned (st : ScanState) (s : Bytes) (ss : List Bytes) : List Bytes :=
  (scanner.feed st s).2 ++ (scanner.feedBlocks ScanState.forget (scanner.feed st s).1 ss).2

theorem scanned_cons {st st' : ScanState} {c : UInt8} {ls : List Bytes} (s : Bytes)
    (ss : List Bytes) (h : scanStep st c = (st', ls)) :
    scanned st (c :: s) ss = ls ++ scanned st' s ss := by
  unfold scanned
  rw [feed_of_step s h, List.append_assoc]

theorem scanned_nil (st : ScanState) (s : Bytes) (ss : List Bytes) :
    scanned st [] (s :: ss) = scanned st.forget s ss := rfl

/-- Lines that are not empty, and hold no line end. -/
def Full (ls : List Bytes) : Prop := ∀ l ∈ ls, NoEol l ∧ l ≠ []

theorem Full.suffix {ls ms : List Bytes} (h : Full ls) (hms : ms <:+ ls) : Full ms :=
  fun l hl => h l (hms.subset hl)

/-- What is emitted in the rest `s` of a piece and in the pieces `ss`, the scanner being in a
line, behind the first half of an end, or, at the beginning of a piece, in front of a second
half whose first one is forgotten. -/
structure Exact (ss : List Bytes) (s : Bytes) : Prop where
  text : ∀ half cur ls, half = none ∨ half = some 13 ∧ cur = [] → NoEol cur → Full ls →
    cur ++ (s ++ ss.flatten) = wire ls → scanned ⟨half, cur⟩ s ss = withBlanks ss ls
  ended : ∀ ls, Full ls → s ++ ss.flatten = 13 :: wire ls →
    scanned ⟨some 10, []⟩ s ss = (if s = [] then [[]] else []) ++ withBlanks ss ls
  torn : ∀ ls, Full ls → s ≠ [] → s ++ ss.flatten = 13 :: wire ls →
    scanned ⟨none, []⟩ s ss = [] :: withBlanks ss ls

/-- No piece is left. -/
theorem exact_nil : Exact [] [] where
  text half cur ls _ hcur _ heq := by
    cases ls with
    | nil => rfl
    | cons l ls =>
      obtain ⟨more, -, hrest⟩ := line_of_prefix hcur heq
      exact absurd hrest.symm (by simp [recordEnd])
  ended ls _ heq := nomatch heq
  torn ls _ hne _ := absurd rfl hne

/-- The next piece begins: a pending half is forgotten. -/
theorem Exact.next {s : Bytes} {ss : List Bytes} (h : Exact ss s) (hs : s ≠ []) :
    Exact (s :: ss) [] where
  text half cur ls _ hcur hls heq := by
    rw [scanned_nil, show ScanState.forget ⟨half, cur⟩ = ⟨none, cur⟩ from rfl,
      h.text none cur ls (.inl rfl) hcur hls heq]
    -- the piece ends in front of every record that is left
    refine (withBlanks_cons fun l ms hms => ?_).symm
    cases ls with
    | nil => exact absurd (List.suffix_nil.mp hms) (List.cons_ne_nil _ _)
    | cons k ls =>
      obtain ⟨more, -, hrest⟩ := line_of_prefix hcur heq
      have hle : (wire ms).length ≤ (wire ls).length := by
        rcases List.suffix_cons_iff.mp hms with heq | hms
        · rw [(List.cons_eq_cons.mp heq).2]
        · exact wire_length_le ((List.suffix_cons l ms).trans hms)
      rw [List.nil_append] at hrest
      rw [hrest]
      simp only [List.length_append, recordEnd, List.length_cons, List.length_nil]
      omega
  ended ls hls heq := by
    rw [scanned_nil, show ScanState.forget ⟨some 10, []⟩ = ⟨none, []⟩ from rfl,
      h.torn ls hls hs heq, if_pos rfl, List.singleton_append]
    rw [List.nil_append] at heq
    refine congrArg _ (withBlanks_cons fun l ms hms => ?_).symm
    have hle := wire_length_le hms
    rw [wire_cons] at hle
    rw [heq]
    simp only [List.length_append, recordEnd, List.length_cons, List.length_nil] at hle ⊢
    omega
  torn ls _ hne _ := absurd rfl hne

/-- One byte more in front of the rest of the piece. -/
theorem Exact.cons {s : Bytes} {ss : List Bytes} (h : Exact ss s) (c : UInt8) :
    Exact ss (c :: s) where
  text half cur ls hhalf hcur hls heq := by
    cases ls with
    | nil => exact absurd heq (by simp [wire])
    | cons l ls =>
    obtain ⟨more, hl, hrest⟩ := line_of_prefix hcur heq
    obtain ⟨hno, hne⟩ := hls l List.mem_cons_self
    -- either the line goes on, or this byte is the first half of its end
    cases more with
    | nil =>
      obtain ⟨rfl, htail⟩ : c = 10 ∧ s ++ ss.flatten = 13 :: wire ls :=
        List.cons_eq_cons.mp hrest
      rw [List.append_nil] at hl
      rcases hhalf with rfl | ⟨-, rfl⟩
      · -- the end of the record: a piece begins behind its first half where `s` is empty
        have hcut : CutAt ss (13 :: wire ls) ↔ s = [] := by
          constructor
          · rintro ⟨ds, ⟨pre, hpre⟩, hds⟩
            have hlen := congrArg List.length htail
            rw [← hpre, List.flatten_append, hds] at hlen
            simp only [List.length_append, List.length_cons] at hlen
            exact List.length_eq_zero_iff.mp (by omega)
          · rintro rfl
            exact ⟨ss, List.suffix_rfl, htail⟩
        rw [scanned_cons s ss (scanStep_eol (by decide)),
          h.ended ls (hls.suffix (List.suffix_cons l ls)) htail, withBlanks, hl]
        simp only [hcut, List.singleton_append]
      · exact absurd hl hne
    | cons d more =>
      obtain ⟨rfl, hrest⟩ := List.cons_eq_cons.mp hrest
      have hc : isEol c = false := hno c (by rw [hl]; simp)
      have hstep : scanStep ⟨half, cur⟩ c = (⟨none, cur ++ [c]⟩, []) := by
        rcases hhalf with rfl | ⟨rfl, rfl⟩
        · exact scanStep_text hc
        · rw [scanStep_unpaired (Bool.eq_false_iff.mpr fun hp => ?_), scanStep_text hc]
          rw [(isEol_of_pair hp).2] at hc
          cases hc
      rw [scanned_cons s ss hstep, List.nil_append]
      refine h.text none (cur ++ [c]) (l :: ls) (.inl rfl) (by simp [hcur, hc]) hls ?_
      rw [← heq, List.append_assoc, List.singleton_append, List.cons_append]
  ended ls hls heq := by
    obtain ⟨rfl, hrest⟩ := List.cons_eq_cons.mp heq
    rw [scanned_cons s ss (scanStep_pair (by decide)), if_neg (List.cons_ne_nil _ _)]
    exact congrArg _ (h.text none [] ls (.inl rfl) noEol_nil hls hrest)
  torn ls hls _ heq := by
    obtain ⟨rfl, hrest⟩ := List.cons_eq_cons.mp heq
    rw [scanned_cons s ss (scanStep_eol (by decide)), List.singleton_append]
    exact congrArg _ (h.text (some 13) [] ls (.inr ⟨rfl, rfl⟩) noEol_nil hls hrest)

/-- By induction over the pieces, and over the bytes of each. -/
theorem exact_all (ss : List Bytes) (hss : ∀ s ∈ ss, s ≠ []) (s : Bytes) : Exact ss s := by
  -- within one piece, byte by byte from its end
  have hpiece : ∀ ss : List Bytes, Exact ss [] → ∀ s, Exact ss s := fun ss h s => by
    induction s with
    | nil => exact h
    | cons c s ih => exact ih.cons c
  refine hpiece ss ?_ s
  induction ss with
  | nil => exact exact_nil
  | cons t ss ih =>
    exact (hpiece ss (ih fun u hu => hss u (List.mem_cons_of_mem t hu)) t).next
      (hss t List.mem_cons_self)

/-- **What a reader of whole records gets**, however they are cut: the records, and an empty
line behind each whose end is cut in two. -/
theorem passed_records {m : Option Nat} {ls cs : List Bytes} (hls : Full ls)
    (hfit : LinesFit m (wire ls)) (hcut : IsCut (wire ls) cs) :
    passed m [] cs = withBlanks cs ls := by
  rw [passed_eq_feedBlocks cs none [] noEol_nil (by rw [hcut.whole]; exact hfit)]
  exact (exact_all cs hcut.nonempty []).text none [] ls (.inl rfl) noEol_nil hls hcut.whole

/-! ## What the application is given -/

theorem takeLines_append (envs : Nat → LineEnv) (c : CryptConnection P) (ls ms : List Bytes) :
    c.takeLines envs (ls ++ ms)
      = (c.takeLines (fun n => envs (n + ms.length)) ls).bind fun r =>
          (r.1.takeLines envs ms).map fun t => (t.1, r.2 ++ t.2) := by
  induction ls generalizing c with
  | nil =>
    rw [List.nil_append, takeLines]
    show _ = (c.takeLines envs ms).map fun t => (t.1, t.2)
    cases c.takeLines envs ms <;> rfl
  | cons l ls ih =>
    rw [List.cons_append, takeLines, takeLines, List.length_append]
    cases hrec : c.receive (envs (ls.length + ms.length)) l with
    | error x => rfl
    | ok r =>
      show (r.1.takeLines envs (ls ++ ms)).map _ = _
      rw [ih]
      show _ = ((r.1.takeLines (fun n => envs (n + ms.length)) ls).map _).bind _
      cases r.1.takeLines (fun n => envs (n + ms.length)) ls with
      | error x => rfl
      | ok r' =>
        show ((r'.1.takeLines envs ms).map _).map _ = (r'.1.takeLines envs ms).map _
        cases r'.1.takeLines envs ms with
        | error x => rfl
        | ok t => simp [Except.map, List.append_assoc]

/-- The cipher state and the calls that a sequence of lines leads to. -/
def outcome (x : Except Exn (CryptConnection P × List Call)) :
    Except Exn (Option P.mcrypt.State × List Call) := x.map fun r => (r.1.tdin, r.2)

/-- Successive reads do with records what their lines do, one after the other. -/
theorem readAll_passed (hundo : P.mcrypt.Undoes) (cs : List Bytes) {d : CryptConnection P}
    {st : P.mcrypt.State} {texts q' : List Bytes} (hd : d.tdin = some st)
    (hacc : d.challenging = Accepted) (hdoomed : d.doomed = false) (hin : NoEol d.bufin)
    (hfit : LinesFit d.maxpendsize (d.bufin ++ cs.flatten))
    (harr : Lib.Arrives [] (fun l => [l]) (records st texts) (passed d.maxpendsize d.bufin cs) q') :
    ∃ bufin td calls,
      (∀ envs, d.readAll envs cs = .ok ({ d with bufin := bufin, tdin := td }, calls)) ∧
      ∀ envs, outcome (d.takeLines envs (passed d.maxpendsize d.bufin cs)) = .ok (td, calls) := by
  induction cs generalizing d st texts with
  | nil => exact ⟨d.bufin, d.tdin, [], fun _ => rfl, fun _ => rfl⟩
  | cons s ss ih =>
    have hrest := cutLines_rest d.bufin s hin
    rw [List.flatten_cons, ← List.append_assoc] at hfit
    have hnext : LinesFit d.maxpendsize ((cutLines d.bufin s).2 ++ ss.flatten) := by
      obtain ⟨u, hu⟩ := hrest.1
      rw [← hu, List.append_assoc] at hfit
      exact hfit.of_suffix (List.suffix_append _ _)
    have hshort : tooLong d.maxpendsize (cutLines d.bufin s).2 = false :=
      hnext.not_tooLong (List.infix_append' [] _ _) hrest.2
    have hpassed : passed d.maxpendsize d.bufin (s :: ss)
        = (cutLines d.bufin s).1 ++ passed d.maxpendsize (cutLines d.bufin s).2 ss := by
      rw [passed, hshort, if_neg Bool.false_ne_true]
    rw [hpassed] at harr ⊢
    obtain ⟨p, hfirst, hlast⟩ := harr.split
    obtain ⟨st', texts', heard, b, rfl, -, -, htake⟩ := takeLines_arrives hundo hfirst rfl hd hacc
    obtain ⟨bufin, td, calls, hread, hout⟩ :=
      ih (d := { d with bufin := (cutLines d.bufin s).2, tdin := some st' }) rfl hacc hdoomed
        hrest.2 hnext hlast
    refine ⟨bufin, td, heard.map .lineread ++ calls, fun envs => ?_, fun envs => ?_⟩
    · have hone : d.read (envs ss.length) s
          = .ok ({ d with bufin := (cutLines d.bufin s).2, tdin := some st' },
              heard.map .lineread) := by
        show (d.takeLines (envs ss.length) (cutLines d.bufin s).1).map _ = _
        rw [htake, Except.map, keepLine]
        dsimp only
        rw [hshort, if_neg Bool.false_ne_true]
      rw [readAll, hone]
      show (if d.doomed then _ else (readAll envs _ ss).map _) = _
      rw [if_neg (by simp [hdoomed]), hread]
      rfl
    · rw [takeLines_append, htake]
      -- a line that is received takes the place of what stands in `bufin`
      have hbufin : ∀ (c : CryptConnection P) (b : Bytes) (ls : List Bytes),
          outcome (takeLines envs { c with bufin := b } ls) = outcome (takeLines envs c ls) := by
        intro c b ls
        cases ls <;> rfl
      have hsecond : outcome (takeLines envs { d with bufin := b, tdin := some st' }
          (passed d.maxpendsize (cutLines d.bufin s).2 ss)) = .ok (td, calls) :=
        ((hbufin { d with tdin := some st' } b _).trans
          (hbufin { d with tdin := some st' } _ _).symm).trans (hout envs)
      obtain ⟨r, hr, heq⟩ := map_eq_ok.mp hsecond
      obtain ⟨rfl, rfl⟩ := Prod.ext_iff.mp heq
      show outcome ((takeLines envs { d with bufin := b, tdin := some st' } _).map _) = _
      rw [hr]
      rfl

/-- The lines of texts, and an empty line behind each whose record has its end cut in two. -/
def heardInPieces (cs : List Bytes) : P.mcrypt.State → List Bytes → List Bytes
  | _, [] => []
  | st, t :: ts =>
    splitRecord [] t ++
      ((if CutAt cs (13 :: wire (records (cipherAfter st t) ts)) then [[]] else []) ++
        heardInPieces cs (cipherAfter st t) ts)

/-- Received one after the other, they are what the application is given. -/
theorem takeLines_withBlanks (hundo : P.mcrypt.Undoes) (cs : List Bytes) (texts : List Bytes)
    {d : CryptConnection P} {st : P.mcrypt.State} (hd : d.tdin = some st)
    (hacc : d.challenging = Accepted) (envs : Nat → LineEnv) :
    outcome (d.takeLines envs (withBlanks cs (records st texts)))
      = .ok (some (stateAfter st texts), (heardInPieces cs st texts).map .lineread) := by
  induction texts generalizing d st with
  | nil =>
    show Except.ok (d.tdin, []) = _
    rw [hd]
    rfl
  | cons t ts ih =>
    have hnext : ∀ e : CryptConnection P, e.tdin = some (cipherAfter st t) →
        e.challenging = Accepted → ∃ r, e.takeLines envs (withBlanks cs (records (cipherAfter st t) ts))
          = .ok r ∧ r.1.tdin = some (stateAfter st (t :: ts)) ∧
            r.2 = (heardInPieces cs (cipherAfter st t) ts).map .lineread := by
      intro e he hacc'
      obtain ⟨r, hr, heq⟩ := map_eq_ok.mp (ih he hacc')
      exact ⟨r, hr, (Prod.ext_iff.mp heq).1, (Prod.ext_iff.mp heq).2⟩
    rw [records, withBlanks, takeLines, receive_record hundo hd hacc, heardInPieces]
    by_cases hcut : CutAt cs (13 :: wire (records (cipherAfter st t) ts))
    · -- the empty line deciphers as the record of an empty text
      rw [if_pos hcut]
      obtain ⟨r, hr, htd, hcalls⟩ := hnext
        { d with bufin := [], tdin := some (cipherAfter st t) } rfl hacc
      have hblank := receive_record hundo (d := { d with bufin := [], tdin := some (cipherAfter st t) })
        rfl hacc (envs (withBlanks cs (records (cipherAfter st t) ts)).length) []
      rw [show cipherRecord (cipherAfter st t) [] = [] from rfl] at hblank
      show outcome ((takeLines envs _ ([] :: withBlanks cs (records (cipherAfter st t) ts))).map _) = _
      rw [takeLines, hblank]
      show outcome (((takeLines envs _ _).map _).map _) = _
      rw [show cipherAfter (cipherAfter st t) [] = cipherAfter st t from rfl, hr]
      simp only [outcome, Except.map, htd, hcalls, List.map_append]
      rfl
    · rw [if_neg hcut, List.nil_append, List.nil_append]
      obtain ⟨r, hr, htd, hcalls⟩ := hnext
        { d with bufin := [], tdin := some (cipherAfter st t) } rfl hacc
      show outcome ((takeLines envs _ (withBlanks cs (records (cipherAfter st t) ts))).map _) = _
      rw [hr]
      simp only [outcome, Except.map, htd, hcalls, List.map_append]

/-! ## Lines that fit -/

/-- A text without line ends does not reach over one. -/
theorem infix_of_eol {v u w : Bytes} {e : UInt8} (hv : NoEol v) (he : isEol e = true)
    (h : v <:+: u ++ e :: w) : v <:+: u ∨ v <:+: w := by
  have hpre : ∀ u : Bytes, v <+: u ++ e :: w → v <+: u := by
    rintro u ⟨post, hpost⟩
    rcases List.append_eq_append_iff.mp hpost with ⟨more, hu, -⟩ | ⟨more, hvu, hrest⟩
    · exact ⟨more, hu.symm⟩
    · cases more with
      | nil => exact ⟨[], by rw [hvu, List.append_nil, List.append_nil]⟩
      | cons c more =>
        obtain ⟨rfl, -⟩ := List.cons_eq_cons.mp hrest
        rw [hv e (by rw [hvu]; simp)] at he
        cases he
  induction u with
  | nil =>
    rcases List.infix_cons_iff.mp h with h | h
    · exact .inl (hpre [] h).isInfix
    · exact .inr h
  | cons c u ih =>
    rcases List.infix_cons_iff.mp h with h | h
    · exact .inl (hpre (c :: u) h).isInfix
    · exact (ih h).imp_left fun hu => hu.trans (List.suffix_cons c u).isInfix

/-- Records that fit make a stream whose lines fit. -/
theorem linesFit_wire {m : Option Nat} {ls : List Bytes}
    (h : ∀ l ∈ ls, ∀ n, m = some n → l.length ≤ n) : LinesFit m (wire ls) := by
  intro n hn v hv hno
  induction ls with
  | nil => simp [List.infix_nil.mp hv]
  | cons l ls ih =>
    rw [wire_cons] at hv
    rcases infix_of_eol hno (by decide) (show v <:+: l ++ 10 :: (13 :: wire ls) from hv) with hv | hv
    · exact hv.length_le.trans (h l List.mem_cons_self n hn)
    · rcases infix_of_eol hno (by decide) (show v <:+: [] ++ 13 :: wire ls from hv) with hv | hv
      · simp [List.infix_nil.mp hv]
      · exact ih (fun k hk => h k (List.mem_cons_of_mem l hk)) hv

theorem recordSize_pos {n : Nat} (h : 0 < n) : 0 < recordSize n := by
  unfold recordSize
  omega

theorem full_records {st : P.mcrypt.State} {texts : List Bytes} (h : ∀ t ∈ texts, t ≠ []) :
    Full (records st texts) := by
  intro l hl
  obtain ⟨t, ht, hlen⟩ := length_of_mem_records hl
  refine ⟨noEol_records st texts l hl, List.ne_nil_of_length_pos ?_⟩
  rw [hlen]
  exact recordSize_pos (List.length_pos_iff.mpr (h t ht))

/-- **What an application is given of texts that are sent, exactly**, however their records
are cut into reads: the lines of each text, and an empty line behind them exactly where a
read begins with the second byte of the record's end. The two ends are then in step again. -/
theorem cut_lines_exact (hundo : P.mcrypt.Undoes) {c d : CryptConnection P} {st : P.mcrypt.State}
    (hc : c.tdout = some st) (hout : c.out = []) (hbufout : c.bufout = []) (hd : d.tdin = some st)
    (hacc : d.challenging = Accepted) (hbufin : d.bufin = []) (hdoomed : d.doomed = false)
    (texts : List Bytes) (htexts : ∀ t ∈ texts, t ≠ [] ∧ Fits d.maxpendsize t) (cs : List Bytes)
    (hcs : IsCut (c.sendAll texts).bufout cs) (envs : Nat → Nat → LineEnv) :
    ∃ bufin, d.readAll envs cs
      = .ok ({ d with bufin := bufin, tdin := (c.sendAll texts).tdout },
          (heardInPieces cs st texts).map .lineread) := by
  obtain ⟨hwire, htdout⟩ := sendAll_eq texts hc hout
  rw [hwire, hbufout, List.nil_append] at hcs
  have hfit : LinesFit d.maxpendsize (wire (records st texts)) := linesFit_wire fun l hl n hn => by
    obtain ⟨t, ht, hlen⟩ := length_of_mem_records hl
    rw [hlen]
    exact (htexts t ht).2 n hn
  have hpassed := passed_records (full_records fun t ht => (htexts t ht).1) hfit hcs
  have harr : Lib.Arrives [] (fun l => [l]) (records st texts) (passed d.maxpendsize d.bufin cs) [] := by
    rw [hbufin, hpassed]
    exact withBlanks_arrives cs _
  obtain ⟨bufin, td, calls, hread, houtcome⟩ := readAll_passed hundo cs hd hacc hdoomed
    (by rw [hbufin]; exact noEol_nil) (by rw [hbufin, List.nil_append, hcs.whole]; exact hfit) harr
  have hexact := houtcome (envs 0)
  rw [hbufin, hpassed, takeLines_withBlanks hundo cs texts hd hacc] at hexact
  obtain ⟨rfl, rfl⟩ := Prod.ext_iff.mp (Except.ok.inj hexact)
  exact ⟨bufin, by rw [hread, htdout]⟩

/-- A sender and a receiver in step. -/
def sampleSender : CryptConnection samplePlatform :=
  { unkeyed samplePlatform with tdout := some (sampleKey.key, sampleKey.IV) }

def sampleReceiver : CryptConnection samplePlatform :=
  { unkeyed samplePlatform with
    tdin := some (sampleKey.key, sampleKey.IV), challenging := Accepted, maxpendsize := some 4096 }

/-- A whole text can arrive byte by byte. -/
theorem isCut_single (text : Bytes) : IsCut text (bytewise [] [] text) := by
  have h := @isCut_bytewise [] text [] fun _ hp => absurd hp List.not_mem_nil
  rwa [List.flatten_nil, List.nil_append, List.nil_append] at h

/-- Read byte by byte, a text is followed by an empty line. -/
theorem cut_lines_exact_bytewise :
    heardInPieces (P := samplePlatform) (bytewise [] [] (sampleSender.sendAll [str "help"]).bufout)
        (sampleKey.key, sampleKey.IV) [str "help"] = [str "help", []] ∧
      ∃ bufin, sampleReceiver.readAll (fun _ _ => fairEnv [] [])
          (bytewise [] [] (sampleSender.sendAll [str "help"]).bufout)
        = .ok ({ sampleReceiver with
              bufin := bufin, tdin := (sampleSender.sendAll [str "help"]).tdout },
            [str "help", []].map .lineread) := by
  have hheard : heardInPieces (P := samplePlatform)
      (bytewise [] [] (sampleSender.sendAll [str "help"]).bufout)
      (sampleKey.key, sampleKey.IV) [str "help"] = [str "help", []] := by
    decide
  have h := cut_lines_exact (Mcrypt.cfb_undoes sampleF) (c := sampleSender) (d := sampleReceiver)
    rfl rfl rfl rfl rfl rfl rfl [str "help"]
    (fun t ht => by
      rw [List.mem_singleton.mp ht]
      exact ⟨by decide, fun m hm => by rw [← Option.some.inj hm]; decide⟩)
    _ (isCut_single _) fun _ _ => fairEnv [] []
  rw [hheard] at h
  exact ⟨hheard, h⟩

/-! ## Records that are too long -/

/-- Texts that fit are read to their end, however they are cut. -/
theorem readAll_alive (hundo : P.mcrypt.Undoes) (cs : List Bytes) {s d : CryptConnection P}
    {texts : List Bytes} (h : InStep { s with bufout := cs.flatten } d texts)
    (hfit : ∀ t ∈ texts, Fits d.maxpendsize t) (hdoomed : d.doomed = false)
    (envs : Nat → Nat → LineEnv) :
    ∃ d' calls, d.readAll envs cs = .ok (d', calls) ∧ d'.doomed = false := by
  induction cs generalizing d texts with
  | nil => exact ⟨d, [], rfl, hdoomed⟩
  | cons b bs ih =>
    obtain ⟨bufin, td, heard, rest, harr, hstep, hread⟩ := read_arrives hundo h hfit
    obtain ⟨d', calls, hall, halive⟩ := ih (d := { d with bufin := bufin, tdin := td }) hstep
      (fun t ht => hfit t (harr.suffix.subset ht)) hdoomed
    refine ⟨d', heard.map .lineread ++ calls, ?_, halive⟩
    rw [readAll, hread]
    show (if d.doomed then _ else (readAll envs _ bs).map _) = _
    rw [if_neg (by simp [hdoomed]), hall]
    rfl

/-- A read that brings in a record and its end. -/
theorem read_record (hundo : P.mcrypt.Undoes) {d : CryptConnection P} {st : P.mcrypt.State}
    (hd : d.tdin = some st) (hacc : d.challenging = Accepted) (hbufin : d.bufin = []) (text : Bytes)
    (envs : Nat → LineEnv) :
    d.read envs (cipherRecord st text ++ recordEnd)
      = .ok ({ d with tdin := some (cipherAfter st text) }, (splitRecord [] text).map .lineread) := by
  have hcut : cutLines d.bufin (cipherRecord st text ++ recordEnd) = ([cipherRecord st text], []) := by
    have h := cutLines_line (noEol_cipherRecord st text) [] []
    rw [List.append_nil, List.nil_append] at h
    rw [hbufin, h]
    rfl
  have hlong : tooLong d.maxpendsize [] = false := by
    cases hm : d.maxpendsize <;> simp [tooLong]
  rw [read, hcut]
  show (takeLines envs d [cipherRecord st text]).map _ = _
  rw [takeLines, receive_record hundo hd hacc]
  show Except.ok (keepLine [] _, _ ++ []) = _
  rw [List.append_nil, keepLine]
  dsimp only
  rw [hlong, if_neg Bool.false_ne_true, hbufin]

/-- A read that brings in more than the limit, and no line end. -/
theorem read_long {d : CryptConnection P} (hbufin : d.bufin = []) {m : Nat}
    (hmax : d.maxpendsize = some m) {s : Bytes} (hs : NoEol s) (hlen : m < s.length)
    (envs : Nat → LineEnv) : ∃ d', d.read envs s = .ok (d', []) ∧ d'.doomed = true := by
  have hcut : cutLines d.bufin s = ([], s) := by
    rw [cutLines_text d.bufin hs, hbufin, List.nil_append]
  have hlong : tooLong d.maxpendsize s = true := by
    simp [tooLong, hmax, hlen]
  refine ⟨keepLine s d, by rw [read, hcut]; rfl, ?_⟩
  rw [keepLine]
  dsimp only
  rw [hlong, if_pos rfl]
  rfl

/-- A record that is too long can be read so that the connection is destroyed. -/
theorem exists_destroying (hundo : P.mcrypt.Undoes) (texts : List Bytes) {d : CryptConnection P}
    {st : P.mcrypt.State} (hd : d.tdin = some st) (hacc : d.challenging = Accepted)
    (hbufin : d.bufin = []) (hmax : d.maxpendsize = some 4096) (hdoomed : d.doomed = false)
    (htexts : ∃ t ∈ texts, 3071 < t.length) :
    ∃ cs, IsCut (wire (records st texts)) cs ∧
      ∀ envs, ∃ d' calls, d.readAll envs cs = .ok (d', calls) ∧ d'.doomed = true := by
  induction texts generalizing d st with
  | nil =>
    obtain ⟨t, ht, -⟩ := htexts
    cases ht
  | cons t ts ih =>
    have hsize := fits_iff t.length
    rw [← cipherRecord_length st t] at hsize
    rw [records, wire_cons]
    by_cases ht : 3071 < t.length
    · -- the first 4097 bytes of the record, and the rest byte by byte
      have hlen : ((cipherRecord st t).take 4097).length = 4097 := by
        rw [List.length_take]
        omega
      refine ⟨bytewise [] [(cipherRecord st t).take 4097] ((cipherRecord st t).drop 4097 ++
        (recordEnd ++ wire (records (cipherAfter st t) ts))), ?_, fun envs => ?_⟩
      · have hcut := @isCut_bytewise [] ((cipherRecord st t).drop 4097 ++
            (recordEnd ++ wire (records (cipherAfter st t) ts))) [(cipherRecord st t).take 4097] (by
            intro p hp
            rw [List.mem_singleton.mp hp, hlen]
            exact ⟨List.ne_nil_of_length_eq_add_one hlen, by decide⟩)
        rwa [List.nil_append, List.flatten_singleton, ← List.append_assoc,
          List.take_append_drop] at hcut
      · rw [bytewise, List.map_nil, List.nil_append, List.singleton_append, readAll]
        obtain ⟨d', hread, hdead⟩ := read_long hbufin hmax (s := (cipherRecord st t).take 4097)
          (fun c hc => noEol_cipherRecord st t c (List.mem_of_mem_take hc))
          (by rw [hlen]; decide) (envs (List.map (fun c => [c]) ((cipherRecord st t).drop 4097 ++
            (recordEnd ++ wire (records (cipherAfter st t) ts)))).length)
        refine ⟨d', [], ?_, hdead⟩
        rw [hread]
        exact if_pos hdead
    · -- the record and its end in one read
      obtain ⟨u, hu, hlong⟩ := htexts
      have hrest : ∃ u ∈ ts, 3071 < u.length := by
        rcases List.mem_cons.mp hu with rfl | hu
        · exact absurd hlong ht
        · exact ⟨u, hu, hlong⟩
      obtain ⟨cs, hcs, hall⟩ :=
        ih (d := { d with tdin := some (cipherAfter st t) }) rfl hacc hbufin hmax hdoomed hrest
      refine ⟨(cipherRecord st t ++ recordEnd) :: cs, ⟨?_, ?_, ?_⟩, fun envs => ?_⟩
      · rw [List.flatten_cons, hcs.whole, List.append_assoc]
      · exact List.forall_mem_cons.mpr ⟨by simp [recordEnd], hcs.nonempty⟩
      · refine List.forall_mem_cons.mpr ⟨?_, hcs.fits⟩
        have hshort := hsize.mpr (Nat.le_of_not_lt ht)
        rw [List.length_append, show recordEnd.length = 2 from rfl, BUFLEN]
        omega
      · obtain ⟨d', calls, hread, hdead⟩ := hall envs
        refine ⟨d', (splitRecord [] t).map .lineread ++ calls, ?_, hdead⟩
        rw [readAll, read_record hundo hd hacc hbufin]
        show (if d.doomed then _ else (readAll envs _ cs).map _) = _
        rw [if_neg (by simp [hdoomed]), hread]
        rfl

/-- **Which texts can be sent**: however the stream is cut into reads, the peer is not
destroyed exactly where no text is longer than 3071 bytes. -/
theorem undestroyed_iff (hundo : P.mcrypt.Undoes) {c d : CryptConnection P} {st : P.mcrypt.State}
    (hc : c.tdout = some st) (hout : c.out = []) (hbufout : c.bufout = []) (hd : d.tdin = some st)
    (hacc : d.challenging = Accepted) (hbufin : d.bufin = []) (hdoomed : d.doomed = false)
    (texts : List Bytes) :
    (∀ cs, IsCut (c.sendAll texts).bufout cs → ∀ envs, ∃ d' calls,
        (d.setmaxpendsize 4096).readAll envs cs = .ok (d', calls) ∧ d'.doomed = false) ↔
      ∀ t ∈ texts, t.length ≤ 3071 := by
  obtain ⟨hwire, htdout⟩ := sendAll_eq texts hc hout
  rw [hbufout, List.nil_append] at hwire
  rw [hwire]
  constructor
  · intro h t ht
    by_contra hlong
    obtain ⟨cs, hcs, hall⟩ := exists_destroying hundo texts (d := d.setmaxpendsize 4096) hd hacc
      hbufin rfl hdoomed ⟨t, ht, Nat.lt_of_not_le hlong⟩
    obtain ⟨d', calls, hread, halive⟩ := h cs hcs fun _ _ => fairEnv [] []
    obtain ⟨d'', calls', hread', hdead⟩ := hall fun _ _ => fairEnv [] []
    obtain ⟨rfl, -⟩ := Prod.ext_iff.mp (Except.ok.inj (hread.symm.trans hread'))
    rw [halive] at hdead
    cases hdead
  · intro htexts cs hcs envs
    have hstep : InStep { c.sendAll texts with bufout := cs.flatten } (d.setmaxpendsize 4096) texts := by
      refine ⟨st, htdout, hd, hacc, ?_⟩
      rw [hcs.whole]
      exact .text (.inl rfl) (hbufin ▸ noEol_nil) (by simp [setmaxpendsize, hbufin])
    refine readAll_alive hundo cs hstep (fun t ht m hm => ?_) hdoomed envs
    rw [← Option.some.inj hm]
    exact (fits_iff _).mpr (htexts t ht)

theorem undestroyed_iff_short :
    ∃ d' calls, (sampleReceiver.setmaxpendsize 4096).readAll (fun _ _ => fairEnv [] [])
        (bytewise [] [] (sampleSender.sendAll [str "help", []]).bufout) = .ok (d', calls) ∧
      d'.doomed = false :=
  (undestroyed_iff (Mcrypt.cfb_undoes sampleF) (c := sampleSender) (d := sampleReceiver)
    rfl rfl rfl rfl rfl rfl rfl [str "help", []]).mpr (by decide) _ (isCut_single _)
    fun _ _ => fairEnv [] []

end CryptConnection

end Qigong.Crypt
