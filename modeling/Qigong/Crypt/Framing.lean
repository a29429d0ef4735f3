import Qigong.Crypt.Connection
import Qigong.Lib.Lists

/-!
# Line framing (qicrypt.cpp:650–708)

`read` cuts what arrives on the socket into lines, one buffer at a time. A pair
10 13 or 13 10 counts as one line end, but its second byte is looked for in the
buffer of the first one only: a pair that a buffer boundary falls into is read as
two line ends, with an empty line between them.

The byte loop is compared with a transducer that carries the pending half of a
pair from byte to byte (`scanner`): within a buffer the two agree
(`cutLines_eq_feed`), and at the end of each buffer the loop forgets the pending
half. So cuts do not matter as long as none falls into a pair
(`passed_eq_of_wholePairs`), and a stream with a pair has two ways of being cut that
give different lines (`framing_agrees_iff`).
-/

namespace Qigong.Crypt

open CryptConnection

/-! ## Successive reads -/

/-- The values of `bufin` that successive results of `::read` make `read` pass to
`prelineread`, `bufin` being what the previous one left. A line that gets longer than
`maxpendsize` schedules the connection for destruction, and nothing more is read. -/
def passed (maxpendsize : Option Nat) (bufin : Bytes) : List Bytes → List Bytes
  | [] => []
  | s :: ss =>
    let r := cutLines bufin s
    r.1 ++ if tooLong maxpendsize r.2 then [] else passed maxpendsize r.2 ss

/-- `BUFLEN` (qicrypt.cpp:649). -/
def BUFLEN : Nat := 32768

/-- A way of cutting a stream into results of `::read`. -/
structure IsCut (stream : Bytes) (cs : List Bytes) : Prop where
  whole : cs.flatten = stream
  nonempty : ∀ c ∈ cs, c ≠ []
  fits : ∀ c ∈ cs, c.length ≤ BUFLEN

/-- The lines of a stream are no longer than `maxpendsize`: no stretch without a line
end is. -/
def LinesFit (maxpendsize : Option Nat) (stream : Bytes) : Prop :=
  ∀ m, maxpendsize = some m → ∀ v, v <:+: stream → NoEol v → v.length ≤ m

/-- A pair of line ends occurs in the stream. -/
def HasPair (stream : Bytes) : Prop :=
  ∃ u c d v, stream = u ++ c :: d :: v ∧ isEolPair c d = true

/-- The line end a buffer ends with, unless it is the second one of a pair. -/
def loneEnd : Bytes → Option UInt8
  | [] => none
  | [c] => if isEol c then some c else none
  | c :: d :: s => if isEolPair c d then loneEnd s else loneEnd (d :: s)

/-- The boundary between two buffers falls into a pair. -/
def CutsPair (s t : Bytes) : Prop :=
  ∃ a, loneEnd s = some a ∧ ∃ d, t.head? = some d ∧ isEolPair a d = true

/-- No boundary of the cut falls into a pair. -/
def WholePairs (cs : List Bytes) : Prop := cs.IsChain fun s t => ¬ CutsPair s t

/-! ## The scanner -/

/-- The scanner's state: the line end it has just read, if the next byte may still
pair with it, and the line under way. -/
structure ScanState where
  half : Option UInt8
  cur : Bytes

/-- One byte: the second half of a pair is skipped, a line end closes the line, and
any other byte lengthens it. -/
def scanStep (st : ScanState) (c : UInt8) : ScanState × List Bytes :=
  if st.half.any (isEolPair · c) then (⟨none, st.cur⟩, [])
  else if isEol c then (⟨some c, []⟩, [st.cur])
  else (⟨none, st.cur ++ [c]⟩, [])

/-- The scanner. -/
def scanner : Lib.Transducer ScanState UInt8 Bytes := ⟨scanStep⟩

/-- What `read` forgets at the end of a buffer. -/
def ScanState.forget (st : ScanState) : ScanState := ⟨none, st.cur⟩

theorem scanStep_eol {c : UInt8} {cur : Bytes} (h : isEol c = true) :
    scanStep ⟨none, cur⟩ c = (⟨some c, []⟩, [cur]) := by
  simp [scanStep, h]

theorem scanStep_text {c : UInt8} {cur : Bytes} (h : isEol c = false) :
    scanStep ⟨none, cur⟩ c = (⟨none, cur ++ [c]⟩, []) := by
  simp [scanStep, h]

theorem scanStep_pair {c d : UInt8} {cur : Bytes} (h : isEolPair c d = true) :
    scanStep ⟨some c, cur⟩ d = (⟨none, cur⟩, []) := by
  simp [scanStep, h]

theorem scanStep_unpaired {c d : UInt8} {cur : Bytes} (h : isEolPair c d = false) :
    scanStep ⟨some c, cur⟩ d = scanStep ⟨none, cur⟩ d := by
  simp [scanStep, h]

/-- A pending half that the next byte does not pair with does not matter. -/
theorem feed_forget (st : ScanState) {s : Bytes} (hs : s ≠ [])
    (h : ∀ a d, st.half = some a → s.head? = some d → isEolPair a d = false) :
    scanner.feed st.forget s = scanner.feed st s := by
  cases s with
  | nil => exact absurd rfl hs
  | cons d s =>
    have hstep : scanner.step st.forget d = scanner.step st d := by
      obtain ⟨half, cur⟩ := st
      cases half with
      | none => rfl
      | some a => exact (scanStep_unpaired (h a d rfl rfl)).symm
    rw [Lib.Transducer.feed_cons, Lib.Transducer.feed_cons, hstep]

/-- The first byte of a buffer through the scanner. -/
theorem feed_of_step {st st' : ScanState} {c : UInt8} {ls : List Bytes} (s : Bytes)
    (h : scanStep st c = (st', ls)) :
    scanner.feed st (c :: s) = ((scanner.feed st' s).1, ls ++ (scanner.feed st' s).2) := by
  have hstep : scanner.step st c = (st', ls) := h
  rw [Lib.Transducer.feed_cons, hstep]

theorem feed_eol {c : UInt8} (cur s : Bytes) (h : isEol c = true) :
    scanner.feed ⟨none, cur⟩ (c :: s)
      = ((scanner.feed ⟨some c, []⟩ s).1, cur :: (scanner.feed ⟨some c, []⟩ s).2) :=
  feed_of_step s (scanStep_eol h)

theorem feed_text {c : UInt8} (cur s : Bytes) (h : isEol c = false) :
    scanner.feed ⟨none, cur⟩ (c :: s) = scanner.feed ⟨none, cur ++ [c]⟩ s :=
  feed_of_step s (scanStep_text h)

theorem feed_pair {c d : UInt8} (cur s : Bytes) (h : isEolPair c d = true) :
    scanner.feed ⟨some c, cur⟩ (d :: s) = scanner.feed ⟨none, cur⟩ s :=
  feed_of_step s (scanStep_pair h)

theorem feed_unpaired {c d : UInt8} (cur s : Bytes) (h : isEolPair c d = false) :
    scanner.feed ⟨some c, cur⟩ (d :: s) = scanner.feed ⟨none, cur⟩ (d :: s) := by
  refine (feed_forget ⟨some c, cur⟩ (List.cons_ne_nil d s) fun a e ha he => ?_).symm
  cases Option.some.inj ha
  cases Option.some.inj he
  exact h

/-- **The byte loop is the scanner** on one buffer: it passes the lines the scanner
emits and leaves the line under way. -/
theorem cutLines_eq_feed (cur s : Bytes) :
    cutLines cur s
      = ((scanner.feed ⟨none, cur⟩ s).2, (scanner.feed ⟨none, cur⟩ s).1.cur) := by
  induction cur, s using cutLines.induct with
  | case1 cur => rfl
  | case2 cur c hc =>
    rw [cutLines, if_pos hc, feed_eol cur [] hc]
    rfl
  | case3 cur c hc =>
    rw [cutLines, if_neg hc, feed_text cur [] (by simpa using hc)]
    rfl
  | case4 cur c d s hc ihpair ihlone =>
    rw [cutLines, if_pos hc, feed_eol cur _ hc]
    by_cases hpair : isEolPair c d = true
    · -- the loop steps over the second half
      rw [if_pos hpair, feed_pair [] s hpair, ihpair]
    · rw [if_neg hpair, feed_unpaired [] s (by simpa using hpair), ihlone]
  | case5 cur c d s hc ih =>
    rw [cutLines, if_neg hc, feed_text cur _ (by simpa using hc), ih]

/-- What is pending at the end of a buffer. -/
theorem feed_half (cur s : Bytes) : (scanner.feed ⟨none, cur⟩ s).1.half = loneEnd s := by
  induction s using loneEnd.induct generalizing cur with
  | case1 => rfl
  | case2 c hc =>
    rw [feed_eol cur [] hc, loneEnd, if_pos hc]
    rfl
  | case3 c hc =>
    rw [feed_text cur [] (by simpa using hc), loneEnd, if_neg hc]
    rfl
  | case4 c d s hpair ih =>
    rw [feed_eol cur _ (isEol_of_pair hpair).1, feed_pair [] s hpair, loneEnd, if_pos hpair]
    exact ih []
  | case5 c d s hpair ih =>
    rw [loneEnd, if_neg hpair]
    cases hc : isEol c with
    | true =>
      rw [feed_eol cur _ hc, feed_unpaired [] s (by simpa using hpair)]
      exact ih []
    | false =>
      rw [feed_text cur _ hc]
      exact ih _

/-! ## Lines that fit -/

/-- What is left in `bufin` is the end of what has been read, and holds no line
end. -/
theorem cutLines_rest (cur s : Bytes) (h : NoEol cur) :
    (cutLines cur s).2 <:+ cur ++ s ∧ NoEol (cutLines cur s).2 := by
  induction cur, s using cutLines.induct with
  | case1 cur => exact ⟨by simp [cutLines], h⟩
  | case2 cur c hc =>
    rw [cutLines, if_pos hc]
    exact ⟨List.nil_suffix, noEol_nil⟩
  | case3 cur c hc =>
    rw [cutLines, if_neg hc]
    exact ⟨List.suffix_rfl, by simpa [h] using hc⟩
  | case4 cur c d s hc ihpair ihlone =>
    rw [cutLines, if_pos hc]
    have hsuffix : ∀ t : Bytes, t <:+ c :: d :: s → t <:+ cur ++ c :: d :: s :=
      fun t ht => ht.trans (List.suffix_append _ _)
    by_cases hpair : isEolPair c d = true
    · rw [if_pos hpair]
      refine ⟨hsuffix _ ((ihpair noEol_nil).1.trans ?_), (ihpair noEol_nil).2⟩
      exact (List.suffix_cons d s).trans (List.suffix_cons c _)
    · rw [if_neg hpair]
      exact ⟨hsuffix _ ((ihlone noEol_nil).1.trans (List.suffix_cons c _)), (ihlone noEol_nil).2⟩
  | case5 cur c d s hc ih =>
    rw [cutLines, if_neg hc]
    have := ih (by simpa [h] using hc)
    simpa using this

theorem LinesFit.of_suffix {m : Option Nat} {s t : Bytes} (h : LinesFit m s) (ht : t <:+ s) :
    LinesFit m t :=
  fun n hn v hv => h n hn v (hv.trans ht.isInfix)

/-- A line that fits is not too long. -/
theorem LinesFit.not_tooLong {m : Option Nat} {s v : Bytes} (h : LinesFit m s) (hv : v <:+: s)
    (hnv : NoEol v) : tooLong m v = false := by
  cases m with
  | none => rfl
  | some n =>
    have hle := h n rfl v hv hnv
    simpa [tooLong] using hle

/-- Successive reads of lines that fit are the scanner fed block by block. -/
theorem passed_eq_feedBlocks {m : Option Nat} :
    ∀ (cs : List Bytes) (half : Option UInt8) (cur : Bytes), NoEol cur →
      LinesFit m (cur ++ cs.flatten) →
      passed m cur cs = (scanner.feedBlocks ScanState.forget ⟨half, cur⟩ cs).2
  | [], _, _, _, _ => rfl
  | s :: ss, half, cur, hcur, hfit => by
    have hrest := cutLines_rest cur s hcur
    rw [List.flatten_cons, ← List.append_assoc] at hfit
    have hnext : LinesFit m ((cutLines cur s).2 ++ ss.flatten) := by
      obtain ⟨u, hu⟩ := hrest.1
      rw [← hu, List.append_assoc] at hfit
      exact hfit.of_suffix (List.suffix_append _ _)
    have hshort : tooLong m (cutLines cur s).2 = false :=
      hnext.not_tooLong (List.infix_append' [] _ _) hrest.2
    have hfeed := cutLines_eq_feed cur s
    show (cutLines cur s).1 ++ (if tooLong m (cutLines cur s).2 then []
      else passed m (cutLines cur s).2 ss) = (scanner.feed ⟨none, cur⟩ s).2 ++ _
    rw [hshort, if_neg (by decide), hfeed]
    rw [hfeed] at hrest hnext
    congr 1
    exact passed_eq_feedBlocks ss _ _ hrest.2 hnext

/-! ## Cuts that leave pairs whole -/

/-- A cut that leaves pairs whole is seamless to the scanner. -/
theorem seamless_of_wholePairs :
    ∀ (cs : List Bytes) (st : ScanState), (∀ c ∈ cs, c ≠ []) → WholePairs cs →
      (∀ a d s, st.half = some a → cs.head? = some s → s.head? = some d →
        isEolPair a d = false) →
      scanner.Seamless ScanState.forget st cs
  | [], _, _, _, _ => trivial
  | s :: ss, st, hne, hwhole, hfirst => by
    have hfeed : scanner.feed st.forget s = scanner.feed st s :=
      feed_forget st (hne s List.mem_cons_self) fun a d ha hd => hfirst a d s ha rfl hd
    refine ⟨hfeed, seamless_of_wholePairs ss _ (fun c hc => hne c (List.mem_cons_of_mem _ hc))
      hwhole.of_cons fun a d t ha ht hd => ?_⟩
    -- what is pending behind `s` is its lone end
    rw [← hfeed, show st.forget = ⟨none, st.cur⟩ from rfl, feed_half] at ha
    cases ss with
    | nil => cases ht
    | cons t' ss =>
      cases Option.some.inj ht
      have hcut : ¬ CutsPair s t := (List.isChain_cons_cons.mp hwhole).1
      exact Bool.eq_false_iff.mpr fun hp => hcut ⟨a, ha, d, hd, hp⟩

/-- **Cuts that leave pairs whole give the lines of the stream.** -/
theorem passed_eq_of_wholePairs {m : Option Nat} {stream : Bytes} {cs : List Bytes}
    (hfit : LinesFit m stream) (hcut : IsCut stream cs) (hwhole : WholePairs cs) :
    passed m [] cs = (cutLines [] stream).1 := by
  have hfit' : LinesFit m ([] ++ cs.flatten) := by rw [hcut.whole]; exact hfit
  rw [passed_eq_feedBlocks cs none [] noEol_nil hfit',
    Lib.Transducer.feedBlocks_eq (seamless_of_wholePairs cs ⟨none, []⟩ hcut.nonempty hwhole
      fun a d s h => (nomatch h)), hcut.whole, cutLines_eq_feed]

/-! ## The two ways of cutting a pair -/

/-- What the scanner emits over further blocks does not depend on what it forgets. -/
theorem feedBlocks_forget {st st' : ScanState} (h : st.forget = st'.forget) (cs : List Bytes) :
    (scanner.feedBlocks ScanState.forget st cs).2
      = (scanner.feedBlocks ScanState.forget st' cs).2 := by
  cases cs with
  | nil => rfl
  | cons c cs => rw [Lib.Transducer.feedBlocks_cons, Lib.Transducer.feedBlocks_cons, h]

/-- A stream read byte by byte, except that the blocks `ps` are read in its middle. -/
def bytewise (u : Bytes) (ps : List Bytes) (v : Bytes) : List Bytes :=
  u.map (fun c => [c]) ++ ps ++ v.map fun c => [c]

theorem flatten_singletons (u : Bytes) : (u.map fun c => [c]).flatten = u := by
  induction u with
  | nil => rfl
  | cons c u ih => rw [List.map_cons, List.flatten_cons, ih, List.singleton_append]

theorem isCut_bytewise {u v : Bytes} {ps : List Bytes} (h : ∀ p ∈ ps, p ≠ [] ∧ p.length ≤ BUFLEN) :
    IsCut (u ++ ps.flatten ++ v) (bytewise u ps v) := by
  have hone : ∀ (w : Bytes), ∀ c ∈ w.map (fun c => [c]), c ≠ [] ∧ c.length ≤ BUFLEN := by
    intro w c hc
    obtain ⟨d, -, rfl⟩ := List.mem_map.mp hc
    exact ⟨List.cons_ne_nil d [], Nat.le_add_left 1 _⟩
  have hall : ∀ c ∈ bytewise u ps v, c ≠ [] ∧ c.length ≤ BUFLEN := by
    intro c hc
    rcases List.mem_append.mp hc with hc | hc
    · rcases List.mem_append.mp hc with hc | hc
      · exact hone u c hc
      · exact h c hc
    · exact hone v c hc
  refine ⟨?_, fun c hc => (hall c hc).1, fun c hc => (hall c hc).2⟩
  rw [bytewise, List.flatten_append, List.flatten_append, flatten_singletons, flatten_singletons]

/-- The two halves of a pair in one buffer end one line; in two buffers they end a
line more. -/
theorem passed_pair {m : Option Nat} {u v : Bytes} {c d : UInt8} (hp : isEolPair c d = true)
    (hfit : LinesFit m (u ++ c :: d :: v)) :
    (passed m [] (bytewise u [[c], [d]] v)).length
      = (passed m [] (bytewise u [[c, d]] v)).length + 1 := by
  have hcut : ∀ ps : List Bytes, ps.flatten = [c, d] →
      LinesFit m ([] ++ (bytewise u ps v).flatten) := by
    intro ps hps
    rw [List.nil_append, bytewise, List.flatten_append, List.flatten_append, flatten_singletons,
      flatten_singletons, hps, List.append_assoc]
    exact hfit
  obtain ⟨hc, hd⟩ := isEol_of_pair hp
  rw [passed_eq_feedBlocks _ none [] noEol_nil (hcut [[c], [d]] rfl),
    passed_eq_feedBlocks _ none [] noEol_nil (hcut [[c, d]] rfl), bytewise, bytewise,
    Lib.Transducer.feedBlocks_append, Lib.Transducer.feedBlocks_append,
    Lib.Transducer.feedBlocks_append, Lib.Transducer.feedBlocks_append]
  generalize (scanner.feedBlocks ScanState.forget ⟨none, []⟩ (u.map fun c => [c])).1 = st
  -- behind the boundary the second half ends a line of its own
  have htwo : scanner.feedBlocks ScanState.forget st [[c], [d]] = (⟨some d, []⟩, [st.cur, []]) := by
    have hfc : scanner.feed st.forget [c] = (⟨some c, []⟩, [st.cur]) := feed_eol st.cur [] hc
    have hfd : scanner.feed (ScanState.forget ⟨some c, []⟩) [d] = (⟨some d, []⟩, [[]]) :=
      feed_eol [] [] hd
    rw [Lib.Transducer.feedBlocks_cons, hfc]
    dsimp only
    rw [Lib.Transducer.feedBlocks_cons, hfd]
    rfl
  have hone : scanner.feedBlocks ScanState.forget st [[c, d]] = (⟨none, []⟩, [st.cur]) := by
    rw [Lib.Transducer.feedBlocks_cons, show st.forget = ⟨none, st.cur⟩ from rfl, feed_eol _ _ hc,
      feed_pair _ _ hp]
    rfl
  rw [htwo, hone]
  dsimp only
  have hrest := feedBlocks_forget (show ScanState.forget ⟨some d, []⟩ = ScanState.forget ⟨none, []⟩
    from rfl) (v.map fun c => [c])
  rw [hrest]
  simp only [List.length_append, List.length_cons, List.length_nil]
  omega

/-- A stream without pairs has no boundary that falls into one. -/
theorem loneEnd_getLast {s : Bytes} {a : UInt8} (h : loneEnd s = some a) :
    ∃ u, s = u ++ [a] := by
  induction s using loneEnd.induct with
  | case1 => cases h
  | case2 c hc =>
    rw [loneEnd, if_pos hc] at h
    exact ⟨[], by rw [Option.some.inj h]; rfl⟩
  | case3 c hc =>
    rw [loneEnd, if_neg hc] at h
    cases h
  | case4 c d s hp ih =>
    rw [loneEnd, if_pos hp] at h
    obtain ⟨u, rfl⟩ := ih h
    exact ⟨c :: d :: u, rfl⟩
  | case5 c d s hp ih =>
    rw [loneEnd, if_neg hp] at h
    obtain ⟨u, hu⟩ := ih h
    exact ⟨c :: u, by rw [hu]; rfl⟩

theorem wholePairs_of_not_hasPair :
    ∀ (cs : List Bytes), ¬ HasPair cs.flatten → WholePairs cs
  | [], _ => List.IsChain.nil
  | [_], _ => List.IsChain.singleton _
  | s :: t :: cs, h => by
    refine List.isChain_cons_cons.mpr ⟨?_, wholePairs_of_not_hasPair (t :: cs) ?_⟩
    · rintro ⟨a, ha, d, hd, hp⟩
      obtain ⟨u, rfl⟩ := loneEnd_getLast ha
      obtain ⟨v, rfl⟩ : ∃ v, t = d :: v := by
        cases t with
        | nil => cases hd
        | cons e v => exact ⟨v, by rw [Option.some.inj hd]⟩
      exact h ⟨u, a, d, v ++ cs.flatten, by simp, hp⟩
    · rintro ⟨u, c, d, v, huv, hp⟩
      exact h ⟨s ++ u, c, d, v, by rw [List.flatten_cons, huv, List.append_assoc], hp⟩

/-- **Framing is independent of the cuts exactly on streams without pairs**, and, on
any stream, among the cuts that leave its pairs whole. -/
theorem framing_agrees_iff (m : Option Nat) (stream : Bytes) (hfit : LinesFit m stream) :
    ((∀ cs cs', IsCut stream cs → IsCut stream cs' → passed m [] cs = passed m [] cs')
      ↔ ¬ HasPair stream) ∧
    ∀ cs cs', IsCut stream cs → IsCut stream cs' → WholePairs cs → WholePairs cs' →
      passed m [] cs = passed m [] cs' := by
  refine ⟨⟨?_, fun hno cs cs' hcs hcs' => ?_⟩, fun cs cs' hcs hcs' hw hw' => ?_⟩
  · -- a pair read in one buffer and in two
    rintro hall ⟨u, c, d, v, rfl, hp⟩
    have htwo : IsCut (u ++ [[c], [d]].flatten ++ v) (bytewise u [[c], [d]] v) :=
      isCut_bytewise (by simp [BUFLEN])
    have hone : IsCut (u ++ [[c, d]].flatten ++ v) (bytewise u [[c, d]] v) :=
      isCut_bytewise (by simp [BUFLEN])
    have hflat : ∀ ps : List Bytes, ps.flatten = [c, d] →
        u ++ ps.flatten ++ v = u ++ c :: d :: v := by
      intro ps hps
      rw [hps, List.append_assoc]
      rfl
    rw [hflat _ rfl] at htwo hone
    have hlen := passed_pair hp hfit
    rw [hall _ _ htwo hone] at hlen
    omega
  · have hw : ∀ ds, IsCut stream ds → WholePairs ds := fun ds hds =>
      wholePairs_of_not_hasPair ds (by rw [hds.whole]; exact hno)
    rw [passed_eq_of_wholePairs hfit hcs (hw cs hcs), passed_eq_of_wholePairs hfit hcs' (hw cs' hcs')]
  · rw [passed_eq_of_wholePairs hfit hcs hw, passed_eq_of_wholePairs hfit hcs' hw']

/-- The record of a one-byte text, in clear, with its end. -/
def sampleRecord : Bytes := base64_encode [65] ++ recordEnd

theorem linesFit_sampleRecord : LinesFit (some 100) sampleRecord := by
  rintro m hm v hv -
  cases Option.some.inj hm
  have hlen := hv.length_le
  have : sampleRecord.length = 6 := by decide
  omega

theorem framing_agrees_iff_sampleRecord :
    LinesFit (some 100) sampleRecord ∧
      ((∀ cs cs', IsCut sampleRecord cs → IsCut sampleRecord cs' →
          passed (some 100) [] cs = passed (some 100) [] cs') ↔ ¬ HasPair sampleRecord) :=
  ⟨linesFit_sampleRecord, (framing_agrees_iff _ _ linesFit_sampleRecord).1⟩

/-- A record whose two end bytes arrive in two buffers is read as two lines, the
second one empty. -/
theorem framing_depends_on_cuts :
    ¬ ∀ (m : Option Nat) (stream : Bytes), LinesFit m stream → ∀ cs cs', IsCut stream cs →
      IsCut stream cs' → passed m [] cs = passed m [] cs' := by
  intro h
  have hcut : IsCut sampleRecord [sampleRecord] := ⟨by decide, by decide, by decide⟩
  have hcut' : IsCut sampleRecord [base64_encode [65] ++ [10], [13]] :=
    ⟨by decide, by decide, by decide⟩
  have heq := h (some 100) sampleRecord linesFit_sampleRecord _ _ hcut hcut'
  have hone : passed (some 100) [] [sampleRecord] = [base64_encode [65]] := by decide
  have htwo : passed (some 100) [] [base64_encode [65] ++ [10], [13]] = [base64_encode [65], []] := by
    decide
  rw [hone, htwo] at heq
  cases heq

end Qigong.Crypt
