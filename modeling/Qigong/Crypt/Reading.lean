import Qigong.Crypt.Framing
import Qigong.Crypt.Transport
import Qigong.Lib.Lists

/-!
# Reading records (qicrypt.cpp:649–708)

`read` on what `::read` gives: its lines go to `prelineread` one after the other, and the
line under way stays in `bufin`. Between two reads the records on their way are in one of
three situations (`Underway`), the framing's forgetting the first half of a record's end
being the reason for the other two; a read leads from one to one (`underway_read`). So a
peer that has accepted is given the lines of the texts sent, and empty lines between them
(`read_arrives`), and is not destroyed as long as no record is longer than its limit
(`record_length`, `fits_iff`).
-/

namespace Qigong.Crypt

open ChallengeState

namespace CryptConnection

variable {P : Platform}

/-! ## `read` -/

/-- Lines are passed to `prelineread`, one after the other. -/
def takeLines (envs : Nat → LineEnv) :
    CryptConnection P → List Bytes → Except Exn (CryptConnection P × List Call)
  | c, [] => .ok (c, [])
  | c, l :: ls =>
    (c.receive (envs ls.length) l).bind fun r =>
      (takeLines envs r.1 ls).map fun t => (t.1, r.2 ++ t.2)

/-- The line under way stays in `bufin`; one that is too long ends the connection. -/
def keepLine (bufin : Bytes) (c : CryptConnection P) : CryptConnection P :=
  let c := { c with bufin := bufin }
  if tooLong c.maxpendsize bufin then c.schedule_for_destruction else c

/-- `CryptConnection::read` (qicrypt.cpp:650–708) with `raw` false, on the bytes that
`::read` gives, and what it calls on the application. -/
def read (envs : Nat → LineEnv) (s : Bytes) (c : CryptConnection P) :
    Except Exn (CryptConnection P × List Call) :=
  let cut := cutLines c.bufin s
  (c.takeLines envs cut.1).map fun r => (r.1.keepLine cut.2, r.2)

/-- Successive reads. Nothing more is read of a connection that is to be destroyed. -/
def readAll (envs : Nat → Nat → LineEnv) :
    CryptConnection P → List Bytes → Except Exn (CryptConnection P × List Call)
  | c, [] => .ok (c, [])
  | c, s :: ss =>
    (c.read (envs ss.length) s).bind fun r =>
      if r.1.doomed then .ok r
      else (readAll envs r.1 ss).map fun t => (t.1, r.2 ++ t.2)

/-! ## Records on their way -/

/-- Records `q` are to be read, `st` being the scanner's state and `rest` the bytes that
have not been read:

- `text`: in a record, or in front of one, the second half of an end that was read alone
  being still pending perhaps;
- `ended`: in front of the second half of an end, whose first half has ended its record;
- `owed`: likewise, behind an empty record whose first half was read as the second one of
  the end in front of it. -/
inductive Underway : ScanState → Bytes → List Bytes → Prop where
  | text {half : Option UInt8} {cur rest : Bytes} {q : List Bytes} :
      half = none ∨ half = some 13 ∧ cur = [] → NoEol cur → cur ++ rest = wire q →
      Underway ⟨half, cur⟩ rest q
  | ended {half : Option UInt8} {q : List Bytes} :
      half = none ∨ half = some 10 → Underway ⟨half, []⟩ (13 :: wire q) q
  | owed {q : List Bytes} : Underway ⟨none, []⟩ (13 :: wire q) ([] :: q)

/-- What is forgotten between two reads leaves the situation as it is. -/
theorem Underway.forget {st : ScanState} {rest : Bytes} {q : List Bytes}
    (h : Underway st rest q) : Underway st.forget rest q := by
  cases h with
  | text _ hcur heq => exact .text (.inl rfl) hcur heq
  | ended _ => exact .ended (.inl rfl)
  | owed => exact .owed

/-- A line and its end in front of a stream that begins with a text without line ends. -/
theorem line_of_prefix {cur rest l : Bytes} {ls : List Bytes} (hcur : NoEol cur)
    (h : cur ++ rest = wire (l :: ls)) :
    ∃ more, l = cur ++ more ∧ rest = more ++ (recordEnd ++ wire ls) := by
  rw [wire_cons] at h
  rcases List.append_eq_append_iff.mp h with ⟨more, hl, hrest⟩ | ⟨more, hcur', hrest⟩
  · exact ⟨more, hl, hrest⟩
  · cases more with
    | nil => exact ⟨[], by rw [hcur', List.append_nil, List.append_nil], hrest.symm⟩
    | cons c more =>
      -- the text would hold the line end
      obtain ⟨rfl, -⟩ := List.cons_eq_cons.mp hrest
      rw [hcur'] at hcur
      exact absurd (hcur 10 (List.mem_append_right _ List.mem_cons_self)) (by decide)

/-- **One byte**: it belongs to the record under way, ends it, is stepped over as the second
half of its end, or is read as an empty line. -/
theorem underway_step {st : ScanState} {c : UInt8} {rest : Bytes} {q : List Bytes}
    (hq : ∀ l ∈ q, NoEol l) (h : Underway st (c :: rest) q) :
    ∃ q', Lib.Arrives [] (fun l => [l]) q (scanStep st c).2 q' ∧
      Underway (scanStep st c).1 rest q' := by
  cases h with
  | @text half cur _ _ hhalf hcur heq =>
    cases q with
    | nil =>
      rw [show wire [] = [] from rfl] at heq
      exact absurd heq (by simp)
    | cons l ls =>
    obtain ⟨more, hl, hrest⟩ := line_of_prefix hcur heq
    cases more with
    | nil =>
      -- the record's end
      obtain ⟨rfl, rfl⟩ := List.cons_eq_cons.mp hrest
      rw [List.append_nil] at hl
      rcases hhalf with rfl | ⟨rfl, rfl⟩
      · rw [scanStep_eol (by decide), hl]
        exact ⟨ls, .next (.done ls), .ended (.inr rfl)⟩
      · rw [scanStep_pair (by decide), hl]
        exact ⟨[] :: ls, .done _, .owed⟩
    | cons d more =>
      obtain ⟨rfl, rfl⟩ := List.cons_eq_cons.mp hrest
      have hc : isEol c = false := hq l List.mem_cons_self c (by rw [hl]; simp)
      have hstep : scanStep ⟨half, cur⟩ c = (⟨none, cur ++ [c]⟩, []) := by
        rcases hhalf with rfl | ⟨rfl, rfl⟩
        · exact scanStep_text hc
        · rw [scanStep_unpaired (Bool.eq_false_iff.mpr fun hp => ?_), scanStep_text hc]
          rw [(isEol_of_pair hp).2] at hc
          cases hc
      rw [hstep]
      refine ⟨l :: ls, .done _, .text (.inl rfl) (by simp [hcur, hc]) ?_⟩
      rw [← heq, List.append_assoc, List.singleton_append]
  | ended hhalf =>
    rcases hhalf with rfl | rfl
    · -- the first half was read by another `read`
      rw [scanStep_eol (by decide)]
      exact ⟨q, .extra (.done q), .text (.inr ⟨rfl, rfl⟩) noEol_nil rfl⟩
    · rw [scanStep_pair (by decide)]
      exact ⟨q, .done q, .text (.inl rfl) noEol_nil rfl⟩
  | @owed ls =>
    rw [scanStep_eol (by decide)]
    exact ⟨ls, .next (.done ls), .text (.inr ⟨rfl, rfl⟩) noEol_nil rfl⟩

/-- Byte after byte. -/
theorem underway_feed (s : Bytes) {st : ScanState} {rest : Bytes} {q : List Bytes}
    (hq : ∀ l ∈ q, NoEol l) (h : Underway st (s ++ rest) q) :
    ∃ q', Lib.Arrives [] (fun l => [l]) q (scanner.feed st s).2 q' ∧
      Underway (scanner.feed st s).1 rest q' := by
  induction s generalizing st q with
  | nil => exact ⟨q, .done q, h⟩
  | cons c s ih =>
    obtain ⟨q₁, harr, hway⟩ := underway_step hq h
    obtain ⟨q₂, harr', hway'⟩ := ih (fun l hl => hq l (harr.suffix.subset hl)) hway
    rw [Lib.Transducer.feed_cons]
    exact ⟨q₂, harr.trans harr', hway'⟩

/-- **One block**: the lines cut out of it are records and empty lines between them, and the
rest is on its way. -/
theorem underway_cutLines {bufin s rest : Bytes} {q : List Bytes} (hq : ∀ l ∈ q, NoEol l)
    (h : Underway ⟨none, bufin⟩ (s ++ rest) q) :
    ∃ q', Lib.Arrives [] (fun l => [l]) q (cutLines bufin s).1 q' ∧
      Underway ⟨none, (cutLines bufin s).2⟩ rest q' := by
  obtain ⟨q', harr, hway⟩ := underway_feed s hq h
  rw [cutLines_eq_feed]
  exact ⟨q', harr, hway.forget⟩

/-- Behind the last byte there is no record on its way, and no part of one. -/
theorem underway_nil {bufin : Bytes} {q : List Bytes} (h : Underway ⟨none, bufin⟩ [] q) :
    q = [] ∧ bufin = [] := by
  cases h with
  | text _ hcur heq =>
    cases q with
    | nil =>
      rw [List.append_nil] at heq
      exact ⟨rfl, heq⟩
    | cons l ls =>
      obtain ⟨more, -, hrest⟩ := line_of_prefix hcur heq
      exact absurd hrest.symm (by simp [recordEnd])

theorem wire_append (ls ms : List Bytes) : wire (ls ++ ms) = wire ls ++ wire ms :=
  List.flatMap_append

/-- A record that is sent is on its way behind the others. -/
theorem Underway.send {st : ScanState} {rest : Bytes} {q : List Bytes} (h : Underway st rest q)
    (l : Bytes) : Underway st (rest ++ (l ++ recordEnd)) (q ++ [l]) := by
  have hwire : ∀ ls : List Bytes, wire (ls ++ [l]) = wire ls ++ (l ++ recordEnd) := fun ls => by
    rw [wire_append, wire_cons, show wire [] = [] from rfl, List.append_nil]
  cases h with
  | text hhalf hcur heq =>
    refine .text hhalf hcur ?_
    rw [hwire, ← heq, List.append_assoc]
  | ended hhalf =>
    rw [List.cons_append, ← hwire]
    exact .ended hhalf
  | owed =>
    rw [List.cons_append, ← hwire, List.cons_append]
    exact .owed

/-- The line under way is no longer than a record on its way. -/
theorem Underway.line_le {bufin rest : Bytes} {q : List Bytes} {n : Nat}
    (h : Underway ⟨none, bufin⟩ rest q) (hq : ∀ l ∈ q, l.length ≤ n) : bufin.length ≤ n := by
  cases h with
  | text _ hcur heq =>
    cases q with
    | nil => simp [(List.append_eq_nil_iff.mp heq).1]
    | cons l ls =>
      obtain ⟨more, hl, -⟩ := line_of_prefix hcur heq
      have hle := hq l List.mem_cons_self
      rw [hl, List.length_append] at hle
      omega
  | ended _ => exact Nat.zero_le n
  | owed => exact Nat.zero_le n

/-! ## The size of a record -/

/-- The size of the record of a text of `n` bytes. -/
def recordSize (n : Nat) : Nat := n / 2048 * 2732 + (n % 2048 + 2) / 3 * 4

theorem base64_encode_length (s : Bytes) : (base64_encode s).length = (s.length + 2) / 3 * 4 := by
  fun_induction base64_encode s with
  | case1 => rfl
  | case2 => simp
  | case3 => simp
  | case4 a b c s tr ih =>
    rw [List.length_append, ih]
    simp only [List.length_cons, List.length_nil]
    omega

/-- The size of pieces that are encoded is that of their lengths. -/
theorem encodeChunks_length {cs ds : List Bytes} (h : cs.map List.length = ds.map List.length) :
    (encodeChunks cs).length = (encodeChunks ds).length := by
  have hsize : ∀ es : List Bytes,
      (encodeChunks es).length = ((es.map List.length).map fun n => (n + 2) / 3 * 4).sum := by
    intro es
    rw [encodeChunks, List.length_flatten, List.map_map, List.map_map]
    congr 1
    exact List.map_congr_left fun e _ => base64_encode_length e
  rw [hsize, hsize, h]

/-- **The size of a record** depends on that of its text alone. -/
theorem cipherRecord_length (st : P.mcrypt.State) (text : Bytes) :
    (cipherRecord st text).length = recordSize text.length := by
  rw [cipherRecord, encodeChunks_length (P.mcrypt.encryptChunks_lengths st (Lib.chunks bufsize text))]
  induction text using Lib.chunks_induction bufsize_pos with
  | nil => rfl
  | step text hne ih =>
    rw [Lib.chunks_of_ne_nil bufsize_pos hne, encodeChunks, List.map_cons, List.flatten_cons,
      List.length_append, ← encodeChunks, ih, base64_encode_length, List.length_take,
      List.length_drop]
    have hpos : 0 < text.length := List.length_pos_iff.mpr hne
    unfold recordSize bufsize
    omega

/-- The limit both programs set (qigong.cpp:208, qicollect.cpp:73) is that of texts of
3071 bytes. -/
theorem fits_iff (n : Nat) : recordSize n ≤ 4096 ↔ n ≤ 3071 := by
  unfold recordSize
  omega

/-- qiconn's `setmaxpendsize`. -/
def setmaxpendsize (n : Nat) (c : CryptConnection P) : CryptConnection P :=
  { c with maxpendsize := some n }

/-- The record of a text is no longer than `maxpendsize`. -/
def Fits (maxpendsize : Option Nat) (text : Bytes) : Prop :=
  ∀ m, maxpendsize = some m → recordSize text.length ≤ m

/-! ## Two ends in step -/

theorem records_append (st : P.mcrypt.State) (ts us : List Bytes) :
    records st (ts ++ us) = records st ts ++ records (stateAfter st ts) us := by
  induction ts generalizing st with
  | nil => rfl
  | cons t ts ih => exact congrArg _ (ih _)

/-- A record is that of a text. -/
theorem length_of_mem_records {st : P.mcrypt.State} {texts : List Bytes} {l : Bytes}
    (h : l ∈ records st texts) : ∃ t ∈ texts, l.length = recordSize t.length := by
  induction texts generalizing st with
  | nil => cases h
  | cons t ts ih =>
    rcases List.mem_cons.mp h with rfl | h
    · exact ⟨t, List.mem_cons_self, cipherRecord_length st t⟩
    · obtain ⟨u, hu, hlen⟩ := ih h
      exact ⟨u, List.mem_cons_of_mem t hu, hlen⟩

theorem stateAfter_append (st : P.mcrypt.State) (ts us : List Bytes) :
    stateAfter st (ts ++ us) = stateAfter (stateAfter st ts) us := List.foldl_append

/-- The texts `texts` are on their way from `s` to `r`: the cipher of `r` is where that of `s`
was before them, and `r` has accepted. -/
def InStep (s r : CryptConnection P) (texts : List Bytes) : Prop :=
  ∃ st, s.tdout = some (stateAfter st texts) ∧ r.tdin = some st ∧ r.challenging = Accepted ∧
    Underway ⟨none, r.bufin⟩ s.bufout (records st texts)

/-- A text that is sent is on its way. -/
theorem InStep.send {s r : CryptConnection P} {texts : List Bytes} (h : InStep s r texts)
    (hout : s.out = []) (text : Bytes) : InStep (s.send text) r (texts ++ [text]) := by
  obtain ⟨st, hs, hr, hacc, hway⟩ := h
  rw [send_cipher hs hout]
  refine ⟨st, ?_, hr, hacc, ?_⟩
  · rw [stateAfter_append]
    rfl
  · rw [records_append]
    exact hway.send _

/-- Records and empty lines received: the application is given the lines of their texts,
and empty lines between them. -/
theorem takeLines_arrives (hundo : P.mcrypt.Undoes) {q q' lines : List Bytes}
    (h : Lib.Arrives [] (fun l => [l]) q lines q') {d : CryptConnection P} {st : P.mcrypt.State}
    {texts : List Bytes} (hq : q = records st texts) (hd : d.tdin = some st)
    (hacc : d.challenging = Accepted) :
    ∃ st' texts' heard bufin, q' = records st' texts' ∧ stateAfter st' texts' = stateAfter st texts ∧
      Lib.Arrives [] (splitRecord []) texts heard texts' ∧
      ∀ envs, d.takeLines envs lines
        = .ok ({ d with bufin := bufin, tdin := some st' }, heard.map .lineread) := by
  induction h generalizing d st texts with
  | done q =>
    refine ⟨st, texts, [], d.bufin, hq, rfl, .done _, fun envs => ?_⟩
    rw [takeLines, ← hd]
    rfl
  | @next l q rest lines _ ih =>
    cases texts with
    | nil => cases hq
    | cons t ts =>
    obtain ⟨rfl, rfl⟩ := List.cons_eq_cons.mp hq
    obtain ⟨st', texts', heard, bufin, hq', hst, harr, hall⟩ :=
      ih (d := { d with bufin := [], tdin := some (cipherAfter st t) }) rfl rfl hacc
    refine ⟨st', texts', _, bufin, hq', hst, .next harr, fun envs => ?_⟩
    rw [List.singleton_append, takeLines, receive_record hundo hd hacc, List.map_append]
    show (takeLines envs _ lines).map _ = _
    rw [hall]
    rfl
  | @extra q rest lines _ ih =>
    -- an empty line deciphers as the record of an empty text
    obtain ⟨st', texts', heard, bufin, hq', hst, harr, hall⟩ :=
      ih (d := { d with bufin := [], tdin := some st }) hq rfl hacc
    refine ⟨st', texts', _, bufin, hq', hst, .extra harr, fun envs => ?_⟩
    have hblank := receive_record hundo hd hacc (envs lines.length) []
    rw [show cipherRecord st [] = [] from rfl] at hblank
    rw [takeLines, hblank]
    show (takeLines envs _ lines).map _ = _
    rw [show cipherAfter st [] = st from rfl, hall]
    rfl

/-- **One read**: the application is given the lines of the first texts on their way, and
empty lines between them; the two ends stay in step, and the connection is not destroyed
where the records fit. -/
theorem read_arrives (hundo : P.mcrypt.Undoes) {s r : CryptConnection P} {chunk rest : Bytes}
    {texts : List Bytes} (h : InStep { s with bufout := chunk ++ rest } r texts)
    (hfit : ∀ t ∈ texts, Fits r.maxpendsize t) :
    ∃ bufin td heard texts', Lib.Arrives [] (splitRecord []) texts heard texts' ∧
      InStep { s with bufout := rest } { r with bufin := bufin, tdin := td } texts' ∧
      ∀ envs, r.read envs chunk
        = .ok ({ r with bufin := bufin, tdin := td }, heard.map .lineread) := by
  obtain ⟨st, hs, hr, hacc, hway⟩ := h
  obtain ⟨q', harr, hway'⟩ := underway_cutLines (noEol_records st texts) hway
  obtain ⟨st', texts', heard, bufin, rfl, hst, hheard, htake⟩ :=
    takeLines_arrives hundo harr rfl hr hacc
  have hshort : tooLong r.maxpendsize (cutLines r.bufin chunk).2 = false := by
    cases hm : r.maxpendsize with
    | none => rfl
    | some m =>
      have hle : (cutLines r.bufin chunk).2.length ≤ m := hway'.line_le fun l hl => by
        obtain ⟨t, ht, hlen⟩ := length_of_mem_records hl
        rw [hlen]
        exact hfit t (hheard.suffix.subset ht) m hm
      simpa [tooLong] using hle
  have hkeep : ∀ b, keepLine (cutLines r.bufin chunk).2 { r with bufin := b, tdin := some st' }
      = { r with bufin := (cutLines r.bufin chunk).2, tdin := some st' } := by
    intro b
    unfold keepLine
    dsimp only
    rw [hshort, if_neg Bool.false_ne_true]
  refine ⟨_, _, heard, texts', hheard, ⟨st', by rw [hst]; exact hs, rfl, hacc, hway'⟩,
    fun envs => ?_⟩
  show (r.takeLines envs (cutLines r.bufin chunk).1).map _ = _
  rw [htake, Except.map, hkeep]

end CryptConnection

end Qigong.Crypt
