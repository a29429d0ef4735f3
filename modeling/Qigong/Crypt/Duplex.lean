import Qigong.Crypt.Agreement
import Qigong.Crypt.Reading

/-!
# Both directions at once

Two ends that have accepted, and what their applications do: each sends a text when it
likes, and reads what has arrived when it likes, a part of the other's `bufout` at a time
(`Duplex.step`). In any interleaving, the lines an application is given are those of the
texts the other one has sent, in order, with empty lines between them, and no read throws or
ends the connection, as long as the records fit the limit (`session_lossless`). Two ends that
an honest handshake leaves are ends of this kind (`conn_of_quiescent`).
-/

namespace Qigong.Crypt

open ChallengeState CryptConnection

/-- The two ends, the texts each has sent, and what each has called on its application. -/
structure Duplex (P : Platform) where
  conn : Side → CryptConnection P
  sent : Side → List Bytes
  heard : Side → List Call

/-- What happens to the ends: the application of a side sends a text; a side reads the next
`n` bytes of the other. -/
inductive Traffic where
  | sends (x : Side) (text : Bytes)
  | reads (x : Side) (n : Nat) (envs : Nat → LineEnv)

namespace Duplex

variable {P : Platform}

/-- Can it happen? A read gives a byte at least, and as many as its buffer holds at most;
a connection that is to be destroyed is not read. -/
def possible (w : Duplex P) : Traffic → Bool
  | .sends _ _ => true
  | .reads x n _ =>
    0 < n && n ≤ BUFLEN && n ≤ (w.conn x.other).bufout.length && !(w.conn x).doomed

/-- What it does. -/
def react (w : Duplex P) : Traffic → Except Exn (Duplex P)
  | .sends x text =>
    .ok { w with conn := x.pair ((w.conn x).send text) (w.conn x.other),
                 sent := x.pair (w.sent x ++ [text]) (w.sent x.other) }
  | .reads x n envs =>
    let far := w.conn x.other
    ((w.conn x).read envs (far.bufout.take n)).map fun r =>
      { w with conn := x.pair r.1 { far with bufout := far.bufout.drop n },
               heard := x.pair (w.heard x ++ r.2) (w.heard x.other) }

/-- One event, `none` when it cannot happen or throws. -/
def step (w : Duplex P) (e : Traffic) : Option (Duplex P) :=
  if w.possible e then (w.react e).toOption else none

/-- Two ends before their applications have sent anything. -/
def start (conn : Side → CryptConnection P) : Duplex P := ⟨conn, fun _ => [], fun _ => []⟩

/-- Both have accepted, each reads in the cipher state the other writes in, nothing is in a
buffer, and neither is ending. -/
structure Matched (conn : Side → CryptConnection P) : Prop where
  inStep : ∀ x : Side, InStep (conn x) (conn x.other) []
  out : ∀ x, (conn x).out = []
  lively : ∀ x, (conn x).doomed = false ∧ (conn x).closing = false

/-! ## One direction -/

/-- The direction from `x`: the lines heard at the other end are those of the first texts
sent, and empty ones, and the other texts are on their way. -/
def Delivers (w : Duplex P) (x : Side) : Prop :=
  ∃ lines pending, Lib.Arrives [] (splitRecord []) (w.sent x) lines pending ∧
    w.heard x.other = lines.map .lineread ∧ InStep (w.conn x) (w.conn x.other) pending

/-- What holds between two events. -/
structure Lossless (limit : Side → Option Nat) (w : Duplex P) : Prop where
  delivers : ∀ x, w.Delivers x
  fits : ∀ x, ∀ t ∈ w.sent x, Fits (limit x.other) t
  out : ∀ x, (w.conn x).out = []
  lively : ∀ x, (w.conn x).doomed = false ∧ (w.conn x).closing = false
  limit : ∀ x, (w.conn x).maxpendsize = limit x

variable {limit : Side → Option Nat} {w w' : Duplex P}

theorem start_lossless {conn : Side → CryptConnection P} (h : Matched conn) :
    Lossless (fun x => (conn x).maxpendsize) (start conn) where
  delivers x := ⟨[], [], .done _, rfl, h.inStep x⟩
  fits _ _ ht := nomatch ht
  out := h.out
  lively := h.lively
  limit _ := rfl

/-- An application sends a text whose record fits. -/
theorem sends_lossless (h : Lossless limit w) (x : Side) {text : Bytes}
    (ht : Fits (limit x.other) text) :
    ∃ w', w.react (.sends x text) = .ok w' ∧ Lossless limit w' := by
  obtain ⟨lines, pending, harr, hheard, hstep⟩ := h.delivers x
  obtain ⟨lines', pending', harr', hheard', hstep'⟩ := h.delivers x.other
  obtain ⟨st, hout, -⟩ := id hstep
  have hsend := send_cipher hout (h.out x) text
  refine ⟨_, rfl, ⟨(x.forall_iff).mpr ⟨?_, ?_⟩, (x.forall_iff).mpr ⟨?_, ?_⟩,
    (x.forall_iff).mpr ⟨?_, ?_⟩, (x.forall_iff).mpr ⟨?_, ?_⟩, (x.forall_iff).mpr ⟨?_, ?_⟩⟩⟩
  · refine ⟨lines, pending ++ [text], ?_, hheard, ?_⟩
    · simpa using harr.append [text]
    · simpa using hstep.send (h.out x) text
  · refine ⟨lines', pending', by simpa using harr', hheard', ?_⟩
    rw [Side.other_other] at hstep' ⊢
    simp only [Side.pair_self, Side.pair_other, hsend]
    exact hstep'
  · simp only [Side.pair_self, List.forall_mem_append, List.forall_mem_singleton]
    exact ⟨h.fits x, ht⟩
  · simpa using h.fits x.other
  · simp [hsend]
  · simpa using h.out x.other
  · simpa [hsend] using h.lively x
  · simpa using h.lively x.other
  · simpa [hsend] using h.limit x
  · simpa using h.limit x.other

/-- A side reads a part of what the other has flushed. -/
theorem reads_lossless (h : Lossless limit w) (hundo : P.mcrypt.Undoes) (x : Side) (n : Nat)
    (envs : Nat → LineEnv) : ∃ w', w.react (.reads x n envs) = .ok w' ∧ Lossless limit w' := by
  obtain ⟨lines, pending, harr, hheard, hstep⟩ := h.delivers x.other
  obtain ⟨lines', pending', harr', hheard', hstep'⟩ := h.delivers x
  rw [Side.other_other] at hheard hstep
  have hfit : ∀ t ∈ pending, Fits (w.conn x).maxpendsize t := by
    intro t ht
    rw [h.limit x, ← x.other_other]
    exact h.fits x.other t (harr.suffix.subset ht)
  have hcut : InStep { w.conn x.other with
      bufout := (w.conn x.other).bufout.take n ++ (w.conn x.other).bufout.drop n } (w.conn x)
      pending := by
    rw [List.take_append_drop]
    exact hstep
  obtain ⟨bufin, td, more, rest, hmore, hnext, hread⟩ := read_arrives hundo hcut hfit
  refine ⟨_, by rw [react, hread envs]; rfl, ⟨(x.forall_iff).mpr ⟨?_, ?_⟩,
    (x.forall_iff).mpr ⟨?_, ?_⟩, (x.forall_iff).mpr ⟨?_, ?_⟩, (x.forall_iff).mpr ⟨?_, ?_⟩,
    (x.forall_iff).mpr ⟨?_, ?_⟩⟩⟩
  · refine ⟨lines', pending', harr', by simpa using hheard', ?_⟩
    simp only [Side.pair_self, Side.pair_other]
    exact hstep'
  · refine ⟨lines ++ more, rest, harr.trans hmore, ?_, ?_⟩
    · simp [hheard]
    · simp only [Side.other_other, Side.pair_self, Side.pair_other]
      exact hnext
  · exact h.fits x
  · exact h.fits x.other
  · simpa using h.out x
  · simpa using h.out x.other
  · simpa using h.lively x
  · simpa using h.lively x.other
  · simpa using h.limit x
  · simpa using h.limit x.other

/-- **Step lemma**: what is possible is done, and loses nothing. -/
theorem step_lossless (h : Lossless limit w) (hundo : P.mcrypt.Undoes) {e : Traffic}
    (he : ∀ x text, e = .sends x text → Fits (limit x.other) text) :
    ∃ w', w.react e = .ok w' ∧ Lossless limit w' := by
  cases e with
  | sends x text => exact sends_lossless h x (he x text rfl)
  | reads x n envs => exact reads_lossless h hundo x n envs

/-- **Run lemma**: nothing is lost in any interleaving of texts that fit and of reads. -/
theorem run_lossless (hundo : P.mcrypt.Undoes) {es : List Traffic}
    (hes : ∀ x text, .sends x text ∈ es → Fits (limit x.other) text) (h : Lossless limit w)
    (hrun : Lib.run step w es = some w') : Lossless limit w' := by
  refine Lib.Reaches.invariant (I := Lossless limit) ?_ h
    (Lib.stepsMeet_of_mem (P := fun _ e => e ∈ es) (fun e he _ => he) _) (.of_run hrun)
  intro w e w' hw he hstep
  obtain ⟨w'', hreact, hw''⟩ := step_lossless hw hundo fun x text h => hes x text (h ▸ he)
  unfold step at hstep
  split at hstep
  · rw [hreact] at hstep
    exact Option.some.inj hstep ▸ hw''
  · cases hstep

/-- What is heard of the texts sent, once what is on its way is told apart. -/
theorem Lossless.heard (h : Lossless limit w) (x : Side) :
    ∃ done pending lines, w.sent x = done ++ pending ∧ w.heard x.other = lines.map .lineread ∧
      (done.flatMap (splitRecord [])).Sublist lines ∧
      lines.filter (· ≠ []) = (done.flatMap (splitRecord [])).filter (· ≠ []) ∧
      ((w.conn x).bufout = [] → pending = [] ∧ (w.conn x.other).bufin = []) := by
  obtain ⟨lines, pending, harr, hheard, st, -, -, -, hway⟩ := h.delivers x
  obtain ⟨done, hsent, hsub, hfilter⟩ := harr.conserved
  refine ⟨done, pending, lines, hsent, hheard, hsub, hfilter, fun hempty => ?_⟩
  rw [hempty] at hway
  obtain ⟨hnil, hbufin⟩ := underway_nil hway
  have hlen := congrArg List.length hnil
  rw [records_length] at hlen
  exact ⟨List.eq_nil_of_length_eq_zero hlen, hbufin⟩

/-- What is possible does not throw. -/
theorem Lossless.returns (h : Lossless limit w) (hundo : P.mcrypt.Undoes) {x : Side} {n : Nat}
    {envs : Nat → LineEnv} (hpos : w.possible (.reads x n envs) = true) :
    (step w (.reads x n envs)).isSome = true := by
  obtain ⟨w', hreact, -⟩ := reads_lossless h hundo x n envs
  rw [step, if_pos hpos, hreact]
  rfl

/-! ## Behind a handshake -/

/-- The ends an honest handshake leaves, once no line of it is on its way. -/
theorem conn_of_quiescent {H : Parties} (ha : H.Honest P) (hread : Readable P H.K)
    {es : List Happening} {w : World P}
    (hrun : Lib.run (World.step H.draw)
      (World.start (H.before P .supplicant) (withKeyring P (some H.ring))) es = some w)
    (hq : w.Quiescent) (x : Side) : (w x).conn = H.held P x 4 [] := by
  have hrel := Parties.run_at ha hread es
  rw [hrun] at hrel
  obtain ⟨k, hw⟩ : ∃ k, H.At P w k := by
    generalize Lib.run Tally.step Tally.start es = r at hrel
    cases hrel with
    | some h => exact ⟨_, h⟩
  have hk := hw.quiescent_iff.mp hq
  have hall := Tally.received_all (fun y => (hk y).1) (fun y => (hk y).2.2) (fun y => (hk y).2.1) x
  rw [(hw x).conn, if_pos (hk x).1, hall, ← (hk x).2.2, Parties.lines_self]
  rfl

/-- They are in step, with the limit both programs set (qigong.cpp:208, qicollect.cpp:73). -/
theorem matched_held (H : Parties) :
    Matched fun x => (H.held P x 4 []).setmaxpendsize 4096 where
  inStep x := by
    refine ⟨H.cipher2 P x, ?_⟩
    cases x <;> exact ⟨rfl, rfl, rfl, .text (.inl rfl) noEol_nil rfl⟩
  out x := by cases x <;> rfl
  lively x := by cases x <;> exact ⟨rfl, rfl⟩

end Duplex

open Duplex

variable {P : Platform}

/-- **Nothing is lost in an honest session.** Let two ends shake hands, in any interleaving,
until no line of the handshake is on its way, and then send texts of 3071 bytes at most and
read what has arrived, in any interleaving and in parts of any size. Each side's application
is given the lines of the first texts the other has sent, in order, and besides them only
empty lines, of all the texts where nothing is in a buffer; neither end is closed or
destroyed, and whatever read is possible is returned from. -/
theorem session_lossless {H : Parties} (ha : H.Honest P) {c : CryptConnection P}
    (hc : withKey P (some H.K) = .ok c) {hs : List Happening} {w₀ : World P}
    (hshake : Lib.run (World.step H.draw) (World.start c (withKeyring P (some H.ring))) hs = some w₀)
    (hq : w₀.Quiescent) {es : List Traffic}
    (hes : ∀ x text, Traffic.sends x text ∈ es → text.length ≤ 3071) {w : Duplex P}
    (hrun : Lib.run Duplex.step (start fun x => (w₀ x).conn.setmaxpendsize 4096) es = some w)
    (x : Side) :
    (∃ done pending lines, w.sent x = done ++ pending ∧ w.heard x.other = lines.map .lineread ∧
      (done.flatMap (splitRecord [])).Sublist lines ∧
      lines.filter (· ≠ []) = (done.flatMap (splitRecord [])).filter (· ≠ []) ∧
      ((w.conn x).bufout = [] → pending = [] ∧ (w.conn x.other).bufin = [])) ∧
    (w.conn x).doomed = false ∧ (w.conn x).closing = false ∧
    ∀ n envs, w.possible (.reads x n envs) = true →
      (Duplex.step w (.reads x n envs)).isSome = true := by
  obtain ⟨hread, rfl⟩ := Parties.withKey_ok hc
  rw [funext fun x => congrArg (setmaxpendsize 4096) (conn_of_quiescent ha hread hshake hq x)]
    at hrun
  have hfits : ∀ x text, .sends x text ∈ es → Fits (some 4096) text := by
    intro x text h m hm
    rw [← Option.some.inj hm]
    exact (fits_iff _).mpr (hes x text h)
  have hinv := run_lossless ha.undoes hfits (start_lossless (matched_held H)) hrun
  exact ⟨hinv.heard x, (hinv.lively x).1, (hinv.lively x).2, fun n envs => hinv.returns ha.undoes⟩

/-- One side asks for the list, the other reads the record in two parts and sends a text in
between, of which a part is read. -/
def sampleTraffic : List Traffic :=
  [.sends .supplicant (str "list"), .reads .ring 3 fun _ => fairEnv [] [],
    .sends .ring (str "qigong."), .reads .ring 7 fun _ => fairEnv [] [],
    .reads .supplicant 5 fun _ => fairEnv [] []]

/-- Behind the sample handshake the text is heard, once its record is read. -/
theorem session_lossless_sample :
    ∃ w₀ w, Lib.run (World.step sampleParties.draw) (World.start sampleSupplicant
        (withKeyring samplePlatform (some sampleParties.ring))) sampleHandshake = some w₀ ∧
      Lib.run Duplex.step (start fun x => (w₀ x).conn.setmaxpendsize 4096) sampleTraffic = some w ∧
      (∃ lines : List Bytes, w.heard .ring = lines.map .lineread ∧
        lines.filter (· ≠ []) = [str "list"]) ∧
      (∀ x, (w.conn x).doomed = false ∧ (w.conn x).closing = false) ∧
      ∀ n envs, w.possible (.reads .supplicant n envs) = true →
        (Duplex.step w (.reads .supplicant n envs)).isSome = true := by
  obtain ⟨w₀, hshake, hq⟩ := sampleHandshake_completes sampleParties_honest (fun h => (nomatch h))
  have hes : ∀ x text, Traffic.sends x text ∈ sampleTraffic → text.length ≤ 3071 := by
    intro x text h
    rcases (show Traffic.sends x text = .sends .supplicant (str "list") ∨
        Traffic.sends x text = .sends .ring (str "qigong.") by simpa [sampleTraffic] using h) with
      h | h <;> cases h <;> decide
  -- the ends the handshake leaves
  have hstart : (fun x => (w₀ x).conn.setmaxpendsize 4096)
      = fun x => (sampleParties.held samplePlatform x 4 []).setmaxpendsize 4096 :=
    funext fun x => congrArg (setmaxpendsize 4096)
      (conn_of_quiescent sampleParties_honest (fun h => (nomatch h)) hshake hq x)
  have hany : (Lib.run Duplex.step
      (start fun x => (sampleParties.held samplePlatform x 4 []).setmaxpendsize 4096)
      sampleTraffic).any (fun w => decide (w.sent .supplicant = [str "list"] ∧
        (w.conn .supplicant).bufout = [])) = true := by
    decide +kernel
  obtain ⟨w, hrun, hw⟩ := (Option.any_eq_true _ _).mp hany
  obtain ⟨hsent, hempty⟩ := of_decide_eq_true hw
  rw [← hstart] at hrun
  have hall := fun x => session_lossless sampleParties_honest rfl hshake hq hes hrun x
  obtain ⟨⟨done, pending, lines, hdone, hheard, -, hfilter, hread⟩, -, -, hreads⟩ := hall .supplicant
  obtain ⟨rfl, -⟩ := hread hempty
  obtain rfl : done = [str "list"] := by
    rw [List.append_nil] at hdone
    exact hdone.symm.trans hsent
  exact ⟨w₀, w, hshake, hrun, ⟨lines, hheard, hfilter⟩, fun x => ⟨(hall x).2.1, (hall x).2.2.1⟩, hreads⟩

end Qigong.Crypt
