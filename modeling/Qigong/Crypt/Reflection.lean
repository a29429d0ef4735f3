import Qigong.Crypt.Handshake

/-!
# A peer without the key

A peer that does not hold the key can send back what the connection has emitted. The
connection refuses its own challenge as it went out ("got mirror challenge"), and no
other reflection:

- `tdin` and `tdout` start from one key and one IV, so that the two directions
  decrypt each other's output;
- in one-byte cipher feedback a line leaves `tdin` at the last 16 bytes it has seen,
  which the sender of the line chooses.

A reflected run is accepted exactly when its second line is the encryption of the
challenge from the register its first line leaves behind, the first not being the
challenge itself; and whatever the cipher, there are two lines cut out of the
connection's own output that do it (`reflected_accepted_iff`).
-/

namespace Qigong.Crypt

open ChallengeState

namespace CryptConnection

/-! ## Reflected runs -/

section Reflected

variable {P : Platform}

/-- One line is received; the events of the runs considered here are lines. -/
def hear (c : CryptConnection P) (ev : LineEnv × Bytes) : Option (CryptConnection P) :=
  c.step (.line ev.1 ev.2)

/-- The byte strings the connection has emitted, one for each record. -/
def emitted (c : CryptConnection P) : List Bytes :=
  (cutLines [] c.bufout).1.map fun l => (base64_decode l).2

/-- `x` is put together from slices of the byte strings `rs`. -/
def Assembled (rs : List Bytes) (x : Bytes) : Prop :=
  ∃ ps : List Bytes, x = ps.flatten ∧ ∀ p ∈ ps, ∃ r ∈ rs, p <:+: r

/-- Past the settling of the key, a line is the base64 of something assembled from what
the connection has emitted. -/
def Reflects (c : CryptConnection P) (ev : LineEnv × Bytes) : Prop :=
  c.challenging = WaitingChallenge ∨ c.challenging = WaitingAnswer →
    ∃ x, ev.2 = base64_encode x ∧ Assembled c.emitted x

/-- The run comes to a state that has accepted. -/
def Accepts (c : CryptConnection P) (es : List (LineEnv × Bytes)) : Prop :=
  ∃ t, Lib.Reaches hear c es t ∧ t.challenging = Accepted

theorem hear_eq_some_iff {c c' : CryptConnection P} {ev : LineEnv × Bytes} :
    c.hear ev = some c' ↔ ∃ cs, c.receive ev.1 ev.2 = .ok (c', cs) := by
  rw [hear, step_eq_some_iff]
  constructor
  · exact fun h => ⟨_, h⟩
  · rintro ⟨cs, h⟩
    have hcalls : c.calls (.line ev.1 ev.2) = cs := by
      simp only [calls, react, h]
    rw [hcalls]
    exact h

/-- A connection that nothing makes accept: it has refused, or it misses `tdin` past the
settling of the key. -/
def Deaf (c : CryptConnection P) : Prop :=
  c.challenging = Refused ∨
    (c.tdin = none ∧ (c.challenging = WaitingChallenge ∨ c.challenging = WaitingAnswer))

theorem deaf_step {c c' : CryptConnection P} {ev : LineEnv × Bytes} (h : c.Deaf)
    (hc : c.hear ev = some c') : c'.Deaf := by
  rcases h with h | ⟨htd, hs⟩
  · have hno : ∀ u, Event.line ev.1 ev.2 ≠ .opencrypt u := fun u he => Event.noConfusion he
    have hm := (react_step hno (step_eq_some_iff.mp hc)).1
    rw [h] at hm
    left
    generalize c'.challenging = s at hm
    cases hm with
    | stay => rfl
    | refuse => rfl
  · obtain ⟨cs, hr⟩ := hear_eq_some_iff.mp hc
    right
    rcases receive_cases hr with ⟨-, -, -, rfl, -⟩ | ⟨-, rfl, -⟩ | ⟨-, hearly, -⟩
    · rw [deciphered_challenging, deciphered_clear htd]
      exact ⟨htd, hs⟩
    · have hk := (flushandclose_keeps (c.deciphered ev.2).2.2).trans (schedule_keeps _)
      rw [hk.challenging, hk.tdin, deciphered_challenging, deciphered_clear htd]
      exact ⟨htd, hs⟩
    · rcases hs with hs | hs <;> simp [hs] at hearly <;> exact absurd htd hearly

theorem Deaf.not_accepts {c : CryptConnection P} (h : c.Deaf) (es : List (LineEnv × Bytes)) :
    ¬ c.Accepts es := by
  rintro ⟨t, ht, hacc⟩
  have hdeaf : t.Deaf := Lib.Reaches.invariant (P := fun _ _ => True) (I := Deaf)
    (fun s ev s' hs _ he => deaf_step hs he) h (Lib.stepsMeet_of_forall (fun _ _ => trivial) es c) ht
  rcases hdeaf with h | ⟨-, h | h⟩ <;> rw [hacc] at h <;> cases h

/-- Behind the settling of a key, `tdin` is as it was initialised. -/
theorem hear_settles {c c' : CryptConnection P} {ev : LineEnv × Bytes} (h : c.hear ev = some c')
    (hs : c.challenging ≠ WaitingChallenge) (hs' : c'.challenging = WaitingChallenge) :
    c'.tdin = none ∨ c'.tdin = some (P.mcrypt.generic_init c'.key c'.IVin) := by
  obtain ⟨cs, hr⟩ := hear_eq_some_iff.mp h
  have hd := deciphered_challenging c ev.2
  rcases receive_cases hr with ⟨-, -, -, rfl, -⟩ | ⟨-, rfl, -⟩ | ⟨-, -, htext⟩
  · exact absurd (hd.symm.trans hs') hs
  · exact absurd (hd.symm.trans ((flushandclose_challenging _).symm.trans hs')) hs
  · -- only the announced hash leads to the challenge
    rcases onText_cases htext with ⟨hw, rfl, -⟩ | ⟨hw, ho, -⟩ | ⟨hw, -, -⟩ | ⟨hw, ha⟩ |
      ⟨hw, rfl, -⟩ | ⟨hw, rfl, -⟩
    · have hm := onRemoteSalt_moves ev.1 (c.deciphered ev.2).2.1 hw
      rw [hw, hs'] at hm
      cases hm
    · rcases (onHash_cases ho).2 with ⟨-, rfl⟩ | ⟨k, d, -, -, rfl⟩
      · rw [flushandclose_challenging] at hs'
        cases hs'
      · obtain ⟨htd, hkey, hIV⟩ := reallycrypt_tdin ev.1.really d
        rw [← hkey, ← hIV] at htd
        exact htd
    · exact absurd (hd.symm.trans hw) hs
    · rcases onAnswer_cases (c.deciphered ev.2).2.2 (c.deciphered ev.2).2.1 with
        ⟨-, he⟩ | ⟨-, he⟩
      · obtain ⟨rfl, -⟩ := Prod.mk.inj (ha.trans he)
        cases hs'
      · obtain ⟨rfl, -⟩ := Prod.mk.inj (ha.trans he)
        rw [flushandclose_challenging] at hs'
        cases hs'
    · rw [flushandclose_challenging, hw] at hs'
      cases hs'
    · rw [hw] at hs'
      cases hs'

/-! ## What has been emitted -/

/-- `bufout` is made of whole records. -/
def Framed (c : CryptConnection P) : Prop :=
  ∃ lines, c.bufout = wire lines ∧ ∀ l ∈ lines, NoEol l

theorem emitted_of_wire {c : CryptConnection P} {lines : List Bytes} (h : c.bufout = wire lines)
    (hl : ∀ l ∈ lines, NoEol l) : c.emitted = lines.map fun l => (base64_decode l).2 := by
  rw [emitted, h, cutLines_wire hl]

/-- One more record. -/
theorem Framed.add {c c' : CryptConnection P} {line : Bytes} (h : c.Framed) (hline : NoEol line)
    (hb : c'.bufout = c.bufout ++ (line ++ recordEnd)) :
    c'.Framed ∧ c'.emitted = c.emitted ++ [(base64_decode line).2] := by
  obtain ⟨lines, hlines, hno⟩ := h
  have hwire : c'.bufout = wire (lines ++ [line]) := by
    rw [hb, hlines, wire, wire, List.flatMap_append, List.flatMap_singleton]
  have hno' : ∀ l ∈ lines ++ [line], NoEol l := by
    intro l hl
    rcases List.mem_append.mp hl with hl | hl
    · exact hno l hl
    · rw [List.mem_singleton.mp hl]
      exact hline
  refine ⟨⟨_, hwire, hno'⟩, ?_⟩
  rw [emitted_of_wire hwire hno', emitted_of_wire hlines hno, List.map_append, List.map_singleton]

/-- A connection as it is before its first session. -/
structure Fresh (c : CryptConnection P) : Prop where
  tdin : c.tdin = none
  tdout : c.tdout = none
  out : c.out = []
  bufout : c.bufout = []

/-- The calls made for a line succeed. -/
structure Obliging (env : LineEnv) : Prop where
  salt3 : (getsaltforurandom env.salt3 4).1 = true
  openIn : env.really.openIn = true
  initIn : env.really.initIn = true
  openOut : env.really.openOut = true
  initOut : env.really.initOut = true
  urandom : env.really.urandom.isSome = true

/-- Before a key is settled the connection has no ciphers and nothing unflushed. -/
structure Quiet (c : CryptConnection P) : Prop where
  early : c.challenging = WaitingRemoteSalt ∨ c.challenging = WaitingHash
  tdin : c.tdin = none
  tdout : c.tdout = none
  out : c.out = []
  framed : c.Framed

/-- Right after a key is settled: both ciphers are as initialised with one IV, `tdout`
having encrypted the challenge. -/
structure Ready (c : CryptConnection P) : Prop where
  waiting : c.challenging = WaitingChallenge
  length : c.challenge.length = 64
  IVlength : c.IVin.length = P.mcrypt.enc_get_iv_size
  tdin : c.tdin = some (P.mcrypt.generic_init c.key c.IVin)
  tdout : c.tdout = some (cipherAfter (P.mcrypt.generic_init c.key c.IVin) c.challenge)
  out : c.out = []
  framed : c.Framed
  sent : (base64_decode (cipherRecord (P.mcrypt.generic_init c.key c.IVin) c.challenge)).2
    ∈ c.emitted

theorem Fresh.opencrypt {c : CryptConnection P} (h : c.Fresh) {urandom : Urandom}
    (hu : (getsaltforurandom urandom 4).1 = true) : (c.opencrypt urandom).Quiet := by
  have heq := opencrypt_eq h.tdout h.out (Prod.ext hu rfl :
    getsaltforurandom urandom 4 = (true, (getsaltforurandom urandom 4).2))
  rw [heq]
  exact ⟨.inl rfl, h.tdin, h.tdout, h.out, (Framed.add ⟨[], h.bufout, fun _ hl => (nomatch hl)⟩
    (noEol_base64_encode _) rfl).1⟩

/-- Closing a quiet connection leaves it quiet, but for its state. -/
theorem Quiet.flushandclose {c : CryptConnection P} (h : c.Quiet) : c.flushandclose.Quiet := by
  cases hflush : P.closeFlushes with
  | false =>
    have heq : c.flushandclose = { c with closing := true } := by
      simp [CryptConnection.flushandclose, hflush]
    rw [heq]
    exact ⟨h.early, h.tdin, h.tdout, h.out, h.framed⟩
  | true =>
    have heq : c.flushandclose = { c.flush with closing := true } := by
      simp [CryptConnection.flushandclose, hflush]
    rw [heq, flush_clear h.tdout h.early]
    exact ⟨h.early, h.tdin, h.tdout, rfl, (h.framed.add (noEol_base64_encode _) rfl).1⟩

/-- A key settled on a quiet connection, with every call succeeding. -/
theorem Quiet.settled {c : CryptConnection P} (h : c.Quiet) {k : QiCrKey}
    (hIV : k.IV.length = P.mcrypt.enc_get_iv_size) {challenge : Bytes}
    (hlen : challenge.length = 64) : (c.settled k challenge).Ready := by
  have hput : (c.settled k challenge).bufout = c.bufout
      ++ (cipherRecord (P.mcrypt.generic_init k.key k.IV) challenge ++ recordEnd) := rfl
  obtain ⟨hframed, hsent⟩ := h.framed.add (noEol_cipherRecord _ _) hput
  refine ⟨rfl, hlen, hIV, rfl, rfl, rfl, hframed, ?_⟩
  rw [hsent]
  exact List.mem_append_right _ (List.mem_singleton_self _)

/-- **Step lemma**: a line received by a quiet connection leaves it quiet, makes it
ready, or makes it deaf. -/
theorem Quiet.hear {c c' : CryptConnection P} {ev : LineEnv × Bytes} (h : c.Quiet)
    (henv : Obliging ev.1) (hc : c.hear ev = some c') : c'.Quiet ∨ c'.Ready ∨ c'.Deaf := by
  obtain ⟨cs, hr⟩ := hear_eq_some_iff.mp hc
  have hquiet : (c.deciphered ev.2).2.2.Quiet := by
    rw [deciphered_clear h.tdin]
    exact ⟨h.early, h.tdin, h.tdout, h.out, h.framed⟩
  rcases receive_cases hr with ⟨-, hne, hne', -, -⟩ | ⟨-, rfl, -⟩ | ⟨-, -, htext⟩
  · exact absurd h.early (not_or.mpr ⟨hne, hne'⟩)
  · have hq := hquiet.flushandclose
    exact .inl ⟨hq.early, hq.tdin, hq.tdout, hq.out, hq.framed⟩
  · generalize (c.deciphered ev.2).2.2 = d at hquiet htext
    generalize (c.deciphered ev.2).2.1 = temp at htext
    rcases onText_cases htext with ⟨hs, rfl, -⟩ | ⟨hs, ho, -⟩ | ⟨hs, -⟩ | ⟨hs, -⟩ | ⟨hs, -⟩ |
      ⟨hs, -⟩
    · unfold onRemoteSalt
      dsimp only
      rw [if_neg (by rw [henv.salt3]; decide)]
      cases gen2sk P.mhash 8 temp (getsaltforurandom ev.1.salt3 4).2 d.keyID with
      | none => exact .inr (.inr (.inl (flushandclose_challenging _)))
      | some hash =>
        dsimp only
        rw [flush_clear (by exact hquiet.tdout) (.inl (by exact hs))]
        refine .inl ⟨.inr rfl, hquiet.tdin, hquiet.tdout, rfl, ?_⟩
        exact (hquiet.framed.add (noEol_base64_encode _) rfl).1
    · rcases (onHash_cases ho).2 with ⟨-, rfl⟩ | ⟨k, e, -, hset, rfl⟩
      · exact .inr (.inr (.inl (flushandclose_challenging _)))
      · obtain ⟨stream, hstream⟩ := Option.isSome_iff_exists.mp henv.urandom
        -- an initial vector of another size leaves it without `tdin`
        by_cases hIV : k.IV.length = P.mcrypt.enc_get_iv_size
        · rw [settled_eq hset hquiet.out ⟨henv.openIn, hIV, henv.initIn⟩
            ⟨henv.openOut, hIV, henv.initOut⟩ hstream]
          exact .inr (.inl (hquiet.settled hIV (drawChallenge_length 64 stream)))
        · have hIVin : e.IVin = k.IV := by rw [settlekey_eq hset]
          rw [reallycrypt_of_not_readyIn (fun hin => hIV (hIVin ▸ hin.2.1))]
          exact .inr (.inr (.inr ⟨flushandclose_tdin _, .inl rfl⟩))
    all_goals
      have hearly := hquiet.early
      simp [hs] at hearly

end Reflected

/-! ## Two lines under cipher feedback -/

section Cfb

variable {F : Bytes → Bytes → UInt8} {H : Mhash} {debugcrypt closeFlushes : Bool}

/-- The ciphertext of a text from a register. -/
def cfbText (F : Bytes → Bytes → UInt8) (key reg text : Bytes) : Bytes :=
  (Lib.cfbEncrypt (· ^^^ ·) (F key) reg text).1

variable {c : CryptConnection (cfbPlatform F H debugcrypt closeFlushes)}

/-- A line of base64 under a register: it decrypts to the text of which it is the
ciphertext, and leaves the register at the latest bytes it has seen. -/
theorem deciphered_cfb {key reg : Bytes} (h : c.tdin = some (key, reg)) (x : Bytes) :
    c.deciphered (base64_encode x)
      = (0, (Lib.cfbDecrypt (· ^^^ ·) (F key) reg x).1,
        { c with bufin := [], tdin := some (key, (reg ++ x).drop x.length) }) := by
  have hdec : (Lib.cfb (· ^^^ ·) F).decryptChunks (key, reg) (Lib.chunks bufsize x) = _ :=
    Lib.cfb_decryptChunks key reg _
  rw [Lib.chunks_flatten bufsize_pos, Lib.cfbDecrypt_register] at hdec
  exact deciphered_of_decrypt h (base64_decode_encode x) hdec

theorem cfbDecrypt_eq_iff {key reg x text : Bytes} :
    (Lib.cfbDecrypt (· ^^^ ·) (F key) reg x).1 = text ↔ x = cfbText F key reg text :=
  Lib.cfbDecrypt_eq_iff xor_xor_cancel

/-- The first line: our own challenge is refused, anything else is echoed. -/
theorem hear_challenge {key reg : Bytes} (hs : c.challenging = WaitingChallenge)
    (htd : c.tdin = some (key, reg)) (env : LineEnv) (x : Bytes) :
    (x = cfbText F key reg c.challenge → ∃ c', c.hear (env, base64_encode x) = some c' ∧
      c'.challenging = Refused) ∧
    (x ≠ cfbText F key reg c.challenge → ∃ c', c.hear (env, base64_encode x) = some c' ∧
      c'.challenging = WaitingAnswer ∧ c'.tdin = some (key, (reg ++ x).drop x.length) ∧
      c'.challenge = c.challenge) := by
  have hd := deciphered_cfb htd x
  constructor
  · intro hx
    rw [cfbDecrypt_eq_iff.mpr hx] at hd
    exact ⟨_, hear_eq_some_iff.mpr ⟨_, receive_mirror hs hd⟩, flushandclose_challenging _⟩
  · intro hx
    have hne : (Lib.cfbDecrypt (· ^^^ ·) (F key) reg x).1 ≠ c.challenge := fun h =>
      hx (cfbDecrypt_eq_iff.mp h)
    have hr : c.receive env (base64_encode x) = _ :=
      (receive_of_deciphered hd (.inl rfl)).trans (onText_challenge (by exact hs))
    rw [onChallenge, if_neg (by exact hne)] at hr
    have hk := (write_keeps _ (Lib.cfbDecrypt (· ^^^ ·) (F key) reg x).1).trans
      (flush_keeps (write { c with bufin := [], tdin := some (key, (reg ++ x).drop x.length) }
        (Lib.cfbDecrypt (· ^^^ ·) (F key) reg x).1))
    exact ⟨_, hear_eq_some_iff.mpr ⟨_, hr⟩, rfl, hk.tdin, hk.challenge⟩

/-- The second line: the ciphertext of our challenge is accepted, anything else is
refused. -/
theorem hear_answer {key reg : Bytes} (hs : c.challenging = WaitingAnswer)
    (htd : c.tdin = some (key, reg)) (env : LineEnv) (x : Bytes) :
    (x = cfbText F key reg c.challenge → ∃ c', c.hear (env, base64_encode x) = some c' ∧
      c'.challenging = Accepted) ∧
    (x ≠ cfbText F key reg c.challenge → ∃ c', c.hear (env, base64_encode x) = some c' ∧
      c'.challenging = Refused) := by
  have hd := deciphered_cfb htd x
  constructor
  · intro hx
    rw [cfbDecrypt_eq_iff.mpr hx] at hd
    exact ⟨_, hear_eq_some_iff.mpr ⟨_, receive_answer hs hd⟩, rfl⟩
  · intro hx
    have hne : (Lib.cfbDecrypt (· ^^^ ·) (F key) reg x).1 ≠ c.challenge := fun h =>
      hx (cfbDecrypt_eq_iff.mp h)
    exact ⟨_, hear_eq_some_iff.mpr ⟨_, receive_wrong_answer hs hd hne⟩,
      flushandclose_challenging _⟩

/-! ## Which reflected runs are accepted -/

/-- Of the two lines of a run that follow the settling of the key, the first is not our
challenge as it went out, and the second is the ciphertext of the challenge from the
register the first leaves behind. -/
def EncryptsChallenge (c : CryptConnection (cfbPlatform F H debugcrypt closeFlushes))
    (es : List (LineEnv × Bytes)) : Prop :=
  ∃ pre env₁ x env₂ y post s,
    es = pre ++ (env₁, base64_encode x) :: (env₂, base64_encode y) :: post ∧
    Lib.run hear c pre = some s ∧ s.challenging = WaitingChallenge ∧ s.tdin.isSome = true ∧
    x ≠ cfbText F s.key s.IVin s.challenge ∧
    y = cfbText F s.key ((s.IVin ++ x).drop x.length) s.challenge

/-- A run from where the key is settled. -/
theorem accepts_from_challenge (hs : c.challenging = WaitingChallenge)
    (htd : c.tdin = some (c.key, c.IVin)) {es : List (LineEnv × Bytes)}
    (hmeet : Lib.StepsMeet hear Reflects c es) :
    c.Accepts es ↔ ∃ env₁ x env₂ y post,
      es = (env₁, base64_encode x) :: (env₂, base64_encode y) :: post ∧
      x ≠ cfbText F c.key c.IVin c.challenge ∧
      y = cfbText F c.key ((c.IVin ++ x).drop x.length) c.challenge := by
  constructor
  · rintro ⟨t, ht, hacc⟩
    cases es with
    | nil =>
      rw [Lib.reaches_nil_iff.mp ht, hs] at hacc
      cases hacc
    | cons ev es =>
      obtain ⟨env₁, line₁⟩ := ev
      rcases Lib.reaches_cons_iff.mp ht with rfl | ⟨d, hd, ht₁⟩
      · rw [hs] at hacc
        cases hacc
      obtain ⟨x, hx, -⟩ := hmeet.1 (.inl hs)
      obtain rfl : line₁ = base64_encode x := hx
      -- its own challenge sent back is seen, and refused
      by_cases hmirror : x = cfbText F c.key c.IVin c.challenge
      · obtain ⟨d', hd', href⟩ := (hear_challenge hs htd env₁ x).1 hmirror
        obtain rfl := Option.some.inj (hd.symm.trans hd')
        exact absurd ⟨t, ht₁, hacc⟩ (Deaf.not_accepts (.inl href) es)
      obtain ⟨d', hd', hwait, htd', hch⟩ := (hear_challenge hs htd env₁ x).2 hmirror
      obtain rfl := Option.some.inj (hd.symm.trans hd')
      cases es with
      | nil =>
        rw [Lib.reaches_nil_iff.mp ht₁, hwait] at hacc
        cases hacc
      | cons ev es =>
        obtain ⟨env₂, line₂⟩ := ev
        rcases Lib.reaches_cons_iff.mp ht₁ with rfl | ⟨e, he, ht₂⟩
        · rw [hwait] at hacc
          cases hacc
        obtain ⟨y, hy, -⟩ := (hmeet.2 d hd).1 (.inr hwait)
        obtain rfl : line₂ = base64_encode y := hy
        -- any answer but its own challenge is refused
        by_cases hanswer : y = cfbText F c.key ((c.IVin ++ x).drop x.length) d.challenge
        · exact ⟨env₁, x, env₂, y, es, rfl, hmirror, hch ▸ hanswer⟩
        · obtain ⟨e', he', href⟩ := (hear_answer hwait htd' env₂ y).2 hanswer
          obtain rfl := Option.some.inj (he.symm.trans he')
          exact absurd ⟨t, ht₂, hacc⟩ (Deaf.not_accepts (.inl href) es)
  · rintro ⟨env₁, x, env₂, y, post, rfl, hx, hy⟩
    obtain ⟨d, hd, hwait, htd', hch⟩ := (hear_challenge hs htd env₁ x).2 hx
    obtain ⟨e, he, hacc⟩ := (hear_answer hwait htd' env₂ y).1 (hch ▸ hy)
    exact ⟨e, Lib.reaches_cons_iff.mpr (.inr ⟨d, hd, Lib.reaches_cons_iff.mpr
      (.inr ⟨e, he, .refl e post⟩)⟩), hacc⟩

/-- A run that accepts goes through a state in which the key has just been settled and
`tdin` initialised. -/
theorem accepts_from_early {es : List (LineEnv × Bytes)} :
    ∀ {c : CryptConnection (cfbPlatform F H debugcrypt closeFlushes)},
      c.challenging = WaitingRemoteSalt ∨ c.challenging = WaitingHash → c.Accepts es →
      ∃ pre post s, es = pre ++ post ∧ Lib.run hear c pre = some s ∧
        s.challenging = WaitingChallenge ∧ s.tdin = some (s.key, s.IVin) ∧ s.Accepts post := by
  induction es with
  | nil =>
    rintro c hs ⟨t, ht, hacc⟩
    rw [Lib.reaches_nil_iff.mp ht] at hacc
    rcases hs with hs | hs <;> rw [hacc] at hs <;> cases hs
  | cons ev es ih =>
    rintro c hs ⟨t, ht, hacc⟩
    rcases Lib.reaches_cons_iff.mp ht with rfl | ⟨d, hd, ht₁⟩
    · rcases hs with hs | hs <;> rw [hacc] at hs <;> cases hs
    have hmoves : Moves c.challenging d.challenging :=
      (react_step (fun u he => Event.noConfusion he) (step_eq_some_iff.mp hd)).1
    have hnext : d.challenging = WaitingRemoteSalt ∨ d.challenging = WaitingHash ∨
        d.challenging = WaitingChallenge ∨ d.challenging = Refused := by
      generalize d.challenging = s' at hmoves
      rcases hs with hs | hs <;> rw [hs] at hmoves <;> cases hmoves <;> simp
    -- two moves lead on, one settles the key, and one refuses
    rcases hnext with hnext | hnext | hnext | hnext
    · obtain ⟨pre, post, s, rfl, hrun, h⟩ := ih (.inl hnext) ⟨t, ht₁, hacc⟩
      exact ⟨ev :: pre, post, s, rfl, (Lib.run_cons_some hd pre).trans hrun, h⟩
    · obtain ⟨pre, post, s, rfl, hrun, h⟩ := ih (.inr hnext) ⟨t, ht₁, hacc⟩
      exact ⟨ev :: pre, post, s, rfl, (Lib.run_cons_some hd pre).trans hrun, h⟩
    · have hne : c.challenging ≠ WaitingChallenge := by
        rcases hs with hs | hs <;> rw [hs] <;> decide
      rcases hear_settles hd hne hnext with hnone | htd
      · exact absurd ⟨t, ht₁, hacc⟩ (Deaf.not_accepts (.inr ⟨hnone, .inl hnext⟩) es)
      · exact ⟨[ev], es, d, rfl, (Lib.run_cons_some hd []).trans rfl, hnext, htd, t, ht₁, hacc⟩
    · exact absurd ⟨t, ht₁, hacc⟩ (Deaf.not_accepts (.inl hnext) es)

/-- Along a reflected run, `tdin` is as it was initialised while the challenge of the
peer is awaited. -/
theorem tdin_of_waitingChallenge {es : List (LineEnv × Bytes)}
    {s : CryptConnection (cfbPlatform F H debugcrypt closeFlushes)}
    (hc : c.challenging = WaitingRemoteSalt) (hmeet : Lib.StepsMeet hear Reflects c es)
    (hrun : Lib.run hear c es = some s) (hs : s.challenging = WaitingChallenge) :
    s.tdin = none ∨ s.tdin = some (s.key, s.IVin) := by
  refine Lib.Reaches.invariant (P := Reflects) (I := fun s => s.challenging = WaitingChallenge →
    s.tdin = none ∨ s.tdin = some (s.key, s.IVin)) ?_ ?_ hmeet (.of_run hrun) hs
  · rintro s ⟨env, line⟩ s' hinv hreflects hstep hs'
    by_cases hne : s.challenging = WaitingChallenge
    · -- a line that is acted on leaves the state
      rcases hinv hne with hnone | htd
      · rcases deaf_step (.inr ⟨hnone, .inl hne⟩) hstep with h | ⟨h, -⟩
        · rw [hs'] at h
          cases h
        · exact .inl h
      · obtain ⟨x, hx, -⟩ := hreflects (.inl hne)
        obtain rfl : line = base64_encode x := hx
        by_cases hmirror : x = cfbText F s.key s.IVin s.challenge
        · obtain ⟨d, hd, href⟩ := (hear_challenge hne htd env x).1 hmirror
          rw [← Option.some.inj (hstep.symm.trans hd), hs'] at href
          cases href
        · obtain ⟨d, hd, hwait, -⟩ := (hear_challenge hne htd env x).2 hmirror
          rw [← Option.some.inj (hstep.symm.trans hd), hs'] at hwait
          cases hwait
    · exact hear_settles hstep hne hs'
  · intro hs
    rw [hc] at hs
    cases hs

theorem accepts_iff (urandom : Urandom) {es : List (LineEnv × Bytes)}
    (hmeet : Lib.StepsMeet hear Reflects (c.opencrypt urandom) es) :
    (c.opencrypt urandom).Accepts es ↔ (c.opencrypt urandom).EncryptsChallenge es := by
  have hstart : (c.opencrypt urandom).challenging = WaitingRemoteSalt := flush_challenging _
  constructor
  · intro h
    obtain ⟨pre, post, s, rfl, hrun, hs, htd, hacc⟩ := accepts_from_early (.inl hstart) h
    have hmeet' := ((Lib.stepsMeet_append hrun _).mp hmeet).2
    obtain ⟨env₁, x, env₂, y, post', rfl, hx, hy⟩ := (accepts_from_challenge hs htd hmeet').mp hacc
    exact ⟨pre, env₁, x, env₂, y, post', s, rfl, hrun, hs, by rw [htd]; rfl, hx, hy⟩
  · rintro ⟨pre, env₁, x, env₂, y, post, s, rfl, hrun, hs, htd, hx, hy⟩
    obtain ⟨hpre, hpost⟩ := (Lib.stepsMeet_append hrun _).mp hmeet
    rcases tdin_of_waitingChallenge hstart hpre hrun hs with hnone | htd'
    · rw [hnone] at htd
      cases htd
    · obtain ⟨t, ht, hacc⟩ := (accepts_from_challenge hs htd' hpost).mpr
        ⟨env₁, x, env₂, y, post, rfl, hx, hy⟩
      exact ⟨t, ht.append hrun, hacc⟩

/-! ## The attack -/

/-- Along a reflected run whose calls succeed, a connection that awaits the peer's
challenge, and has `tdin`, is ready. -/
theorem ready_of_waitingChallenge (hc : c.Fresh) {urandom : Urandom}
    (hu : (getsaltforurandom urandom 4).1 = true) {es : List (LineEnv × Bytes)}
    {s : CryptConnection (cfbPlatform F H debugcrypt closeFlushes)}
    (henv : ∀ ev ∈ es, Obliging ev.1) (hmeet : Lib.StepsMeet hear Reflects (c.opencrypt urandom) es)
    (hrun : Lib.run hear (c.opencrypt urandom) es = some s)
    (hs : s.challenging = WaitingChallenge) (htd : s.tdin.isSome = true) : s.Ready := by
  have hinv : s.Quiet ∨ s.Ready ∨ s.Deaf ∨ s.challenging = WaitingAnswer ∨
      s.challenging = Accepted := by
    refine Lib.Reaches.invariant (P := fun s ev => Reflects s ev ∧ Obliging ev.1)
      (I := fun s => s.Quiet ∨ s.Ready ∨ s.Deaf ∨ s.challenging = WaitingAnswer ∨
        s.challenging = Accepted) ?_ (.inl (hc.opencrypt hu))
      (hmeet.and (Lib.stepsMeet_of_mem (fun ev h _ => henv ev h) _)) (.of_run hrun)
    rintro d ⟨env, line⟩ d' (h | h | h | h) ⟨hreflects, hgood⟩ hd
    · rcases h.hear hgood hd with h | h | h
      · exact .inl h
      · exact .inr (.inl h)
      · exact .inr (.inr (.inl h))
    · -- the peer's challenge
      obtain ⟨x, hx, -⟩ := hreflects (.inl h.waiting)
      obtain rfl : line = base64_encode x := hx
      by_cases hmirror : x = cfbText F d.key d.IVin d.challenge
      · obtain ⟨e, he, href⟩ := (hear_challenge h.waiting h.tdin env x).1 hmirror
        obtain rfl := Option.some.inj (hd.symm.trans he)
        exact .inr (.inr (.inl (.inl href)))
      · obtain ⟨e, he, hwait, -⟩ := (hear_challenge h.waiting h.tdin env x).2 hmirror
        obtain rfl := Option.some.inj (hd.symm.trans he)
        exact .inr (.inr (.inr (.inl hwait)))
    · exact .inr (.inr (.inl (deaf_step h hd)))
    · have hm : Moves d.challenging d'.challenging :=
        (react_step (fun u he => Event.noConfusion he) (step_eq_some_iff.mp hd)).1
      have hnext : d'.challenging = WaitingAnswer ∨ d'.challenging = Accepted ∨
          d'.challenging = Refused := by
        generalize d'.challenging = t at hm
        rcases h with h | h <;> rw [h] at hm <;> cases hm <;> simp
      rcases hnext with h | h | h
      · exact .inr (.inr (.inr (.inl h)))
      · exact .inr (.inr (.inr (.inr h)))
      · exact .inr (.inr (.inl (.inl h)))
  rcases hinv with h | h | (h | ⟨h, -⟩) | h | h
  · have := h.early
    simp [hs] at this
  · exact h
  · rw [hs] at h
    cases h
  · rw [h] at htd
    cases htd
  · rw [hs] at h
    cases h
  · rw [hs] at h
    cases h

/-- The raw bytes of a record under cipher feedback. -/
theorem decode_cipherRecord (key reg text : Bytes) :
    (base64_decode (cipherRecord (P := cfbPlatform F H debugcrypt closeFlushes) (key, reg) text)).2
      = cfbText F key reg text := by
  have henc : ((Lib.cfb (· ^^^ ·) F).encryptChunks (key, reg) (Lib.chunks bufsize text)).1.flatten
      = _ := (Lib.cfb_encryptChunks key reg _).1
  rw [Lib.chunks_flatten bufsize_pos] at henc
  exact (congrArg Prod.snd (base64_decode_pieces _)).trans henc

/-- The register behind a record. -/
theorem cipherAfter_cfb (key reg text : Bytes) :
    cipherAfter (P := cfbPlatform F H debugcrypt closeFlushes) (key, reg) text
      = (key, (reg ++ cfbText F key reg text).drop text.length) := by
  have henc : ((Lib.cfb (· ^^^ ·) F).encryptChunks (key, reg) (Lib.chunks bufsize text)).2 = _ :=
    (Lib.cfb_encryptChunks key reg _).2
  rw [Lib.chunks_flatten bufsize_pos, Lib.cfbEncrypt_register] at henc
  exact henc

theorem cfbText_append (key reg text more : Bytes) :
    ∃ rest, cfbText F key reg (text ++ more) = cfbText F key reg text ++ rest :=
  ⟨_, congrArg Prod.fst (Lib.cfbEncrypt_append reg text more)⟩

theorem cfbText_length (key reg text : Bytes) : (cfbText F key reg text).length = text.length :=
  Lib.cfbEncrypt_length reg text

/-- **The attack**: a ready connection is sent the ciphertext of its challenge with the
last 16 bytes of it repeated. Both registers then stand at these bytes, and the first
64 bytes of the echo, sent back, decrypt to the challenge. -/
theorem Ready.attack (h : c.Ready) :
    ∃ x y : Bytes, x ≠ [] ∧ ∀ env₁ env₂,
      Lib.StepsMeet hear Reflects c [(env₁, base64_encode x), (env₂, base64_encode y)] ∧
      ∃ t, Lib.run hear c [(env₁, base64_encode x), (env₂, base64_encode y)] = some t ∧
        t.challenging = Accepted := by
  -- the ciphertext of the challenge, and its last 16 bytes
  obtain ⟨C, hC⟩ : ∃ C, C = cfbText F c.key c.IVin c.challenge := ⟨_, rfl⟩
  obtain ⟨R, hR⟩ : ∃ R, R = C.drop 48 := ⟨_, rfl⟩
  have hIV : c.IVin.length = 16 := h.IVlength
  have hClen : C.length = 64 := by rw [hC, cfbText_length, h.length]
  have hRlen : R.length = 16 := by rw [hR, List.length_drop, hClen]
  have hsent : C ∈ c.emitted := by
    have := h.sent
    rw [show (cfbPlatform F H debugcrypt closeFlushes).mcrypt.generic_init c.key c.IVin
      = (c.key, c.IVin) from rfl, decode_cipherRecord, ← hC] at this
    exact this
  have hout : c.tdout = some (c.key, R) := by
    have := h.tdout
    rw [show (cfbPlatform F H debugcrypt closeFlushes).mcrypt.generic_init c.key c.IVin
      = (c.key, c.IVin) from rfl, cipherAfter_cfb, ← hC, h.length] at this
    rw [this, hR, List.drop_append, hIV, List.drop_eq_nil_of_le (by omega), List.nil_append]
    rfl
  -- the first line decrypts to the challenge with something behind it
  obtain ⟨X, hX, hXlen⟩ : ∃ X, (Lib.cfbDecrypt (· ^^^ ·) (F c.key) c.IVin (C ++ R)).1
      = c.challenge ++ X ∧ X.length = 16 := by
    rw [Lib.cfbDecrypt_append, cfbDecrypt_eq_iff.mpr hC]
    exact ⟨_, rfl, (Lib.cfbDecrypt_length _ _).trans hRlen⟩
  have hreg : (c.IVin ++ (C ++ R)).drop (C ++ R).length = R := by
    have hlen : (C ++ R).length = (c.IVin ++ C).length := by
      simp only [List.length_append, hIV, hClen, hRlen]
    rw [hlen, ← List.append_assoc, List.drop_left]
  have hd := deciphered_cfb h.tdin (C ++ R)
  rw [hX, hreg] at hd
  have hne : c.challenge ++ X ≠ c.challenge := by
    intro he
    have := congrArg List.length he
    rw [List.length_append, hXlen] at this
    omega
  refine ⟨C ++ R, cfbText F c.key R c.challenge, ?_, fun env₁ env₂ => ?_⟩
  · intro hnil
    rw [(List.append_eq_nil_iff.mp hnil).1] at hClen
    cases hClen
  obtain ⟨d, hd', hdwait, hdtd, hdch, hdout⟩ : ∃ d, c.hear (env₁, base64_encode (C ++ R)) = some d ∧
      d.challenging = WaitingAnswer ∧ d.tdin = some (c.key, R) ∧ d.challenge = c.challenge ∧
      d.bufout = c.bufout
        ++ (cipherRecord (P := cfbPlatform F H debugcrypt closeFlushes) (c.key, R)
          (c.challenge ++ X) ++ recordEnd) :=
    ⟨_, hear_eq_some_iff.mpr ⟨_, receive_challenge h.waiting hout h.out hd hne⟩, rfl, rfl, rfl, rfl⟩
  have hemitted := (h.framed.add (noEol_cipherRecord _ _) hdout).2
  rw [decode_cipherRecord] at hemitted
  obtain ⟨t, ht, hacc⟩ := (hear_answer hdwait hdtd env₂ (cfbText F c.key R c.challenge)).1
    (by rw [hdch])
  refine ⟨⟨fun _ => ⟨_, rfl, [C, R], by simp, ?_⟩, fun d' hd'' => ⟨fun _ => ?_, fun _ _ => trivial⟩⟩,
    t, ?_, hacc⟩
  · intro p hp
    rcases List.mem_cons.mp hp with rfl | hp
    · exact ⟨p, hsent, List.infix_rfl⟩
    · rw [List.mem_singleton.mp hp, hR]
      exact ⟨C, hsent, (List.drop_suffix 48 C).isInfix⟩
  · obtain rfl := Option.some.inj (hd'.symm.trans hd'')
    obtain ⟨rest, hrest⟩ := cfbText_append (F := F) c.key R c.challenge X
    refine ⟨_, rfl, [cfbText F c.key R c.challenge], by simp, fun p hp => ?_⟩
    rw [List.mem_singleton.mp hp]
    refine ⟨cfbText F c.key R (c.challenge ++ X), ?_, ?_⟩
    · rw [hemitted]
      exact List.mem_append_right _ (List.mem_singleton_self _)
    · rw [hrest]
      exact (List.prefix_append _ _).isInfix
  · rw [Lib.run_cons_some hd', Lib.run_cons_some ht]
    rfl

/-- **Which reflected runs are accepted**: those whose second line is the ciphertext of
the challenge from the register the first line leaves, the first line not being the
challenge as it went out; and every connection that gets to await the peer's
challenge can be sent two such lines. -/
theorem reflected_accepted_iff (hc : c.Fresh) {urandom : Urandom}
    (hu : (getsaltforurandom urandom 4).1 = true) :
    (∀ es, Lib.StepsMeet hear Reflects (c.opencrypt urandom) es →
      ((c.opencrypt urandom).Accepts es ↔ (c.opencrypt urandom).EncryptsChallenge es)) ∧
    ∀ es s, (∀ ev ∈ es, Obliging ev.1) → Lib.StepsMeet hear Reflects (c.opencrypt urandom) es →
      Lib.run hear (c.opencrypt urandom) es = some s → s.challenging = WaitingChallenge →
      s.tdin.isSome = true →
      ∃ x y : Bytes, x ≠ [] ∧ ∀ env₁ env₂,
        Lib.StepsMeet hear Reflects (c.opencrypt urandom)
          (es ++ [(env₁, base64_encode x), (env₂, base64_encode y)]) ∧
        (c.opencrypt urandom).Accepts (es ++ [(env₁, base64_encode x), (env₂, base64_encode y)]) := by
  refine ⟨fun es hmeet => accepts_iff urandom hmeet, fun es s henv hmeet hrun hs htd => ?_⟩
  have hready := ready_of_waitingChallenge hc hu henv hmeet hrun hs htd
  obtain ⟨x, y, hx, hxy⟩ := hready.attack
  refine ⟨x, y, hx, fun env₁ env₂ => ?_⟩
  obtain ⟨hmeet', t, ht, hacc⟩ := hxy env₁ env₂
  exact ⟨(Lib.stepsMeet_append hrun _).mpr ⟨hmeet, hmeet'⟩, t, (Lib.Reaches.of_run ht).append hrun,
    hacc⟩

end Cfb

/-! ## One reflected run -/

theorem fresh_sampleSupplicant : sampleSupplicant.Fresh := ⟨rfl, rfl, rfl, rfl⟩

/-- The ciphertext of the supplicant's challenge. -/
def sampleMirror : Bytes := ((sampleStreams.map Stream.cipher).getD 0 []).take 64

/-- A peer without the key announces itself, sends an empty line, and then the
supplicant's own record: the register of `tdin` is still the IV. -/
def reflection : List (LineEnv × Bytes) :=
  let env := fairEnv [5, 6, 7, 8] (bytesFrom 0 64)
  [(env, base64_encode [9, 10, 11, 12]), (env, base64_encode (bytesFrom 13 12)),
    (env, base64_encode []), (env, base64_encode sampleMirror)]

theorem obliging_fairEnv : Obliging (fairEnv [5, 6, 7, 8] (bytesFrom 0 64)) :=
  ⟨rfl, rfl, rfl, rfl, rfl, rfl⟩

theorem obliging_reflection : ∀ ev ∈ reflection, Obliging ev.1 := by
  intro ev hev
  simp only [reflection, List.mem_cons, List.not_mem_nil, or_false] at hev
  rcases hev with rfl | rfl | rfl | rfl <;> exact obliging_fairEnv

/-- The states of that run: the supplicant has emitted what it is sent at the end. -/
theorem run_reflection :
    (Lib.run hear (sampleSupplicant.opencrypt (some [1, 2, 3, 4])) (reflection.take 1)).map
        (·.challenging) = some WaitingHash ∧
    (Lib.run hear (sampleSupplicant.opencrypt (some [1, 2, 3, 4])) (reflection.take 3)).map
        (fun s => (s.challenging, decide (sampleMirror ∈ s.emitted))) = some (WaitingAnswer, true) ∧
    (Lib.run hear (sampleSupplicant.opencrypt (some [1, 2, 3, 4])) reflection).map
        (·.challenging) = some Accepted := by
  refine ⟨?_, ?_, ?_⟩ <;> decide +kernel

theorem reflects_reflection :
    Lib.StepsMeet hear Reflects (sampleSupplicant.opencrypt (some [1, 2, 3, 4])) reflection := by
  obtain ⟨h1, h3, -⟩ := run_reflection
  obtain ⟨s1, hs1, hwait1⟩ := Option.map_eq_some_iff.mp h1
  obtain ⟨s3, hs3, hwait3⟩ := Option.map_eq_some_iff.mp h3
  have hstart : (sampleSupplicant.opencrypt (some [1, 2, 3, 4])).challenging = WaitingRemoteSalt :=
    flush_challenging _
  -- the first two lines come before the key is settled, the third is empty
  refine (Lib.stepsMeet_append hs3 (reflection.drop 3)).mpr ⟨?_, ?_⟩
  · refine (Lib.stepsMeet_append hs1 ((reflection.take 3).drop 1)).mpr ⟨⟨?_, ?_⟩, ⟨?_, ?_⟩⟩
    · rintro (h | h) <;> rw [hstart] at h <;> cases h
    · exact fun _ _ => trivial
    · rintro (h | h) <;> rw [hwait1] at h <;> cases h
    · exact fun s _ => ⟨fun _ => ⟨[], rfl, [], rfl, fun p hp => (nomatch hp)⟩, fun _ _ => trivial⟩
  · refine ⟨fun _ => ⟨sampleMirror, rfl, [sampleMirror], by simp, fun p hp => ?_⟩, fun _ _ => trivial⟩
    rw [List.mem_singleton.mp hp]
    exact ⟨_, of_decide_eq_true (congrArg Prod.snd hwait3), List.infix_rfl⟩

theorem accepts_reflection :
    (sampleSupplicant.opencrypt (some [1, 2, 3, 4])).Accepts reflection := by
  obtain ⟨t, ht, hacc⟩ := Option.map_eq_some_iff.mp run_reflection.2.2
  exact ⟨t, .of_run ht, hacc⟩

theorem reflected_accepted_iff_reflection :
    (sampleSupplicant.opencrypt (some [1, 2, 3, 4])).Accepts reflection
      ↔ (sampleSupplicant.opencrypt (some [1, 2, 3, 4])).EncryptsChallenge reflection :=
  (reflected_accepted_iff fresh_sampleSupplicant rfl).1 reflection reflects_reflection

theorem reflection_accepted :
    ¬ ∀ (F : Bytes → Bytes → UInt8) (H : Mhash) (debugcrypt closeFlushes : Bool)
      (c : CryptConnection (cfbPlatform F H debugcrypt closeFlushes)) (urandom : Urandom)
      (es : List (LineEnv × Bytes)), c.Fresh → (getsaltforurandom urandom 4).1 = true →
      (∀ ev ∈ es, Obliging ev.1) → Lib.StepsMeet hear Reflects (c.opencrypt urandom) es →
      ¬ (c.opencrypt urandom).Accepts es := fun h =>
  h _ _ _ _ sampleSupplicant _ reflection fresh_sampleSupplicant rfl obliging_reflection
    reflects_reflection accepts_reflection

end CryptConnection

end Qigong.Crypt
