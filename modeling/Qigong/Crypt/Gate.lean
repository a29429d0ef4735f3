import Qigong.Crypt.Session

/-!
# What opens the gate

A connection is meant to accept a peer that has echoed a fresh challenge under the
settled key. `reallycrypt` has early exits, and `prelineread` sets
`WaitingChallenge` whichever of them it took:

- without `tdin` every further line is skipped, so the exit is harmless;
- with `tdin` but without `tdout`, or without `/dev/urandom`, the challenge is
  what it was before the session or empty, and a peer that sends it is accepted.

So the gate holds in every session in which the calls behind the initialisation of
`tdin` succeed (`gate_holds`), and not in every one (`gate_opens_on_failure`).
-/

namespace Qigong.Crypt

open ChallengeState

namespace CryptConnection

variable {P : Platform}

/-- The key a line makes the connection settle, if it does. -/
def settles (c : CryptConnection P) (line : Bytes) : Option QiCrKey :=
  let u := c.deciphered line
  if c.challenging = WaitingHash ∧ u.1 = 0 ∧ 4 ≤ u.2.1.length then
    u.2.2.keyForHash (u.2.1.take 4) (u.2.1.drop 4)
  else none

/-- `reallycrypt` ran to its end in a step: both descriptors are initialised under the
key, and a challenge is drawn from `stream` and sent. -/
structure Completes (x : CryptConnection P × Event × CryptConnection P) (k : QiCrKey)
    (stream : Bytes) : Prop where
  settled : ∃ env line, x.2.1 = .line env line ∧ x.1.settles line = some k ∧
    ReadyIn P env.really k.IV ∧ ReadyOut P env.really k.IV ∧ env.really.urandom = some stream
  key : x.2.2.key = k.key ∧ x.2.2.IVin = k.IV ∧ x.2.2.IVout = k.IV ∧ x.2.2.keyID = k.keyID
  tdin : x.2.2.tdin = some (P.mcrypt.generic_init k.key k.IV)
  challenge : x.2.2.challenge = drawChallenge 64 stream
  sent : x.2.2.bufout = x.1.bufout
    ++ (cipherRecord (P.mcrypt.generic_init k.key k.IV) (x.1.out ++ x.2.2.challenge) ++ recordEnd)
  tdout : x.2.2.tdout
    = some (cipherAfter (P.mcrypt.generic_init k.key k.IV) (x.1.out ++ x.2.2.challenge))

/-- A step's line deciphers to the challenge, `tdin` being what the lines since then
have made of the state it was initialised with. -/
def AnswersChallenge (x : CryptConnection P × Event × CryptConnection P) (k : QiCrKey)
    (challenge : Bytes) : Prop :=
  ∃ env line td, x.2.1 = .line env line ∧ x.1.tdin = some td ∧
    P.mcrypt.DecryptsTo (P.mcrypt.generic_init k.key k.IV) td ∧
    (x.1.deciphered line).1 = 0 ∧ (x.1.deciphered line).2.1 = challenge

/-- In the session that `opencrypt` starts, `Accepted` is entered only behind an earlier
step that completed `reallycrypt`, by a line that deciphers to the challenge drawn
there. -/
def GateHolds (c : CryptConnection P) (urandom : Urandom) (es : List Event) : Prop :=
  ∀ pre x post, Lib.steps step (c.opencrypt urandom) es = pre ++ x :: post →
    x.1.challenging ≠ Accepted → x.2.2.challenging = Accepted →
    ∃ y ∈ pre, ∃ k stream, Completes y k stream ∧ y.2.2.challenge.length = 64 ∧
      AnswersChallenge x k y.2.2.challenge

/-- The calls behind a successful initialisation of `tdin` succeed. -/
def CallsSucceed (c : CryptConnection P) (e : Event) : Prop :=
  ∀ env line k, e = .line env line → c.settles line = some k → ReadyIn P env.really k.IV →
    ReadyOut P env.really k.IV ∧ env.really.urandom.isSome = true

/-! ## The invariant -/

/-- There is no `tdin`; or `reallycrypt` was completed, and `tdin` and the challenge are
its. -/
def Backed (hist : List (CryptConnection P × Event × CryptConnection P))
    (c : CryptConnection P) : Prop :=
  c.tdin = none ∨
    ∃ y ∈ hist, ∃ k stream td, Completes y k stream ∧ c.tdin = some td ∧
      P.mcrypt.DecryptsTo (P.mcrypt.generic_init k.key k.IV) td ∧
      c.challenge = y.2.2.challenge

/-- What a session keeps from `opencrypt` on: nothing can be accepted before a key is
settled or once refused, and else the connection is backed. -/
def Guarded (hist : List (CryptConnection P × Event × CryptConnection P))
    (c : CryptConnection P) : Prop :=
  c.challenging = WaitingRemoteSalt ∨ c.challenging = WaitingHash ∨ c.challenging = Refused ∨
    Backed hist c

section Guarded

variable {hist : List (CryptConnection P × Event × CryptConnection P)}
  {c c' : CryptConnection P}

theorem Backed.mono (h : Backed hist c) (x : CryptConnection P × Event × CryptConnection P) :
    Backed (hist ++ [x]) c := by
  rcases h with h | ⟨y, hy, h⟩
  · exact .inl h
  · exact .inr ⟨y, List.mem_append_left _ hy, h⟩

theorem Backed.of_eq (h : Backed hist c) (htd : c'.tdin = c.tdin)
    (hch : c'.challenge = c.challenge) : Backed hist c' := by
  unfold Backed at *
  rw [htd, hch]
  exact h

/-- Deciphering a line keeps the connection backed. -/
theorem Backed.deciphered (h : Backed hist c) (line : Bytes) :
    Backed hist (c.deciphered line).2.2 := by
  rcases h with h | ⟨y, hy, k, stream, td, hc, htd, hto, hch⟩
  · rw [deciphered_clear h]
    exact .inl h
  · rw [deciphered_cipher htd]
    exact .inr ⟨y, hy, k, stream, _, hc, rfl, hto.chunks _, hch⟩

theorem Guarded.mono (h : Guarded hist c) (x : CryptConnection P × Event × CryptConnection P) :
    Guarded (hist ++ [x]) c :=
  h.imp_right (Or.imp_right (Or.imp_right fun hb => hb.mono x))

theorem Guarded.refused (h : c.challenging = Refused) : Guarded hist c := .inr (.inr (.inl h))

theorem Guarded.backed (h : Backed hist c) : Guarded hist c := .inr (.inr (.inr h))

/-- A step that touches neither the state, nor `tdin`, nor the challenge. -/
theorem Guarded.of_keeps (h : Guarded hist c) (hk : Keeps c c') : Guarded hist c' := by
  unfold Guarded at *
  rw [hk.challenging]
  exact h.imp_right (Or.imp_right (Or.imp_right fun hb => hb.of_eq hk.tdin hk.challenge))

/-- Deciphering a line keeps the connection guarded. -/
theorem Guarded.deciphered (h : Guarded hist c) (line : Bytes) :
    Guarded hist (c.deciphered line).2.2 := by
  unfold Guarded at *
  rw [deciphered_challenging]
  exact h.imp_right (Or.imp_right (Or.imp_right fun hb => hb.deciphered line))

/-- In the later states a guarded connection is backed. -/
theorem Guarded.toBacked (h : Guarded hist c) (hs : c.challenging = WaitingChallenge ∨
    c.challenging = WaitingAnswer ∨ c.challenging = Accepted) : Backed hist c := by
  rcases h with h | h | h | h
  · simp [h] at hs
  · simp [h] at hs
  · simp [h] at hs
  · exact h

end Guarded

/-- A line that settles a key, with the calls that follow: `tdin` is missing, or
`reallycrypt` is completed. -/
theorem settled_step {hist : List (CryptConnection P × Event × CryptConnection P)}
    {c d : CryptConnection P} {env : LineEnv} {line : Bytes} {k : QiCrKey}
    (hk : c.settles line = some k) (hd : (c.deciphered line).2.2.settlekey k = .ok d)
    (hcalls : CallsSucceed c (.line env line)) :
    Guarded (hist ++ [(c, .line env line,
        { d.reallycrypt env.really with challenging := WaitingChallenge })])
      { d.reallycrypt env.really with challenging := WaitingChallenge } := by
  obtain ⟨td, hdec, -⟩ := c.deciphered_eq line
  have hset := settlekey_eq hd
  rw [hdec] at hset
  have hIVin : d.IVin = k.IV := by rw [hset]
  have hIVout : d.IVout = k.IV := by rw [hset]
  -- `tdin` is there, or nothing that follows is deciphered
  by_cases hin : ReadyIn P env.really k.IV
  · obtain ⟨hout, hur⟩ := hcalls env line k rfl hk hin
    obtain ⟨stream, hstream⟩ := Option.isSome_iff_exists.mp hur
    rw [reallycrypt_of_ready (hIVin ▸ hin) (hIVout ▸ hout), hstream, sendChallenge]
    dsimp only
    rw [flush_cipher (by rfl)]
    refine .backed (.inr
      ⟨_, List.mem_append_right _ (List.mem_singleton_self _), k, stream, _, ?_, rfl, ?_, rfl⟩)
    · subst hset
      exact ⟨⟨env, line, rfl, hk, hin, hout, hstream⟩, ⟨rfl, rfl, rfl, rfl⟩, rfl, rfl, rfl, rfl⟩
    · subst hset
      exact .refl
  · rw [reallycrypt_of_not_readyIn (hIVin ▸ hin)]
    exact .backed (.inl (flushandclose_tdin _))

/-- **Step lemma**: a step whose calls succeed keeps the connection guarded. -/
theorem guarded_step {hist : List (CryptConnection P × Event × CryptConnection P)}
    {c c' : CryptConnection P} {e : Event} (hg : Guarded hist c)
    (hp : (∀ u, e ≠ .opencrypt u) ∧ CallsSucceed c e) (h : c.step e = some c') :
    Guarded (hist ++ [(c, e, c')]) c' := by
  have hreact := step_eq_some_iff.mp h
  cases e with
  | opencrypt u => exact absurd rfl (hp.1 u)
  | closecrypt =>
    obtain ⟨rfl, -⟩ := Prod.mk.inj (Except.ok.inj hreact)
    exact .backed (.inl rfl)
  | send text =>
    obtain ⟨rfl, -⟩ := Prod.mk.inj (Except.ok.inj hreact)
    exact (hg.mono _).of_keeps ((c.write_keeps text).trans (c.write text).flush_keeps)
  | line env line =>
    have hgd := (hg.mono (c, .line env line, c')).deciphered line
    have hd := deciphered_challenging c line
    rcases receive_cases hreact with ⟨-, -, -, hc, -⟩ | ⟨-, hc, -⟩ | ⟨hr, -, htext⟩
    · exact hc ▸ hgd
    · exact hgd.of_keeps (hc ▸ (flushandclose_keeps _).trans (schedule_keeps _))
    · rcases onText_cases htext with ⟨hs, hc, -⟩ | ⟨hs, hc, -⟩ | ⟨hs, hc, -⟩ | ⟨hs, hc⟩ |
        ⟨hs, hc, -⟩ | ⟨hs, hc, -⟩
      · -- the salt
        have hm := onRemoteSalt_moves env (c.deciphered line).2.1 hs
        rw [← hc, hs] at hm
        generalize hst : c'.challenging = s at hm
        cases hm with
        | stay => exact .inl hst
        | salt => exact .inr (.inl hst)
        | refuse => exact .refused hst
      · -- the announced hash, which settles a key
        obtain ⟨hlen, hcases⟩ := onHash_cases hc
        rcases hcases with ⟨-, rfl⟩ | ⟨k, d, hk, hset, rfl⟩
        · exact .refused (flushandclose_challenging _)
        · refine settled_step ?_ hset hp.2
          rw [settles, if_pos ⟨hd ▸ hs, hr, hlen⟩]
          exact hk
      · -- the challenge of the peer
        have hb := hgd.toBacked (.inl hs)
        rw [onChallenge] at hc
        split at hc
        · exact .refused (hc ▸ flushandclose_challenging _)
        · have hk := (write_keeps (c.deciphered line).2.2 (c.deciphered line).2.1).trans
            (flush_keeps _)
          exact .backed (hb.of_eq (hc ▸ hk.tdin) (hc ▸ hk.challenge))
      · -- the answer, the only line that accepts
        have hb := hgd.toBacked (.inr (.inl hs))
        rcases onAnswer_cases (c.deciphered line).2.2 (c.deciphered line).2.1 with
          ⟨-, ha⟩ | ⟨-, ha⟩
        · obtain ⟨rfl, -⟩ := Prod.mk.inj (hc.trans ha)
          exact .backed (hb.of_eq rfl rfl)
        · obtain ⟨rfl, -⟩ := Prod.mk.inj (hc.trans ha)
          exact .refused (flushandclose_challenging _)
      · exact .refused (hc ▸ (flushandclose_challenging _).trans hs)
      · exact hc ▸ hgd

/-- The line that enters `Accepted` deciphers to the challenge. -/
theorem entering_accepted {c c' : CryptConnection P} {e : Event} (hopen : ∀ u, e ≠ .opencrypt u)
    (h : c.step e = some c') (hne : c.challenging ≠ Accepted) (hacc : c'.challenging = Accepted) :
    c.challenging = WaitingAnswer ∧ c.tdin.isSome = true ∧ ∃ env line, e = .line env line ∧
      (c.deciphered line).1 = 0 ∧ (c.deciphered line).2.1 = c.challenge := by
  have hreact := step_eq_some_iff.mp h
  have hcalls := (react_step hopen hreact).2
  have hwait : c.challenging = WaitingAnswer := by
    generalize c.calls e = cs at hcalls
    cases hcalls with
    | silent ha => exact absurd (ha hacc) hne
    | accepted hs _ => exact hs
    | record _ hs _ _ => exact absurd hs hne
  refine ⟨hwait, ?_⟩
  cases e with
  | opencrypt u => exact absurd rfl (hopen u)
  | closecrypt =>
    obtain ⟨rfl, -⟩ := Prod.mk.inj (Except.ok.inj hreact)
    exact absurd hacc hne
  | send text =>
    obtain ⟨rfl, -⟩ := Prod.mk.inj (Except.ok.inj hreact)
    exact absurd ((flush_challenging (c.write text)).symm.trans hacc) hne
  | line env line =>
    have hd := deciphered_challenging c line
    rcases receive_cases hreact with ⟨-, -, -, hc, -⟩ | ⟨-, hc, -⟩ | ⟨hr, htd, htext⟩
    · exact absurd (hd ▸ hc ▸ hacc) hne
    · have hk := (flushandclose_keeps (c.deciphered line).2.2).trans (schedule_keeps _)
      rw [← hc] at hk
      exact absurd (hd ▸ hk.challenging ▸ hacc) hne
    · have hsome : c.tdin.isSome = true := by
        cases hc : c.tdin with
        | some td => rfl
        | none =>
          have := htd hc
          simp [hwait] at this
      refine ⟨hsome, env, line, rfl, hr, ?_⟩
      have hchallenge : (c.deciphered line).2.2.challenge = c.challenge := by
        obtain ⟨td, hdec, -⟩ := c.deciphered_eq line
        rw [hdec]
      rw [onText_answer (hd.trans hwait)] at htext
      rcases onAnswer_cases (c.deciphered line).2.2 (c.deciphered line).2.1 with
        ⟨ht, -⟩ | ⟨-, ha⟩
      · exact ht.trans hchallenge
      · rw [ha] at htext
        obtain ⟨rfl, -⟩ := Prod.mk.inj (Except.ok.inj htext)
        rw [flushandclose_challenging] at hacc
        cases hacc

/-- **The gate holds** in every session whose calls behind the initialisation of `tdin`
succeed, whatever is received and whichever other calls fail. -/
theorem gate_holds (c : CryptConnection P) (urandom : Urandom) (es : List Event)
    (hopen : NoOpen es) (hmeet : Lib.StepsMeet step CallsSucceed (c.opencrypt urandom) es) :
    GateHolds c urandom es := by
  intro pre x post hx hne hacc
  have hno : Lib.StepsMeet step (fun _ e => ∀ u, e ≠ .opencrypt u) (c.opencrypt urandom) es :=
    Lib.stepsMeet_of_mem (fun e he _ => hopen e he) _
  have hstart : Guarded [] (c.opencrypt urandom) := .inl (flush_challenging _)
  obtain ⟨hg, hp, hstep⟩ := Lib.steps_history (fun _ _ _ _ => guarded_step) hstart (hno.and hmeet) hx
  obtain ⟨hwait, htd, env, line, he, hr, ht⟩ := entering_accepted hp.1 hstep hne hacc
  rw [List.nil_append] at hg
  rcases hg.toBacked (.inr (.inl hwait)) with hnone | ⟨y, hy, k, stream, td, hc, htd', hto, hch⟩
  · rw [hnone] at htd
    cases htd
  · refine ⟨y, hy, k, stream, hc, ?_, env, line, td, he, htd', hto, hr, ht.trans hch⟩
    rw [hc.challenge]
    exact drawChallenge_length 64 stream

/-! ## Two sessions of a supplicant -/

/-- The salt and the announcement of a peer, whatever its hash. -/
def announce (env : LineEnv) : List Event := [
  .line env (base64_encode [9, 10, 11, 12]), .line env (base64_encode (bytesFrom 13 12))]

/-- What a peer with the key sends as its challenge and as its echo. -/
def peerCipher : Bytes := ((sampleStreams.map Stream.cipher).getD 1 []).take 128

/-- The peer holds the key: it sends its challenge and echoes the supplicant's. -/
def keyedPeer : List Event :=
  announce (fairEnv [5, 6, 7, 8] (bytesFrom 0 64)) ++ [
    .line (fairEnv [] []) (base64_encode (peerCipher.take 64)),
    .line (fairEnv [] []) (base64_encode (peerCipher.drop 64))]

theorem gate_holds_keyedPeer :
    (Lib.run step (sampleSupplicant.opencrypt (some [1, 2, 3, 4])) keyedPeer).map (·.challenging)
        = some Accepted ∧
      GateHolds sampleSupplicant (some [1, 2, 3, 4]) keyedPeer := by
  refine ⟨by decide +kernel, gate_holds _ _ _ ?_ (Lib.stepsMeet_of_mem ?_ _)⟩
  · intro e he u
    simp only [keyedPeer, announce, List.cons_append, List.nil_append, List.mem_cons,
      List.not_mem_nil, or_false] at he
    rcases he with rfl | rfl | rfl | rfl <;> exact fun h => (nomatch h)
  · rintro e he d env line k rfl - hin
    simp only [keyedPeer, announce, List.cons_append, List.nil_append, List.mem_cons,
      List.not_mem_nil, or_false, Event.line.injEq] at he
    rcases he with ⟨rfl, -⟩ | ⟨rfl, -⟩ | ⟨rfl, -⟩ | ⟨rfl, -⟩ <;> exact ⟨⟨rfl, hin.2.1, rfl⟩, rfl⟩

/-- `tdin` can be initialised, `tdout` cannot. -/
def noTdout : LineEnv := ⟨some [5, 6, 7, 8], ⟨true, true, false, true, none⟩⟩

/-- The peer has no key: the challenge being still empty, it sends any line, and then
an empty one. -/
def keylessPeer : List Event := announce noTdout ++ [.line noTdout (base64_encode [65])]

theorem gate_opens_on_failure :
    ¬ ∀ (P : Platform) (c : CryptConnection P) (urandom : Urandom) (es : List Event),
      NoOpen es → GateHolds c urandom es := by
  intro h
  have hevents : ∀ e ∈ keylessPeer ++ [.line noTdout []], ∃ line, e = .line noTdout line := by
    intro e he
    simp only [keylessPeer, announce, List.cons_append, List.nil_append, List.mem_cons,
      List.not_mem_nil, or_false] at he
    rcases he with rfl | rfl | rfl | rfl <;> exact ⟨_, rfl⟩
  have hopen : NoOpen (keylessPeer ++ [.line noTdout []]) := by
    intro e he u heq
    obtain ⟨line, rfl⟩ := hevents e he
    cases heq
  have hbefore : (Lib.run step (sampleSupplicant.opencrypt (some [1, 2, 3, 4])) keylessPeer).map
      (·.challenging) = some WaitingAnswer := by decide +kernel
  have hafter : (Lib.run step (sampleSupplicant.opencrypt (some [1, 2, 3, 4]))
      (keylessPeer ++ [.line noTdout []])).map (·.challenging) = some Accepted := by decide +kernel
  obtain ⟨s, hs, hwait⟩ := Option.map_eq_some_iff.mp hbefore
  obtain ⟨t, ht, hacc⟩ := Option.map_eq_some_iff.mp hafter
  have hst : step s (.line noTdout []) = some t := by
    rw [Lib.run_append, hs, Option.bind_some, Lib.run_cons] at ht
    obtain ⟨t', hst, htt⟩ := Option.bind_eq_some_iff.mp ht
    rwa [← Option.some.inj htt]
  have hsteps := Lib.steps_append hs [.line noTdout []]
  rw [Lib.steps_cons_some hst] at hsteps
  obtain ⟨y, hy, k, stream, hc, -⟩ := h samplePlatform sampleSupplicant _ _ hopen _ _ _ hsteps
    (by rw [hwait]; decide) hacc
  -- no step has initialised `tdout`
  obtain ⟨env, line, he, -, -, hout, -⟩ := hc.settled
  obtain ⟨line', he'⟩ := hevents _ (List.mem_append_left _ (Lib.event_mem_of_mem_steps hy))
  obtain ⟨rfl, -⟩ := Event.line.inj (he.symm.trans he')
  exact absurd hout.1 (by decide)

end CryptConnection

end Qigong.Crypt
