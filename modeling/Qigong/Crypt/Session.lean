import Qigong.Crypt.Connection

/-!
# Sessions of a `CryptConnection`

A connection reacts to events (`react`): it is opened, closed, receives a line or
sends what the application has written. `receive_cases` and `onText_cases` say once
what a received line can do; what a whole run does follows from them:

- `Moves`, `Forward`: the order of the handshake's states, and that no event but
  `opencrypt` goes against it (`react_moves`, `run_forward`);
- `StepDiscipline`: when the application is called, in every step of a run
  (`steps_discipline`), and how often `firstprompt` is (`run_firstprompt`).
-/

namespace Qigong.Crypt

open ChallengeState

/-! ## The order of the states -/

/-- One event leaves the handshake's state, takes it to the next one, or refuses. -/
inductive ChallengeState.Moves : ChallengeState → ChallengeState → Prop where
  | stay (s) : Moves s s
  | salt : Moves WaitingRemoteSalt WaitingHash
  | hash : Moves WaitingHash WaitingChallenge
  | challenge : Moves WaitingChallenge WaitingAnswer
  | answer : Moves WaitingAnswer Accepted
  | refuse (s) : s ≠ Accepted → Moves s Refused

/-- The place of a state in the order. -/
def ChallengeState.rank : ChallengeState → Nat
  | WaitingRemoteSalt => 0
  | WaitingHash => 1
  | WaitingChallenge => 2
  | WaitingAnswer => 3
  | Accepted => 4
  | Refused => 4

/-- `t` is `s` or comes after it; nothing comes after `Accepted` and `Refused`. -/
def ChallengeState.Forward (s t : ChallengeState) : Prop :=
  s = t ∨ (s ≠ Accepted ∧ s ≠ Refused ∧ (t = Refused ∨ s.rank < t.rank))

instance (s t : ChallengeState) : Decidable (s.Forward t) :=
  inferInstanceAs (Decidable (_ ∨ _))

theorem ChallengeState.Moves.forward {s t : ChallengeState} (h : Moves s t) : s.Forward t := by
  cases h with
  | stay => exact .inl rfl
  | salt => decide
  | hash => decide
  | challenge => decide
  | answer => decide
  | refuse _ hs => cases s <;> first | decide | exact absurd rfl hs

/-- `Accepted` is not left. -/
theorem ChallengeState.Moves.accepted {s t : ChallengeState} (h : Moves s t) (hs : s = Accepted) :
    t = Accepted := by
  cases h with
  | stay => exact hs
  | refuse _ hne => exact absurd hs hne
  | salt | hash | challenge => cases hs
  | answer => rfl

theorem ChallengeState.Forward.trans {s t u : ChallengeState} (h : s.Forward t)
    (h' : t.Forward u) : s.Forward u := by
  revert h h'
  cases s <;> cases t <;> cases u <;> decide

namespace CryptConnection

variable {P : Platform}

/-! ## Construction -/

/-- A connection as the constructors leave its members, without a key. -/
def unkeyed (P : Platform) : CryptConnection P where
  key := []
  IVin := []
  IVout := []
  keyID := []
  tdin := none
  tdout := none
  challenging := WaitingRemoteSalt
  challenge := []
  salt1 := []
  keyring := none
  qicrkey := none
  issuplicant := false
  out := []
  bufin := []
  bufout := []
  maxpendsize := none
  closing := false
  doomed := false

/-- The constructor of the keyring's side (qicrypt.cpp:463–479), before `opencrypt`. -/
def withKeyring (P : Platform) (keyring : Option KeyRing) : CryptConnection P :=
  { unkeyed P with keyring := keyring }

/-- The constructor of the supplicant's side (qicrypt.cpp:481–543), before
`opencrypt`. Under `debugcrypt` it prints the readable ID. -/
def withKey (P : Platform) : Option QiCrKey → Except Exn (CryptConnection P)
  | none => .ok { unkeyed P with issuplicant := true }
  | some k =>
    let c := { unkeyed P with issuplicant := true, qicrkey := some k, keyID := k.keyID }
    if P.debugcrypt then k.getReadableID.map fun _ => c else .ok c

/-- A supplicant that is constructed has a key, and nothing else. -/
theorem withKey_eq {key : Option QiCrKey} {c : CryptConnection P} (h : withKey P key = .ok c) :
    ∃ k id, c = { unkeyed P with issuplicant := true, qicrkey := k, keyID := id } := by
  cases key with
  | none =>
    obtain rfl := Except.ok.inj h
    exact ⟨_, _, rfl⟩
  | some k =>
    unfold withKey at h
    dsimp only at h
    split at h
    · obtain ⟨r, -, rfl⟩ := map_eq_ok.mp h
      exact ⟨_, _, rfl⟩
    · obtain rfl := Except.ok.inj h
      exact ⟨_, _, rfl⟩

/-- A connection is constructed with nothing to flush. -/
theorem withKey_out {key : Option QiCrKey} {c : CryptConnection P}
    (h : withKey P key = .ok c) : c.out = [] := by
  obtain ⟨k, id, rfl⟩ := withKey_eq h
  rfl

/-! ## Events -/

/-- What happens to a connection. -/
inductive Event where
  | opencrypt (urandom : Urandom)
  | closecrypt
  | line (env : LineEnv) (bytes : Bytes)
  | send (text : Bytes)

/-- How the connection reacts, and what it calls on the application. -/
def react (c : CryptConnection P) : Event → Except Exn (CryptConnection P × List Call)
  | .opencrypt urandom => .ok (c.opencrypt urandom, [])
  | .closecrypt => .ok (c.closecrypt, [])
  | .line env bytes => c.receive env bytes
  | .send text => .ok (c.send text, [])

/-- The connection behind an event, `none` when the event throws. -/
def step (c : CryptConnection P) (e : Event) : Option (CryptConnection P) :=
  (c.react e).toOption.map Prod.fst

/-- What an event calls on the application. -/
def calls (c : CryptConnection P) (e : Event) : List Call :=
  match c.react e with
  | .ok r => r.2
  | .error _ => []

theorem step_eq_some_iff {c c' : CryptConnection P} {e : Event} :
    c.step e = some c' ↔ c.react e = .ok (c', c.calls e) := by
  unfold step calls
  cases h : c.react e with
  | error x => exact ⟨fun hx => (nomatch hx), fun hx => (nomatch hx)⟩
  | ok r =>
    obtain ⟨d, l⟩ := r
    constructor
    · intro hd
      rw [show d = c' from Option.some.inj hd]
    · intro hd
      injection hd with hd
      exact congrArg some (congrArg Prod.fst hd)

/-! ## What a line can do -/

/-- A line decoded and decrypted: the number of errors, the text, and the connection
behind it. -/
def deciphered (c : CryptConnection P) (line : Bytes) : Nat × Bytes × CryptConnection P :=
  ({ c with bufin := line } : CryptConnection P).ungarble

/-- With a cipher for input, a line is base64 of the cipher text, deciphered buffer by buffer. -/
theorem deciphered_cipher {c : CryptConnection P} {td : P.mcrypt.State} (h : c.tdin = some td)
    (line : Bytes) :
    c.deciphered line =
      let t := P.mcrypt.decryptChunks td (Lib.chunks bufsize (base64_decode line).2)
      ((if (base64_decode line).1 then 0 else 1) + t.1, t.2.1,
        { c with bufin := [], tdin := some t.2.2 }) := by
  simp only [deciphered, ungarble, h]

/-- Without one, it is base64 of the text. -/
theorem deciphered_clear {c : CryptConnection P} (h : c.tdin = none) (line : Bytes) :
    c.deciphered line = (if (base64_decode line).1 then 0 else 1, (base64_decode line).2,
      { c with bufin := [] }) := by
  simp only [deciphered, ungarble, h]

/-- A line that decodes and decrypts without an error. -/
theorem deciphered_of_decrypt {c : CryptConnection P} {td td' : P.mcrypt.State}
    {line x text : Bytes} (h : c.tdin = some td) (hx : base64_decode line = (true, x))
    (ht : P.mcrypt.decryptChunks td (Lib.chunks bufsize x) = (0, text, td')) :
    c.deciphered line = (0, text, { c with bufin := [], tdin := some td' }) := by
  rw [deciphered_cipher h, hx]
  dsimp only
  rw [ht]
  rfl

/-- Deciphering a line moves `tdin` on if there is one, and nothing else. -/
theorem deciphered_eq (c : CryptConnection P) (line : Bytes) :
    ∃ td, (c.deciphered line).2.2 = { c with bufin := [], tdin := td } ∧
      td.isSome = c.tdin.isSome := by
  cases h : c.tdin with
  | some td =>
    rw [deciphered_cipher h]
    exact ⟨_, rfl, rfl⟩
  | none =>
    rw [deciphered_clear h]
    exact ⟨none, by rw [← h], rfl⟩

@[simp] theorem deciphered_challenging (c : CryptConnection P) (line : Bytes) :
    (c.deciphered line).2.2.challenging = c.challenging := by
  obtain ⟨td, h, -⟩ := c.deciphered_eq line
  rw [h]

/-- Deciphering neither makes nor drops the input cipher. -/
theorem deciphered_tdin (c : CryptConnection P) (line : Bytes) :
    (c.deciphered line).2.2.tdin.isSome = c.tdin.isSome := by
  obtain ⟨td, h, htd⟩ := c.deciphered_eq line
  rw [h, ← htd]

/-- `prelineread` in terms of the line deciphered. -/
theorem receive_eq (env : LineEnv) (line : Bytes) (c : CryptConnection P) :
    c.receive env line =
      let u := c.deciphered line
      if u.2.2.tdin.isNone ∧ u.2.2.challenging ≠ WaitingRemoteSalt ∧
          u.2.2.challenging ≠ WaitingHash then .ok (u.2.2, [])
      else if u.1 ≠ 0 then .ok (u.2.2.flushandclose.schedule_for_destruction, [])
      else u.2.2.onText env u.2.1 := rfl

/-- Behind the handshake a line is skipped where there is no cipher. -/
theorem receive_skipped {c : CryptConnection P} (htd : c.tdin = none)
    (hacc : c.challenging = Accepted) (env : LineEnv) (line : Bytes) :
    c.receive env line = .ok ({ c with bufin := [] }, []) := by
  rw [receive_eq, deciphered_clear htd]
  dsimp only
  rw [if_pos]
  rw [htd, hacc]
  exact ⟨rfl, by decide, by decide⟩

/-- A line is skipped, closes the connection, or its text is acted on. -/
theorem receive_cases {c c' : CryptConnection P} {env : LineEnv} {line : Bytes} {cs : List Call}
    (h : c.receive env line = .ok (c', cs)) :
    (c.tdin = none ∧ c.challenging ≠ WaitingRemoteSalt ∧ c.challenging ≠ WaitingHash ∧
      c' = (c.deciphered line).2.2 ∧ cs = []) ∨
    ((c.deciphered line).1 ≠ 0 ∧
      c' = (c.deciphered line).2.2.flushandclose.schedule_for_destruction ∧ cs = []) ∨
    ((c.deciphered line).1 = 0 ∧
      (c.tdin = none → c.challenging = WaitingRemoteSalt ∨ c.challenging = WaitingHash) ∧
      (c.deciphered line).2.2.onText env (c.deciphered line).2.1 = .ok (c', cs)) := by
  -- deciphering moves the cipher on, so that `isNone` is asked of the cipher in force
  have hnone : (c.deciphered line).2.2.tdin.isNone = true ↔ c.tdin = none := by
    have := c.deciphered_tdin line
    cases hd : (c.deciphered line).2.2.tdin <;> cases hc : c.tdin <;> simp_all
  rw [receive_eq] at h
  dsimp only at h
  split at h
  case isTrue hskip =>
    rw [hnone, deciphered_challenging] at hskip
    injection h with h
    injection h with hc hcs
    exact .inl ⟨hskip.1, hskip.2.1, hskip.2.2, hc.symm, hcs.symm⟩
  case isFalse hskip =>
    rw [hnone, deciphered_challenging] at hskip
    by_cases hr : (c.deciphered line).1 ≠ 0
    · rw [if_pos hr] at h
      injection h with h
      injection h with hc hcs
      exact .inr (.inl ⟨hr, hc.symm, hcs.symm⟩)
    · rw [if_neg hr] at h
      refine .inr (.inr ⟨not_not.mp hr, fun htd => ?_, h⟩)
      by_contra hstate
      exact hskip ⟨htd, fun hs => hstate (.inl hs), fun hs => hstate (.inr hs)⟩

section onText

variable {c : CryptConnection P} {env : LineEnv} {temp : Bytes}

theorem onText_salt (h : c.challenging = WaitingRemoteSalt) :
    c.onText env temp = .ok (c.onRemoteSalt env temp, []) := by simp only [onText, h]

theorem onText_hash (h : c.challenging = WaitingHash) :
    c.onText env temp = (c.onHash env.really temp).map fun c => (c, []) := by
  simp only [onText, h]

theorem onText_challenge (h : c.challenging = WaitingChallenge) :
    c.onText env temp = .ok (c.onChallenge temp, []) := by simp only [onText, h]

theorem onText_answer (h : c.challenging = WaitingAnswer) :
    c.onText env temp = .ok (c.onAnswer temp) := by simp only [onText, h]

theorem onText_refused (h : c.challenging = Refused) :
    c.onText env temp = .ok (c.flushandclose, []) := by simp only [onText, h]

theorem onText_accepted (h : c.challenging = Accepted) :
    c.onText env temp = .ok (c, (splitRecord [] temp).map .lineread) := by simp only [onText, h]

/-- What the text of a line does in each state. -/
theorem onText_cases {c' : CryptConnection P} {cs : List Call}
    (h : c.onText env temp = .ok (c', cs)) :
    (c.challenging = WaitingRemoteSalt ∧ c' = c.onRemoteSalt env temp ∧ cs = []) ∨
    (c.challenging = WaitingHash ∧ c.onHash env.really temp = .ok c' ∧ cs = []) ∨
    (c.challenging = WaitingChallenge ∧ c' = c.onChallenge temp ∧ cs = []) ∨
    (c.challenging = WaitingAnswer ∧ (c', cs) = c.onAnswer temp) ∨
    (c.challenging = Refused ∧ c' = c.flushandclose ∧ cs = []) ∨
    (c.challenging = Accepted ∧ c' = c ∧ cs = (splitRecord [] temp).map .lineread) := by
  cases hs : c.challenging with
  | WaitingRemoteSalt =>
    rw [onText_salt hs] at h
    obtain ⟨hc, hcs⟩ := Prod.mk.inj (Except.ok.inj h)
    exact .inl ⟨rfl, hc.symm, hcs.symm⟩
  | WaitingHash =>
    rw [onText_hash hs] at h
    cases hh : c.onHash env.really temp with
    | error x => rw [hh] at h; cases h
    | ok d =>
      rw [hh] at h
      obtain ⟨hc, hcs⟩ := Prod.mk.inj (Except.ok.inj h)
      exact .inr (.inl ⟨rfl, by rw [← hc], hcs.symm⟩)
  | WaitingChallenge =>
    rw [onText_challenge hs] at h
    obtain ⟨hc, hcs⟩ := Prod.mk.inj (Except.ok.inj h)
    exact .inr (.inr (.inl ⟨rfl, hc.symm, hcs.symm⟩))
  | WaitingAnswer =>
    rw [onText_answer hs] at h
    exact .inr (.inr (.inr (.inl ⟨rfl, (Except.ok.inj h).symm⟩)))
  | Refused =>
    rw [onText_refused hs] at h
    obtain ⟨hc, hcs⟩ := Prod.mk.inj (Except.ok.inj h)
    exact .inr (.inr (.inr (.inr (.inl ⟨rfl, hc.symm, hcs.symm⟩))))
  | Accepted =>
    rw [onText_accepted hs] at h
    obtain ⟨hc, hcs⟩ := Prod.mk.inj (Except.ok.inj h)
    exact .inr (.inr (.inr (.inr (.inr ⟨rfl, hc.symm, hcs.symm⟩))))

end onText

/-- An announcement of less than four bytes throws. -/
theorem onHash_short {c : CryptConnection P} {env : ReallyEnv} {temp : Bytes}
    (h : temp.length < 4) : c.onHash env temp = .error .out_of_range := by
  simp only [onHash, substr_throws h]
  rfl

/-- A hash that no key has is refused, and the connection closed. -/
theorem onHash_unknown {c : CryptConnection P} {env : ReallyEnv} {temp : Bytes}
    (h : 4 ≤ temp.length) (hk : c.keyForHash (temp.take 4) (temp.drop 4) = none) :
    c.onHash env temp = .ok { c with challenging := Refused }.flushandclose := by
  simp only [onHash, substr_ok h, Except.bind, hk]

/-- A hash of a known key settles it. -/
theorem onHash_known {c : CryptConnection P} {env : ReallyEnv} {temp : Bytes} {k : QiCrKey}
    (h : 4 ≤ temp.length) (hk : c.keyForHash (temp.take 4) (temp.drop 4) = some k) :
    c.onHash env temp = c.settleAndCrypt env k := by
  simp only [onHash, substr_ok h, Except.bind, hk]

/-- `onHash` refuses, or settles the key and goes on to `WaitingChallenge`. -/
theorem onHash_cases {c c' : CryptConnection P} {env : ReallyEnv} {temp : Bytes}
    (h : c.onHash env temp = .ok c') :
    4 ≤ temp.length ∧
    ((c.keyForHash (temp.take 4) (temp.drop 4) = none ∧
        c' = { c with challenging := Refused }.flushandclose) ∨
      ∃ k d, c.keyForHash (temp.take 4) (temp.drop 4) = some k ∧ c.settlekey k = .ok d ∧
        c' = { d.reallycrypt env with challenging := WaitingChallenge }) := by
  -- the salt of the peer is the first four bytes, which a shorter text does not have
  rcases Nat.lt_or_ge temp.length 4 with hlen | hlen
  · rw [onHash_short hlen] at h
    cases h
  · refine ⟨hlen, ?_⟩
    cases hk : c.keyForHash (temp.take 4) (temp.drop 4) with
    | none =>
      rw [onHash_unknown hlen hk] at h
      exact .inl ⟨rfl, (Except.ok.inj h).symm⟩
    | some k =>
      rw [onHash_known hlen hk, settleAndCrypt] at h
      cases hd : c.settlekey k with
      | error x => rw [hd] at h; cases h
      | ok d =>
        rw [hd] at h
        exact .inr ⟨k, d, rfl, hd, (Except.ok.inj h).symm⟩

theorem settlekey_eq {c d : CryptConnection P} {k : QiCrKey} (h : c.settlekey k = .ok d) :
    d = { c with qicrkey := some k, key := k.key, IVin := k.IV, IVout := k.IV,
                 keyID := k.keyID } := by
  unfold settlekey at h
  -- with `debugcrypt` the ID is printed first, which may throw; what is set is the same
  cases hdebug : P.debugcrypt with
  | false =>
    simp only [hdebug] at h
    injection h with h
    exact h.symm
  | true =>
    simp only [hdebug, if_true] at h
    cases hr : k.getReadableID with
    | error x => rw [hr] at h; cases h
    | ok r =>
      rw [hr] at h
      injection h with h
      exact h.symm

/-! ## The handshake's states along a run -/

/-- A salt is answered by the announcement, or refused. -/
theorem onRemoteSalt_moves (env : LineEnv) {c : CryptConnection P} (salt2 : Bytes)
    (h : c.challenging = WaitingRemoteSalt) :
    Moves c.challenging (c.onRemoteSalt env salt2).challenging := by
  -- no salt of its own, or no hash of the two: refused either way
  have hrefuse : Moves c.challenging
      ({ c with challenging := Refused } : CryptConnection P).flushandclose.challenging := by
    rw [flushandclose_challenging]
    exact .refuse _ (by rw [h]; decide)
  unfold onRemoteSalt
  dsimp only
  by_cases hs : (getsaltforurandom env.salt3 4).1 = false
  · rw [if_pos hs]
    exact hrefuse
  · rw [if_neg hs]
    cases gen2sk P.mhash 8 salt2 (getsaltforurandom env.salt3 4).2 c.keyID with
    | none => exact hrefuse
    | some hash =>
      rw [h]
      exact .salt

/-- An announcement is answered by a challenge, or refused. -/
theorem onHash_moves {c c' : CryptConnection P} {env : ReallyEnv} {temp : Bytes}
    (h : c.onHash env temp = .ok c') (hc : c.challenging = WaitingHash) :
    Moves c.challenging c'.challenging := by
  rw [hc]
  rcases (onHash_cases h).2 with ⟨-, rfl⟩ | ⟨k, d, -, -, rfl⟩
  · rw [flushandclose_challenging]
    exact .refuse _ (by decide)
  · exact .hash

/-- A challenge is answered, or refused. -/
theorem onChallenge_moves {c : CryptConnection P} (temp : Bytes)
    (h : c.challenging = WaitingChallenge) :
    Moves c.challenging (c.onChallenge temp).challenging := by
  rw [h]
  unfold onChallenge
  by_cases ht : temp = c.challenge
  · rw [if_pos ht, flushandclose_challenging]
    exact .refuse _ (by decide)
  · rw [if_neg ht]
    exact .challenge

/-- The answer decides, and `firstprompt` is called on acceptance. -/
theorem onAnswer_cases (c : CryptConnection P) (temp : Bytes) :
    (temp = c.challenge ∧ c.onAnswer temp = ({ c with challenging := Accepted }, [.firstprompt])) ∨
    (temp ≠ c.challenge ∧
      c.onAnswer temp = ({ c with challenging := Refused }.flushandclose, [])) := by
  unfold onAnswer
  by_cases h : temp = c.challenge
  · exact .inl ⟨h, if_pos h⟩
  · exact .inr ⟨h, if_neg h⟩

/-- The calls of one step, and the states they are made in: none, with `Accepted` not
entered; `firstprompt`, on entering `Accepted`; or the lines of a record, in
`Accepted` with `tdin`. -/
inductive CallsOf (c c' : CryptConnection P) : List Call → Prop where
  | silent : (c'.challenging = Accepted → c.challenging = Accepted) → CallsOf c c' []
  | accepted : c.challenging = WaitingAnswer → c'.challenging = Accepted →
      CallsOf c c' [.firstprompt]
  | record (temp) : c.challenging = Accepted → c'.challenging = Accepted →
      c'.tdin.isSome = true → CallsOf c c' ((splitRecord [] temp).map .lineread)

theorem CallsOf.of_eq {c c' : CryptConnection P} {cs : List Call} (hcs : cs = [])
    (h : c'.challenging = c.challenging) : CallsOf c c' cs := by
  rw [hcs]
  exact .silent fun ha => h ▸ ha

/-- A move that is none into `Accepted`. -/
theorem CallsOf.of_moves {c c' : CryptConnection P} {cs : List Call} (hcs : cs = [])
    (h : Moves c.challenging c'.challenging) (hne : c.challenging ≠ WaitingAnswer) :
    CallsOf c c' cs := by
  rw [hcs]
  refine .silent fun ha => ?_
  rw [ha] at h
  generalize c.challenging = s at h hne
  cases h with
  | stay => rfl
  | answer => exact absurd rfl hne

/-- What a text does to the state, and what it calls. -/
theorem onText_step {c c' : CryptConnection P} {env : LineEnv} {temp : Bytes} {cs : List Call}
    (h : c.onText env temp = .ok (c', cs))
    (htd : c.tdin = none → c.challenging = WaitingRemoteSalt ∨ c.challenging = WaitingHash) :
    Moves c.challenging c'.challenging ∧ CallsOf c c' cs := by
  rcases onText_cases h with
    ⟨hs, hc, hcs⟩ | ⟨hs, hc, hcs⟩ | ⟨hs, hc, hcs⟩ | ⟨hs, hc⟩ | ⟨hs, hc, hcs⟩ | ⟨hs, hc, hcs⟩
  · have hm : Moves c.challenging c'.challenging := hc ▸ onRemoteSalt_moves env temp hs
    exact ⟨hm, .of_moves hcs hm (by rw [hs]; decide)⟩
  · have hm := onHash_moves hc hs
    exact ⟨hm, .of_moves hcs hm (by rw [hs]; decide)⟩
  · have hm : Moves c.challenging c'.challenging := hc ▸ onChallenge_moves temp hs
    exact ⟨hm, .of_moves hcs hm (by rw [hs]; decide)⟩
  · rcases onAnswer_cases c temp with ⟨-, ha⟩ | ⟨-, ha⟩
    · -- the only way into `Accepted`
      rw [ha] at hc
      obtain ⟨rfl, rfl⟩ := Prod.mk.inj hc
      exact ⟨hs ▸ .answer, .accepted hs rfl⟩
    · rw [ha] at hc
      obtain ⟨rfl, rfl⟩ := Prod.mk.inj hc
      have href : ({ c with challenging := Refused } : CryptConnection P).flushandclose.challenging
          = Refused := flushandclose_challenging _
      refine ⟨?_, .silent fun ha => ?_⟩
      · rw [href, hs]
        exact .refuse _ (by decide)
      · rw [href] at ha
        cases ha
  · have he : c'.challenging = c.challenging := hc ▸ flushandclose_challenging c
    exact ⟨he ▸ .stay _, .of_eq hcs he⟩
  · subst hc hcs
    refine ⟨.stay _, .record temp hs hs ?_⟩
    -- without `tdin` a text is acted on in the first two states only
    cases htdin : c'.tdin with
    | some td => rfl
    | none =>
      rcases htd htdin with h' | h' <;>
      · rw [hs] at h'
        cases h'

/-- **Step lemma**: an event other than `opencrypt` moves the handshake's state along
its order, and calls the application as `CallsOf` says. -/
theorem react_step {c c' : CryptConnection P} {e : Event} {cs : List Call}
    (hopen : ∀ u, e ≠ .opencrypt u) (h : c.react e = .ok (c', cs)) :
    Moves c.challenging c'.challenging ∧ CallsOf c c' cs := by
  have hsame : cs = [] → c'.challenging = c.challenging →
      Moves c.challenging c'.challenging ∧ CallsOf c c' cs :=
    fun hcs he => ⟨he ▸ .stay _, .of_eq hcs he⟩
  cases e with
  | opencrypt u => exact absurd rfl (hopen u)
  | closecrypt =>
    obtain ⟨rfl, rfl⟩ := Prod.mk.inj (Except.ok.inj h)
    exact hsame rfl rfl
  | send text =>
    obtain ⟨rfl, rfl⟩ := Prod.mk.inj (Except.ok.inj h)
    exact hsame rfl (flush_challenging _)
  | line env bytes =>
    have hd := deciphered_challenging c bytes
    rcases receive_cases h with ⟨-, -, -, hc, hcs⟩ | ⟨-, hc, hcs⟩ | ⟨-, htd, htext⟩
    · exact hsame hcs (hc ▸ hd)
    · exact hsame hcs (hc ▸ (flushandclose_challenging _).trans hd)
    · have htd' : (c.deciphered bytes).2.2.tdin = none →
          (c.deciphered bytes).2.2.challenging = WaitingRemoteSalt ∨
            (c.deciphered bytes).2.2.challenging = WaitingHash := by
        intro hnone
        rw [hd]
        refine htd (Option.isNone_iff_eq_none.mp ?_)
        rw [← Option.not_isSome, ← deciphered_tdin c bytes, hnone]
        rfl
      obtain ⟨hm, hcalls⟩ := onText_step htext htd'
      rw [hd] at hm
      refine ⟨hm, ?_⟩
      cases hcalls with
      | silent ha => exact .silent fun h' => hd ▸ ha h'
      | accepted hs ha => exact .accepted (hd ▸ hs) ha
      | record temp hs ha htd => exact .record temp (hd ▸ hs) ha htd

/-! ## What the application has written -/

theorem flush_out (c : CryptConnection P) : c.flush.out = [] := by
  obtain ⟨put, td, h, -⟩ := c.flush_eq
  rw [h]

theorem flushandclose_out {c : CryptConnection P} (h : c.out = []) : c.flushandclose.out = [] := by
  unfold flushandclose
  split
  · exact flush_out c
  · exact h

/-- Settling the ciphers leaves nothing to flush. -/
theorem reallycrypt_out {env : ReallyEnv} {c : CryptConnection P} (h : c.out = []) :
    (c.reallycrypt env).out = [] := by
  by_cases hin : ReadyIn P env c.IVin
  · by_cases hout : ReadyOut P env c.IVout
    · rw [reallycrypt_of_ready hin hout]
      unfold sendChallenge
      cases env.urandom with
      | none => exact flushandclose_out h
      | some stream => exact flush_out _
    · rw [reallycrypt_of_not_readyOut hin hout]
      exact flushandclose_out h
  · rw [reallycrypt_of_not_readyIn hin]
    exact flushandclose_out h

/-- And so does every text. -/
theorem onText_out {c c' : CryptConnection P} {env : LineEnv} {temp : Bytes} {cs : List Call}
    (h : c.onText env temp = .ok (c', cs)) (hout : c.out = []) : c'.out = [] := by
  have hrefuse : ({ c with challenging := Refused } : CryptConnection P).flushandclose.out = [] :=
    flushandclose_out hout
  rcases onText_cases h with
    ⟨-, rfl, -⟩ | ⟨-, hh, -⟩ | ⟨-, rfl, -⟩ | ⟨-, hc⟩ | ⟨-, rfl, -⟩ | ⟨-, rfl, -⟩
  · unfold onRemoteSalt
    dsimp only
    split
    · exact hrefuse
    · split
      · exact hrefuse
      · exact flush_out _
  · rcases (onHash_cases hh).2 with ⟨-, rfl⟩ | ⟨k, d, -, hd, rfl⟩
    · exact hrefuse
    · rw [settlekey_eq hd]
      exact reallycrypt_out hout
  · unfold onChallenge
    split
    · exact hrefuse
    · exact flush_out _
  · rcases onAnswer_cases c temp with ⟨-, ha⟩ | ⟨-, ha⟩ <;>
    · rw [ha] at hc
      obtain ⟨rfl, -⟩ := Prod.mk.inj hc
      first | exact hout | exact hrefuse
  · exact flushandclose_out hout
  · exact hout

/-- The crypt layer flushes all it writes. -/
theorem receive_out {c c' : CryptConnection P} {env : LineEnv} {line : Bytes} {cs : List Call}
    (h : c.receive env line = .ok (c', cs)) (hout : c.out = []) : c'.out = [] := by
  have hd : (c.deciphered line).2.2.out = [] := by
    obtain ⟨td, heq, -⟩ := c.deciphered_eq line
    rw [heq]
    exact hout
  rcases receive_cases h with ⟨-, -, -, rfl, -⟩ | ⟨-, rfl, -⟩ | ⟨-, -, ht⟩
  · exact hd
  · exact flushandclose_out hd
  · exact onText_out ht hd

/-! ## Runs between two `opencrypt` calls -/

/-- No event of the run is `opencrypt`. -/
def NoOpen (es : List Event) : Prop := ∀ e ∈ es, ∀ u, e ≠ .opencrypt u

/-- What one step of a run does to the handshake's state, and when it calls the
application. -/
structure StepDiscipline (x : CryptConnection P × Event × CryptConnection P) : Prop where
  moves : Moves x.1.challenging x.2.2.challenging
  firstprompt_iff : .firstprompt ∈ x.1.calls x.2.1 ↔
    x.1.challenging ≠ Accepted ∧ x.2.2.challenging = Accepted
  lineread : ∀ l, .lineread l ∈ x.1.calls x.2.1 →
    x.1.challenging = Accepted ∧ x.2.2.challenging = Accepted ∧ x.2.2.tdin.isSome = true

/-- Every step but an opening keeps the discipline. -/
theorem stepDiscipline_of_step {c c' : CryptConnection P} {e : Event}
    (hopen : ∀ u, e ≠ .opencrypt u) (h : c.step e = some c') : StepDiscipline (c, e, c') := by
  obtain ⟨hm, hcalls⟩ := react_step hopen (step_eq_some_iff.mp h)
  refine ⟨hm, ?_, ?_⟩
  · show .firstprompt ∈ c.calls e ↔ c.challenging ≠ Accepted ∧ c'.challenging = Accepted
    generalize c.calls e = cs at hcalls
    cases hcalls with
    | silent ha => exact ⟨fun hx => (nomatch hx), fun hx => absurd (ha hx.2) hx.1⟩
    | accepted hs ha =>
      exact ⟨fun _ => ⟨by rw [hs]; decide, ha⟩, fun _ => List.mem_singleton_self _⟩
    | record temp hs ha htd =>
      constructor
      · intro hmem
        obtain ⟨l, -, hl⟩ := List.mem_map.mp hmem
        cases hl
      · exact fun hx => absurd hs hx.1
  · show ∀ l, .lineread l ∈ c.calls e →
      c.challenging = Accepted ∧ c'.challenging = Accepted ∧ c'.tdin.isSome = true
    generalize c.calls e = cs at hcalls
    cases hcalls with
    | silent => exact fun l hl => (nomatch hl)
    | accepted =>
      intro l hl
      cases List.mem_singleton.mp hl
    | record temp hs ha htd => exact fun l _ => ⟨hs, ha, htd⟩

/-- The steps of a run between two `opencrypt` calls. -/
theorem discipline_of_mem_steps {es : List Event} (hopen : NoOpen es) :
    ∀ {c : CryptConnection P} {x : CryptConnection P × Event × CryptConnection P},
      x ∈ Lib.steps step c es → StepDiscipline x := by
  induction es with
  | nil => intro c x hx; cases hx
  | cons e es ih =>
    intro c x hx
    cases he : c.step e with
    | none => rw [Lib.steps, he] at hx; cases hx
    | some d =>
      rw [Lib.steps_cons_some he] at hx
      rcases List.mem_cons.mp hx with rfl | hx
      · exact stepDiscipline_of_step (hopen e List.mem_cons_self) he
      · exact ih (fun e' h' => hopen e' (List.mem_cons_of_mem _ h')) hx

/-- Entering `Accepted` calls `firstprompt` once, any other step does not. -/
theorem count_firstprompt {c c' : CryptConnection P} {e : Event} (hopen : ∀ u, e ≠ .opencrypt u)
    (h : c.step e = some c') :
    (c.calls e).count .firstprompt
      = if c.challenging ≠ Accepted ∧ c'.challenging = Accepted then 1 else 0 := by
  obtain ⟨-, hcalls⟩ := react_step hopen (step_eq_some_iff.mp h)
  generalize c.calls e = cs at hcalls
  cases hcalls with
  | silent ha =>
    rw [if_neg fun hx => hx.1 (ha hx.2)]
    rfl
  | accepted hs ha =>
    rw [if_pos ⟨by rw [hs]; decide, ha⟩]
    rfl
  | record temp hs ha htd =>
    rw [if_neg fun hx => hx.1 hs]
    refine List.count_eq_zero_of_not_mem fun hmem => ?_
    obtain ⟨l, -, hl⟩ := List.mem_map.mp hmem
    cases hl

/-- What a run calls on the application. -/
def runCalls (c : CryptConnection P) (es : List Event) : List Call :=
  (Lib.steps step c es).flatMap fun x => x.1.calls x.2.1

/-- **Run lemma**: between two `opencrypt` calls the state moves forward, and
`firstprompt` is called once if `Accepted` is entered and never otherwise. -/
theorem run_forward {es : List Event} (hopen : NoOpen es) :
    ∀ {c c' : CryptConnection P}, Lib.run step c es = some c' →
      c.challenging.Forward c'.challenging ∧
      (runCalls c es).count .firstprompt
        = if c.challenging ≠ Accepted ∧ c'.challenging = Accepted then 1 else 0 := by
  induction es with
  | nil =>
    intro c c' h
    cases h
    refine ⟨.inl rfl, ?_⟩
    rw [if_neg fun hx => hx.1 hx.2]
    rfl
  | cons e es ih =>
    intro c c' h
    rw [Lib.run_cons] at h
    obtain ⟨d, hd, hrun⟩ := Option.bind_eq_some_iff.mp h
    have he : ∀ u, e ≠ .opencrypt u := hopen e List.mem_cons_self
    obtain ⟨hf, hcount⟩ := ih (fun e' h' => hopen e' (List.mem_cons_of_mem _ h')) hrun
    have hm := (react_step he (step_eq_some_iff.mp hd)).1.forward
    refine ⟨hm.trans hf, ?_⟩
    have hcalls : runCalls c (e :: es) = c.calls e ++ runCalls d es := by
      rw [runCalls, Lib.steps, hd]
      rfl
    rw [hcalls, List.count_append, count_firstprompt he hd, hcount]
    -- `Accepted` is not left, so at most one of the two enters it
    revert hm hf
    generalize c.challenging = s, d.challenging = t, c'.challenging = u
    cases s <;> cases t <;> cases u <;> decide

end CryptConnection

/-! ## A key and a platform to compute with

The values are Twofish's and MD5's own on the inputs the runs below and in later
modules meet: streams of ciphertext under one key and IV, and the salted hashes of two
announcements. -/

/-- A text and its ciphertext. -/
structure Stream where
  text : Bytes
  cipher : Bytes

/-- The first byte of the encrypted register, where the ciphertext behind `IV` goes
through the register. -/
def feedback (reg : Bytes) : (window text cipher : Bytes) → Option UInt8
  | w, p :: ps, c :: cs => if w.take 16 = reg then some (c ^^^ p) else feedback reg (w.drop 1) ps cs
  | _, _, _ => none

/-- The bytes from `a` on, `n` of them. -/
def bytesFrom (a n : Nat) : Bytes := (List.range n).map fun i => UInt8.ofNat (a + i)

def sampleKey : QiCrKey where
  key := bytesFrom 0 16
  IV := bytesFrom 16 16
  keyID := [222, 173, 190, 239] ++ str "probe"

/-- The challenges `bytesFrom 0 64` and `bytesFrom 64 64`, one sent and the other
echoed, with a text behind each pair; and a text alone. -/
def sampleStreams : List Stream := [
  ⟨bytesFrom 0 128 ++ str "list", [
   222, 69, 107, 130, 253, 8, 117, 174, 33, 87, 226, 133, 15, 86, 137, 181, 100, 81, 81, 174,
   92, 162, 107, 44, 237, 13, 82, 191, 251, 190, 119, 11, 133, 207, 72, 142, 76, 210, 224, 66,
   49, 57, 78, 231, 84, 85, 194, 117, 118, 201, 46, 49, 226, 42, 188, 63, 100, 104, 177, 233,
   102, 199, 51, 79, 24, 34, 133, 81, 101, 165, 18, 168, 220, 187, 154, 86, 159, 85, 227, 30,
   110, 156, 154, 47, 211, 193, 35, 8, 20, 55, 29, 244, 211, 198, 101, 143, 17, 78, 140, 72,
   22, 230, 181, 94, 108, 78, 226, 253, 190, 82, 131, 139, 211, 162, 129, 199, 183, 205, 100,
   0, 244, 234, 253, 153, 97, 220, 13, 206, 239, 99, 116, 31]⟩,
  ⟨bytesFrom 64 64 ++ bytesFrom 0 64 ++ str "qigong.", [
   158, 25, 43, 104, 59, 169, 197, 208, 234, 1, 96, 40, 42, 209, 0, 119, 60, 64, 79, 97, 233,
   61, 202, 235, 138, 18, 160, 150, 16, 106, 33, 252, 16, 243, 217, 199, 200, 253, 33, 129, 70,
   27, 187, 169, 40, 125, 45, 251, 119, 80, 152, 222, 102, 21, 9, 228, 162, 28, 119, 23, 9, 56,
   11, 136, 188, 170, 10, 217, 110, 26, 123, 187, 13, 109, 156, 6, 217, 206, 185, 203, 186, 95,
   132, 2, 74, 17, 135, 192, 143, 223, 145, 85, 103, 108, 120, 125, 123, 114, 35, 36, 2, 214,
   112, 71, 15, 170, 150, 81, 136, 37, 43, 74, 99, 221, 65, 176, 50, 161, 46, 249, 113, 141,
   213, 94, 238, 158, 197, 60, 246, 125, 160, 221, 126, 17, 138]⟩,
  ⟨str "help", [182, 227, 224, 48]⟩]

def sampleF (_key reg : Bytes) : UInt8 :=
  (sampleStreams.findSome? fun s => feedback reg (sampleKey.IV ++ s.cipher) s.text s.cipher).getD 0

def sampleMhash : Mhash where
  keygen_uses_salt := true
  keygen_salt_size := 8
  keygen_ext salt data n :=
    let digest : Bytes :=
      if salt = [9, 10, 11, 12, 5, 6, 7, 8] ∧ data = sampleKey.keyID then
        [87, 219, 226, 105, 55, 9, 238, 255]
      else if salt = [1, 2, 3, 4, 13, 14, 15, 16] ∧ data = [] then
        [128, 202, 141, 58, 83, 198, 35, 47]
      else []
    some ((digest ++ List.replicate n 0).take n)
  keygen_ext_length salt data n r h := by
    obtain rfl := Option.some.inj h
    simp

abbrev samplePlatform : Platform := cfbPlatform sampleF sampleMhash false false

/-- The supplicant's side with the key. -/
def sampleSupplicant : CryptConnection samplePlatform :=
  { CryptConnection.unkeyed samplePlatform with
    issuplicant := true, qicrkey := some sampleKey, keyID := sampleKey.keyID }

example : CryptConnection.withKey samplePlatform (some sampleKey) = .ok sampleSupplicant := rfl

/-- What the calls of one line come to when none fails. -/
def fairEnv (salt3 challenge : Bytes) : LineEnv where
  salt3 := some salt3
  really := ⟨true, true, true, true, some challenge⟩

end Qigong.Crypt
