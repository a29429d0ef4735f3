import Qigong.Crypt.Session

/-!
# What makes the crypt layer throw

In state `WaitingHash` a text is cut into a salt of 4 bytes and a hash, and the cut
throws on a text of fewer than 4 bytes. No other state slices what it has received,
so a session throws exactly at such a line (`session_throws_iff`); under
`debugcrypt`, also where it prints the readable ID of a settled key whose ID is
shorter than its salt.
-/

namespace Qigong.Crypt

open ChallengeState

namespace CryptConnection

variable {P : Platform}

/-- Under `debugcrypt`, the key settled for the text is one whose ID cannot be
printed. -/
def Unreadable (c : CryptConnection P) (temp : Bytes) : Prop :=
  P.debugcrypt = true ∧ ∃ k, c.keyForHash (temp.take 4) (temp.drop 4) = some k ∧ k.keyID.length < 4

/-- A line that deciphers, without an error, to a text too short to be a salt and a
hash, received where one is expected. -/
def ShortHash (c : CryptConnection P) (line : Bytes) : Prop :=
  c.challenging = WaitingHash ∧ (c.deciphered line).1 = 0 ∧
    ((c.deciphered line).2.1.length < 4 ∨
      (c.deciphered line).2.2.Unreadable (c.deciphered line).2.1)

theorem settlekey_error_iff {c : CryptConnection P} {k : QiCrKey} :
    (∃ x, c.settlekey k = .error x) ↔ P.debugcrypt = true ∧ k.keyID.length < 4 := by
  unfold settlekey
  cases hdebug : P.debugcrypt with
  | false => exact ⟨fun ⟨x, h⟩ => (nomatch h), fun h => (nomatch h.1)⟩
  | true =>
    have hok := k.getReadableID_ok_iff
    cases hr : k.getReadableID with
    | error x =>
      refine ⟨fun _ => ⟨rfl, ?_⟩, fun _ => ⟨x, rfl⟩⟩
      rw [hr] at hok
      exact Nat.lt_of_not_le fun h4 => (nomatch (hok.mpr h4).choose_spec)
    | ok r => exact ⟨fun ⟨x, h⟩ => (nomatch h), fun h => absurd (hok.mp ⟨r, hr⟩) (Nat.not_le.mpr h.2)⟩

theorem onHash_error_iff {c : CryptConnection P} (env : ReallyEnv) {temp : Bytes} :
    (∃ x, c.onHash env temp = .error x) ↔ temp.length < 4 ∨ c.Unreadable temp := by
  rcases Nat.lt_or_ge temp.length 4 with hlen | hlen
  · rw [onHash_short hlen]
    exact ⟨fun _ => .inl hlen, fun _ => ⟨_, rfl⟩⟩
  · have hnot : ¬ temp.length < 4 := Nat.not_lt.mpr hlen
    cases hk : c.keyForHash (temp.take 4) (temp.drop 4) with
    | none =>
      rw [onHash_unknown hlen hk]
      refine ⟨fun ⟨x, h⟩ => (nomatch h), fun h => ?_⟩
      rcases h with h | ⟨-, k, hk', -⟩
      · exact absurd h hnot
      · rw [hk] at hk'
        cases hk'
    | some k =>
      rw [onHash_known hlen hk, settleAndCrypt]
      have hset := settlekey_error_iff (c := c) (k := k)
      constructor
      · rintro ⟨x, h⟩
        cases hs : c.settlekey k with
        | error y => exact .inr ⟨(hset.mp ⟨y, hs⟩).1, k, hk, (hset.mp ⟨y, hs⟩).2⟩
        | ok d => rw [hs] at h; cases h
      · rintro (h | ⟨hdebug, k', hk', hshort⟩)
        · exact absurd h hnot
        · obtain rfl := Option.some.inj (hk.symm.trans hk')
          obtain ⟨x, hx⟩ := hset.mpr ⟨hdebug, hshort⟩
          exact ⟨x, by rw [hx]; rfl⟩

/-- A text throws in state `WaitingHash` only. -/
theorem onText_error_iff {c : CryptConnection P} {env : LineEnv} {temp : Bytes} :
    (∃ x, c.onText env temp = .error x) ↔
      c.challenging = WaitingHash ∧ (temp.length < 4 ∨ c.Unreadable temp) := by
  cases hs : c.challenging with
  | WaitingHash =>
    rw [onText_hash hs, ← onHash_error_iff env.really]
    constructor
    · rintro ⟨x, h⟩
      refine ⟨rfl, ?_⟩
      cases ho : c.onHash env.really temp with
      | error y => exact ⟨y, rfl⟩
      | ok d => rw [ho] at h; cases h
    · rintro ⟨-, x, hx⟩
      exact ⟨x, by rw [hx]; rfl⟩
  | WaitingRemoteSalt =>
    rw [onText_salt hs]
    exact ⟨fun ⟨x, h⟩ => (nomatch h), fun h => (nomatch h.1)⟩
  | WaitingChallenge =>
    rw [onText_challenge hs]
    exact ⟨fun ⟨x, h⟩ => (nomatch h), fun h => (nomatch h.1)⟩
  | WaitingAnswer =>
    rw [onText_answer hs]
    exact ⟨fun ⟨x, h⟩ => (nomatch h), fun h => (nomatch h.1)⟩
  | Refused =>
    rw [onText_refused hs]
    exact ⟨fun ⟨x, h⟩ => (nomatch h), fun h => (nomatch h.1)⟩
  | Accepted =>
    rw [onText_accepted hs]
    exact ⟨fun ⟨x, h⟩ => (nomatch h), fun h => (nomatch h.1)⟩

/-- **One line** throws exactly when it is a short hash. -/
theorem receive_error_iff (c : CryptConnection P) (env : LineEnv) (line : Bytes) :
    (∃ x, c.receive env line = .error x) ↔ c.ShortHash line := by
  have hd := deciphered_challenging c line
  rw [receive_eq, ShortHash]
  dsimp only
  split
  case isTrue hskip =>
    refine ⟨fun ⟨x, h⟩ => (nomatch h), fun h => ?_⟩
    rw [hd] at hskip
    exact absurd h.1 hskip.2.2
  case isFalse hskip =>
    by_cases hr : (c.deciphered line).1 = 0
    · rw [if_neg (not_not.mpr hr), onText_error_iff, hd]
      exact ⟨fun h => ⟨h.1, hr, h.2⟩, fun h => ⟨h.1, h.2.2⟩⟩
    · rw [if_pos hr]
      exact ⟨fun ⟨x, h⟩ => (nomatch h), fun h => absurd h.2.1 hr⟩

theorem step_eq_none_iff {c : CryptConnection P} {e : Event} :
    c.step e = none ↔ ∃ env line, e = .line env line ∧ c.ShortHash line := by
  cases e with
  | opencrypt u => exact ⟨fun h => (nomatch h), fun ⟨_, _, h, _⟩ => (nomatch h)⟩
  | closecrypt => exact ⟨fun h => (nomatch h), fun ⟨_, _, h, _⟩ => (nomatch h)⟩
  | send text => exact ⟨fun h => (nomatch h), fun ⟨_, _, h, _⟩ => (nomatch h)⟩
  | line env bytes =>
    have hiff := c.receive_error_iff env bytes
    constructor
    · intro h
      refine ⟨env, bytes, rfl, hiff.mp ?_⟩
      cases hr : c.receive env bytes with
      | error x => exact ⟨x, rfl⟩
      | ok r =>
        rw [step, react, hr] at h
        cases h
    · rintro ⟨env', line', he, hshort⟩
      obtain ⟨rfl, rfl⟩ := Event.line.inj he
      obtain ⟨x, hx⟩ := hiff.mpr hshort
      rw [step, react, hx]
      rfl

/-- **A session throws exactly at a short hash**: whatever is received from the
opening on, on either side and in any state. -/
theorem session_throws_iff (c : CryptConnection P) (urandom : Urandom) (es : List Event) :
    Lib.run step c (.opencrypt urandom :: es) = none ↔
      ∃ pre env line post d, es = pre ++ .line env line :: post ∧
        Lib.run step c (.opencrypt urandom :: pre) = some d ∧ d.ShortHash line := by
  have hopen : step c (.opencrypt urandom) = some (c.opencrypt urandom) := rfl
  rw [Lib.run_cons_some hopen, Lib.run_eq_none_iff]
  constructor
  · rintro ⟨pre, e, post, t, rfl, hpre, he⟩
    obtain ⟨env, line, rfl, hshort⟩ := step_eq_none_iff.mp he
    exact ⟨pre, env, line, post, t, rfl, (Lib.run_cons_some hopen pre).trans hpre, hshort⟩
  · rintro ⟨pre, env, line, post, d, rfl, hpre, hshort⟩
    rw [Lib.run_cons_some hopen] at hpre
    exact ⟨pre, .line env line, post, d, rfl, hpre, step_eq_none_iff.mpr ⟨env, line, rfl, hshort⟩⟩

/-- A peer without a key sends a salt and then an empty line: the connection throws. -/
theorem empty_line_throws :
    ¬ ∀ (P : Platform) (c : CryptConnection P) (urandom : Urandom) (es : List Event),
      Lib.run step c (.opencrypt urandom :: es) ≠ none := by
  intro h
  have hnone : (Lib.run step (withKeyring samplePlatform (some ⟨.empty⟩))
      [.opencrypt (some [1, 2, 3, 4]),
        .line (fairEnv [5, 6, 7, 8] []) (base64_encode [9, 10, 11, 12]),
        .line (fairEnv [] []) []]).isNone = true := by
    decide +kernel
  exact h samplePlatform _ _ _ (Option.isNone_iff_eq_none.mp hnone)

end CryptConnection

end Qigong.Crypt
