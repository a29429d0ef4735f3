import Qigong.Crypt.Transport

/-!
# The steps of the handshake when every call succeeds

One lemma for each line of a handshake, giving the connection behind it in full: the
peer's salt (`receive_salt`), its announcement (`receive_hash`), its challenge
(`receive_challenge`, `receive_mirror`) and the echo of ours (`receive_answer`,
`receive_wrong_answer`). The lemmas are about any cipher; what a line deciphers to is
a hypothesis of those that follow the settling of a key.
-/

namespace Qigong.Crypt

open ChallengeState

namespace CryptConnection

variable {P : Platform} {c d : CryptConnection P} {env : LineEnv} {line : Bytes}

/-- A line that deciphers is acted on where it is not skipped. -/
theorem receive_of_deciphered {text : Bytes} (h : c.deciphered line = (0, text, d))
    (hd : d.tdin.isSome = true ∨ d.challenging = WaitingRemoteSalt ∨ d.challenging = WaitingHash) :
    c.receive env line = d.onText env text := by
  rw [receive_eq, h]
  dsimp only
  rw [if_neg, if_neg (by simp)]
  rintro ⟨hnone, hr, hh⟩
  rcases hd with hd | hd | hd
  · rw [Option.isNone_iff_eq_none] at hnone
    rw [hnone] at hd
    cases hd
  · exact hr hd
  · exact hh hd

/-- A line in clear. -/
theorem deciphered_base64 (htd : c.tdin = none) (text : Bytes) :
    c.deciphered (base64_encode text) = (0, text, { c with bufin := [] }) := by
  rw [deciphered_clear htd, base64_decode_encode]
  rfl

/-- The connection is opened: its salt goes out in clear. -/
theorem opencrypt_eq {urandom : Urandom} {salt : Bytes} (htd : c.tdout = none) (hout : c.out = [])
    (h : getsaltforurandom urandom 4 = (true, salt)) :
    c.opencrypt urandom = { c with salt1 := salt, challenging := WaitingRemoteSalt,
                                   bufout := c.bufout ++ (base64_encode salt ++ recordEnd) } := by
  unfold opencrypt
  rw [h]
  dsimp only
  rw [if_pos rfl, flush_clear (by exact htd) (.inl rfl), write]
  simp only [hout, List.nil_append]

/-- The peer's salt is answered by a salt and the salted hash of the key's ID. -/
theorem receive_salt {salt2 salt3 hash : Bytes} (hs : c.challenging = WaitingRemoteSalt)
    (htd : c.tdin = none) (htd' : c.tdout = none) (hout : c.out = [])
    (hsalt : getsaltforurandom env.salt3 4 = (true, salt3))
    (hhash : gen2sk P.mhash 8 salt2 salt3 c.keyID = some hash) :
    c.receive env (base64_encode salt2)
      = .ok ({ c with bufin := [], challenging := WaitingHash,
                      bufout := c.bufout ++ (base64_encode (salt3 ++ hash) ++ recordEnd) }, []) := by
  rw [receive_of_deciphered (deciphered_base64 htd salt2) (.inr (.inl hs)), onText_salt (by exact hs)]
  simp only [onRemoteSalt, hsalt, hhash]
  rw [if_neg (by decide), flush_clear (by exact htd') (.inl (by exact hs))]
  simp only [write, hout, List.nil_append]

/-- The connection once a key is settled, its ciphers set up and the challenge sent. -/
def settled (c : CryptConnection P) (k : QiCrKey) (challenge : Bytes) : CryptConnection P :=
  let st := P.mcrypt.generic_init k.key k.IV
  { c with qicrkey := some k, key := k.key, IVin := k.IV, IVout := k.IV, keyID := k.keyID,
           tdin := some st, tdout := some (cipherAfter st challenge),
           challenging := WaitingChallenge, challenge := challenge, out := [],
           bufout := c.bufout ++ (cipherRecord st challenge ++ recordEnd) }

/-- Settling a key with `reallycrypt` running to its end. -/
theorem settled_eq {k : QiCrKey} {env : ReallyEnv} {stream : Bytes} (h : c.settlekey k = .ok d)
    (hout : c.out = []) (hin : ReadyIn P env k.IV) (hout' : ReadyOut P env k.IV)
    (hur : env.urandom = some stream) :
    { d.reallycrypt env with challenging := WaitingChallenge }
      = c.settled k (drawChallenge 64 stream) := by
  rw [settlekey_eq h, reallycrypt_of_ready (by exact hin) (by exact hout'), hur, sendChallenge]
  dsimp only
  rw [flush_cipher (by rfl)]
  simp only [write, hout, List.nil_append, settled]

/-- A key whose ID can be printed, where it is printed. -/
def Readable (P : Platform) (k : QiCrKey) : Prop := P.debugcrypt = true → 4 ≤ k.keyID.length

theorem settlekey_ok {k : QiCrKey} (h : Readable P k) : ∃ d, c.settlekey k = .ok d := by
  unfold settlekey
  cases hdebug : P.debugcrypt with
  | false => exact ⟨_, rfl⟩
  | true =>
    obtain ⟨r, hr⟩ := k.getReadableID_ok_iff.mpr (h hdebug)
    exact ⟨_, by rw [if_pos rfl, hr]; rfl⟩

/-- The peer's announcement settles the key. -/
theorem receive_hash {salt4 hash : Bytes} {k : QiCrKey} {stream : Bytes}
    (hs : c.challenging = WaitingHash) (htd : c.tdin = none) (hout : c.out = [])
    (hlen : salt4.length = 4) (hk : c.keyForHash salt4 hash = some k) (hread : Readable P k)
    (hin : ReadyIn P env.really k.IV) (hout' : ReadyOut P env.really k.IV)
    (hur : env.really.urandom = some stream) :
    c.receive env (base64_encode (salt4 ++ hash))
      = .ok (({ c with bufin := [] } : CryptConnection P).settled k (drawChallenge 64 stream), []) := by
  have hle : 4 ≤ (salt4 ++ hash).length := by
    rw [List.length_append]
    omega
  have hk' : ({ c with bufin := [] } : CryptConnection P).keyForHash
      ((salt4 ++ hash).take 4) ((salt4 ++ hash).drop 4) = some k := by
    rw [← hlen, List.take_left, List.drop_left]
    exact hk
  obtain ⟨d, hd⟩ := settlekey_ok (c := { c with bufin := [] }) hread
  rw [receive_of_deciphered (deciphered_base64 htd _) (.inr (.inr hs)), onText_hash (by exact hs),
    onHash_known hle hk', settleAndCrypt, hd]
  simp only [Except.map]
  rw [settled_eq hd hout hin hout' hur]

/-- The peer's challenge is echoed. -/
theorem receive_challenge {text : Bytes} {td td' : P.mcrypt.State}
    (hs : c.challenging = WaitingChallenge) (htd' : c.tdout = some td') (hout : c.out = [])
    (hd : c.deciphered line = (0, text, { c with bufin := [], tdin := some td }))
    (hne : text ≠ c.challenge) :
    c.receive env line
      = .ok ({ c with bufin := [], tdin := some td, challenging := WaitingAnswer, out := [],
                      tdout := some (cipherAfter td' text),
                      bufout := c.bufout ++ (cipherRecord td' text ++ recordEnd) }, []) := by
  rw [receive_of_deciphered hd (.inl rfl), onText_challenge (by exact hs), onChallenge]
  rw [if_neg (by exact hne), flush_cipher (by exact htd')]
  simp only [write, hout, List.nil_append]

/-- Our own challenge is not. -/
theorem receive_mirror {td : P.mcrypt.State} (hs : c.challenging = WaitingChallenge)
    (hd : c.deciphered line = (0, c.challenge, { c with bufin := [], tdin := some td })) :
    c.receive env line
      = .ok (({ c with bufin := [], tdin := some td, challenging := Refused } :
          CryptConnection P).flushandclose, []) := by
  rw [receive_of_deciphered hd (.inl rfl), onText_challenge (by exact hs), onChallenge, if_pos rfl]

/-- The echo of our challenge is accepted. -/
theorem receive_answer {td : P.mcrypt.State} (hs : c.challenging = WaitingAnswer)
    (hd : c.deciphered line = (0, c.challenge, { c with bufin := [], tdin := some td })) :
    c.receive env line
      = .ok ({ c with bufin := [], tdin := some td, challenging := Accepted }, [.firstprompt]) := by
  rw [receive_of_deciphered hd (.inl rfl), onText_answer (by exact hs), onAnswer, if_pos rfl]

/-- Anything else is refused. -/
theorem receive_wrong_answer {text : Bytes} {td : P.mcrypt.State}
    (hs : c.challenging = WaitingAnswer)
    (hd : c.deciphered line = (0, text, { c with bufin := [], tdin := some td }))
    (hne : text ≠ c.challenge) :
    c.receive env line
      = .ok (({ c with bufin := [], tdin := some td, challenging := Refused } :
          CryptConnection P).flushandclose, []) := by
  rw [receive_of_deciphered hd (.inl rfl), onText_answer (by exact hs), onAnswer, if_neg (by exact hne)]

end CryptConnection

end Qigong.Crypt
