import Qigong.Crypt.Base64
import Qigong.Crypt.Key
import Qigong.Lib.Machine
import Qigong.Lib.StreamCipher

/-!
# `CryptConnection` (qicrypt.h:60–95, qicrypt.cpp:450–903)

The state of one end of an encrypted connection and the functions that change it,
one definition for each function of the source. Outside the repository, and so
parameters (`Platform`):

- libmcrypt (`Mcrypt`): a stream cipher, the size of its IV and the state a
  descriptor is in after `mcrypt_generic_init`; which calls fail is an input of
  each step (`ReallyEnv`);
- libmhash (`Mhash`) and what `/dev/urandom` gives (`Urandom`);
- qiconn's `flushandclose`: it asks for the connection to be closed once its output
  is written, and may call `flush` first.

`prelineread` calls the virtual functions `firstprompt` and `lineread` of the
application behind everything it does to the crypt state itself; its model returns
these calls in order (`Call`).
-/

namespace Qigong.Crypt

/-- libmcrypt's algorithm and mode as the code opens them, `"twofish"` and `"cfb"`. -/
structure Mcrypt extends Lib.StreamCipher.{0, 0} UInt8 where
  /-- `mcrypt_enc_get_iv_size`. -/
  enc_get_iv_size : Nat
  /-- The state of a descriptor after `mcrypt_generic_init (td, key, keysize, IV)`. -/
  generic_init : (key IV : Bytes) → State

/-- Mode `"cfb"` over a block cipher of 16 bytes: cipher feedback of one byte, `F key`
being the first byte of the encrypted register. -/
def Mcrypt.cfb (F : Bytes → Bytes → UInt8) : Mcrypt where
  toStreamCipher := Lib.cfb (· ^^^ ·) F
  enc_get_iv_size := 16
  generic_init key IV := (key, IV)

/-- What lies outside the repository, and the debug switch of the program. -/
structure Platform where
  mcrypt : Mcrypt
  mhash : Mhash
  /-- `debugcrypt` (qicrypt.cpp:18). -/
  debugcrypt : Bool
  /-- qiconn's `flushandclose` calls `flush`. -/
  closeFlushes : Bool

/-- A platform whose libmcrypt is one-byte cipher feedback. -/
abbrev cfbPlatform (F : Bytes → Bytes → UInt8) (H : Mhash) (debugcrypt closeFlushes : Bool) :
    Platform := ⟨.cfb F, H, debugcrypt, closeFlushes⟩

/-- `CryptConnectionChallengeState` (qicrypt.h:52–58). -/
inductive ChallengeState where
  | WaitingRemoteSalt
  | WaitingHash
  | WaitingChallenge
  | WaitingAnswer
  | Refused
  | Accepted
deriving DecidableEq, Repr

open ChallengeState

/-- A `CryptConnection`. A descriptor that is `MCRYPT_FAILED` is `none`; `out` is what
the application has written and not flushed; `bufin` and `bufout` are the buffers of
the socket; `closing` and `doomed` record `flushandclose` and
`schedule_for_destruction`. -/
structure CryptConnection (P : Platform) where
  key : Bytes
  IVin : Bytes
  IVout : Bytes
  keyID : Bytes
  tdin : Option P.mcrypt.State
  tdout : Option P.mcrypt.State
  challenging : ChallengeState
  challenge : Bytes
  salt1 : Bytes
  keyring : Option KeyRing
  qicrkey : Option QiCrKey
  issuplicant : Bool
  out : Bytes
  bufin : Bytes
  bufout : Bytes
  maxpendsize : Option Nat
  closing : Bool
  doomed : Bool

/-- What `prelineread` calls on the application. -/
inductive Call where
  | firstprompt
  | lineread (bufin : Bytes)
deriving DecidableEq, Repr

/-- The outcomes of the calls `reallycrypt` makes: `mcrypt_module_open` and
`mcrypt_generic_init` for either descriptor, and `/dev/urandom`. -/
structure ReallyEnv where
  openIn : Bool
  initIn : Bool
  openOut : Bool
  initOut : Bool
  urandom : Urandom

/-- The outcomes of the calls `prelineread` may make for one line. -/
structure LineEnv where
  salt3 : Urandom
  really : ReallyEnv

namespace CryptConnection

variable {P : Platform}

/-! ## Output -/

/-- The size of the buffers of `flush` and `prelineread`. -/
def bufsize : Nat := 2048

/-- The loop of `flush` over the encrypted chunks: each is encoded on its own. -/
def encodeChunks (cs : List Bytes) : Bytes := (cs.map base64_encode).flatten

/-- The two bytes `flush` ends a record with. -/
def recordEnd : Bytes := [10, 13]

/-- `CryptConnection::flush` (qicrypt.cpp:877–903). -/
def flush (c : CryptConnection P) : CryptConnection P :=
  match c.tdout with
  | some td =>
    let r := P.mcrypt.encryptChunks td (Lib.chunks bufsize c.out)
    { c with bufout := c.bufout ++ encodeChunks r.1 ++ recordEnd, tdout := some r.2, out := [] }
  | none =>
    if c.challenging = WaitingRemoteSalt ∨ c.challenging = WaitingHash then
      { c with bufout := c.bufout ++ base64_encode c.out ++ recordEnd, out := [] }
    else { c with out := [] }

/-- `(*out) << text`. -/
def write (c : CryptConnection P) (text : Bytes) : CryptConnection P :=
  { c with out := c.out ++ text }

/-- qiconn's `flushandclose`. -/
def flushandclose (c : CryptConnection P) : CryptConnection P :=
  { (if P.closeFlushes then c.flush else c) with closing := true }

/-- qiconn's `schedule_for_destruction`. -/
def schedule_for_destruction (c : CryptConnection P) : CryptConnection P :=
  { c with doomed := true }

/-- `c'` differs from `c` on its output side and in its closing flags only. -/
structure Keeps (c c' : CryptConnection P) : Prop where
  key : c'.key = c.key
  IVin : c'.IVin = c.IVin
  IVout : c'.IVout = c.IVout
  keyID : c'.keyID = c.keyID
  tdin : c'.tdin = c.tdin
  challenging : c'.challenging = c.challenging
  challenge : c'.challenge = c.challenge
  salt1 : c'.salt1 = c.salt1
  keyring : c'.keyring = c.keyring
  qicrkey : c'.qicrkey = c.qicrkey
  issuplicant : c'.issuplicant = c.issuplicant
  bufin : c'.bufin = c.bufin

theorem Keeps.trans {c c' c'' : CryptConnection P} (h : Keeps c c') (h' : Keeps c' c'') :
    Keeps c c'' where
  key := h'.key.trans h.key
  IVin := h'.IVin.trans h.IVin
  IVout := h'.IVout.trans h.IVout
  keyID := h'.keyID.trans h.keyID
  tdin := h'.tdin.trans h.tdin
  challenging := h'.challenging.trans h.challenging
  challenge := h'.challenge.trans h.challenge
  salt1 := h'.salt1.trans h.salt1
  keyring := h'.keyring.trans h.keyring
  qicrkey := h'.qicrkey.trans h.qicrkey
  issuplicant := h'.issuplicant.trans h.issuplicant
  bufin := h'.bufin.trans h.bufin

theorem write_keeps (c : CryptConnection P) (text : Bytes) : Keeps c (c.write text) := by
  constructor <;> rfl

/-- Being scheduled for destruction changes no cipher state. -/
theorem schedule_keeps (c : CryptConnection P) : Keeps c c.schedule_for_destruction := by
  constructor <;> rfl

/-- The record `flush` writes for a text under a cipher state. -/
def cipherRecord (st : P.mcrypt.State) (text : Bytes) : Bytes :=
  encodeChunks (P.mcrypt.encryptChunks st (Lib.chunks bufsize text)).1

/-- The cipher state behind that record. -/
def cipherAfter (st : P.mcrypt.State) (text : Bytes) : P.mcrypt.State :=
  (P.mcrypt.encryptChunks st (Lib.chunks bufsize text)).2

/-- With a cipher for output a record is enciphered. -/
theorem flush_cipher {c : CryptConnection P} {st : P.mcrypt.State} (h : c.tdout = some st) :
    c.flush = { c with bufout := c.bufout ++ (cipherRecord st c.out ++ recordEnd),
                       tdout := some (cipherAfter st c.out), out := [] } := by
  simp only [flush, h, cipherRecord, cipherAfter, List.append_assoc]

/-- Without one, the first lines of the handshake go out in clear, in base64. -/
theorem flush_clear {c : CryptConnection P} (h : c.tdout = none)
    (hc : c.challenging = WaitingRemoteSalt ∨ c.challenging = WaitingHash) :
    c.flush = { c with bufout := c.bufout ++ (base64_encode c.out ++ recordEnd), out := [] } := by
  simp only [flush, h, if_pos hc, List.append_assoc]

/-- Behind them what is written without a cipher is lost. -/
theorem flush_dropped {c : CryptConnection P} (h : c.tdout = none)
    (hc : ¬ (c.challenging = WaitingRemoteSalt ∨ c.challenging = WaitingHash)) :
    c.flush = { c with out := [] } := by
  simp only [flush, h, if_neg hc]

/-- What `flush` does whichever way it goes: it empties `out`, adds to `bufout`, and
keeps a cipher where there is one. -/
theorem flush_eq (c : CryptConnection P) :
    ∃ put td, c.flush = { c with bufout := c.bufout ++ put, tdout := td, out := [] } ∧
      td.isSome = c.tdout.isSome := by
  cases htd : c.tdout with
  | some st => exact ⟨_, _, flush_cipher htd, rfl⟩
  | none =>
    by_cases h : c.challenging = WaitingRemoteSalt ∨ c.challenging = WaitingHash
    · exact ⟨_, none, by rw [flush_clear htd h, ← htd], rfl⟩
    · exact ⟨[], none, by rw [flush_dropped htd h, ← htd, List.append_nil], rfl⟩

theorem flush_keeps (c : CryptConnection P) : Keeps c c.flush := by
  obtain ⟨put, td, h, -⟩ := c.flush_eq
  rw [h]
  constructor <;> rfl

theorem flushandclose_keeps (c : CryptConnection P) : Keeps c c.flushandclose := by
  have hflag : ∀ d : CryptConnection P, Keeps d { d with closing := true } := fun d => by
    constructor <;> rfl
  cases h : P.closeFlushes with
  | true =>
    have heq : c.flushandclose = { c.flush with closing := true } := by simp [flushandclose, h]
    rw [heq]
    exact c.flush_keeps.trans (hflag _)
  | false =>
    have heq : c.flushandclose = { c with closing := true } := by simp [flushandclose, h]
    rw [heq]
    exact hflag c

@[simp] theorem flush_challenging (c : CryptConnection P) : c.flush.challenging = c.challenging :=
  c.flush_keeps.challenging

@[simp] theorem flushandclose_challenging (c : CryptConnection P) :
    c.flushandclose.challenging = c.challenging := c.flushandclose_keeps.challenging

@[simp] theorem flush_tdin (c : CryptConnection P) : c.flush.tdin = c.tdin := c.flush_keeps.tdin

@[simp] theorem flushandclose_tdin (c : CryptConnection P) : c.flushandclose.tdin = c.tdin :=
  c.flushandclose_keeps.tdin

@[simp] theorem flush_challenge (c : CryptConnection P) : c.flush.challenge = c.challenge :=
  c.flush_keeps.challenge

@[simp] theorem flushandclose_challenge (c : CryptConnection P) :
    c.flushandclose.challenge = c.challenge := c.flushandclose_keeps.challenge

/-! ## Keys and descriptors -/

/-- `settlekey` (qicrypt.cpp:450–461) with a key that is not `NULL`. Under
`debugcrypt` it prints the readable ID, which throws on a short one. -/
def settlekey (c : CryptConnection P) (k : QiCrKey) : Except Exn (CryptConnection P) :=
  let c := { c with qicrkey := some k, key := k.key, IVin := k.IV, IVout := k.IV, keyID := k.keyID }
  if P.debugcrypt then k.getReadableID.map fun _ => c else .ok c

/-- The loop of `reallycrypt` that draws the challenge: `n` times `urandom.get ()`,
whose `EOF` is added as a byte like any other. -/
def drawChallenge : Nat → Bytes → Bytes
  | 0, _ => []
  | n + 1, b :: bs => b :: drawChallenge n bs
  | n + 1, [] => 0xff :: drawChallenge n []

/-- A challenge has the length asked for, however few bytes could be drawn. -/
theorem drawChallenge_length (n : Nat) (stream : Bytes) :
    (drawChallenge n stream).length = n := by
  induction n generalizing stream with
  | zero => rfl
  | succ n ih => cases stream <;> simp [drawChallenge, ih]

/-- The last part of `reallycrypt`: draw the challenge and send it. -/
def sendChallenge (urandom : Urandom) (c : CryptConnection P) : CryptConnection P :=
  let c := { c with challenge := [] }
  match urandom with
  | none => c.flushandclose
  | some stream =>
    let challenge := drawChallenge 64 stream
    ({ c with challenge := challenge }.write challenge).flush

/-- `CryptConnection::reallycrypt` (qicrypt.cpp:545–603). -/
def reallycrypt (env : ReallyEnv) (c : CryptConnection P) : CryptConnection P :=
  if env.openIn = false then { c with tdin := none }.flushandclose
  else if c.IVin.length ≠ P.mcrypt.enc_get_iv_size then { c with tdin := none }.flushandclose
  else if env.initIn = false then { c with tdin := none }.flushandclose
  else
    let c := { c with tdin := some (P.mcrypt.generic_init c.key c.IVin) }
    if env.openOut = false then { c with tdout := none }.flushandclose
    else if c.IVout.length ≠ P.mcrypt.enc_get_iv_size then { c with tdout := none }.flushandclose
    else if env.initOut = false then { c with tdout := none }.flushandclose
    else sendChallenge env.urandom { c with tdout := some (P.mcrypt.generic_init c.key c.IVout) }

/-- `tdin` gets initialised with the IV `IV`. -/
def ReadyIn (P : Platform) (env : ReallyEnv) (IV : Bytes) : Prop :=
  env.openIn = true ∧ IV.length = P.mcrypt.enc_get_iv_size ∧ env.initIn = true

/-- `tdout` gets initialised with the IV `IV`. -/
def ReadyOut (P : Platform) (env : ReallyEnv) (IV : Bytes) : Prop :=
  env.openOut = true ∧ IV.length = P.mcrypt.enc_get_iv_size ∧ env.initOut = true

/-- Without `tdin`, `reallycrypt` goes no further. -/
theorem reallycrypt_of_not_readyIn {env : ReallyEnv} {c : CryptConnection P}
    (h : ¬ ReadyIn P env c.IVin) : c.reallycrypt env = { c with tdin := none }.flushandclose := by
  unfold reallycrypt
  by_cases h1 : env.openIn = false
  · rw [if_pos h1]
  · by_cases h2 : c.IVin.length ≠ P.mcrypt.enc_get_iv_size
    · rw [if_neg h1, if_pos h2]
    · by_cases h3 : env.initIn = false
      · rw [if_neg h1, if_neg h2, if_pos h3]
      · exact absurd ⟨by simpa using h1, not_not.mp h2, by simpa using h3⟩ h

/-- Without `tdout`, `tdin` stays and no challenge is drawn. -/
theorem reallycrypt_of_not_readyOut {env : ReallyEnv} {c : CryptConnection P}
    (hin : ReadyIn P env c.IVin) (h : ¬ ReadyOut P env c.IVout) :
    c.reallycrypt env = { c with tdin := some (P.mcrypt.generic_init c.key c.IVin),
                                 tdout := none }.flushandclose := by
  obtain ⟨h1, h2, h3⟩ := hin
  unfold reallycrypt
  rw [if_neg (by simp [h1]), if_neg (by simp [h2]), if_neg (by simp [h3])]
  dsimp only
  by_cases h4 : env.openOut = false
  · rw [if_pos h4]
  · by_cases h5 : c.IVout.length ≠ P.mcrypt.enc_get_iv_size
    · rw [if_neg h4, if_pos h5]
    · by_cases h6 : env.initOut = false
      · rw [if_neg h4, if_neg h5, if_pos h6]
      · exact absurd ⟨by simpa using h4, not_not.mp h5, by simpa using h6⟩ h

/-- With both descriptors the challenge is drawn and sent. -/
theorem reallycrypt_of_ready {env : ReallyEnv} {c : CryptConnection P}
    (hin : ReadyIn P env c.IVin) (hout : ReadyOut P env c.IVout) :
    c.reallycrypt env = sendChallenge env.urandom
      { c with tdin := some (P.mcrypt.generic_init c.key c.IVin),
               tdout := some (P.mcrypt.generic_init c.key c.IVout) } := by
  obtain ⟨h1, h2, h3⟩ := hin
  obtain ⟨h4, h5, h6⟩ := hout
  unfold reallycrypt
  rw [if_neg (by simp [h1]), if_neg (by simp [h2]), if_neg (by simp [h3])]
  dsimp only
  rw [if_neg (by simp [h4]), if_neg (by simp [h5]), if_neg (by simp [h6])]

/-- Sending the challenge changes neither the input cipher nor the keys. -/
theorem sendChallenge_keeps (urandom : Urandom) (c : CryptConnection P) :
    (sendChallenge urandom c).tdin = c.tdin ∧ (sendChallenge urandom c).key = c.key ∧
      (sendChallenge urandom c).IVin = c.IVin := by
  cases urandom with
  | none =>
    have h := flushandclose_keeps { c with challenge := [] }
    exact ⟨h.tdin, h.key, h.IVin⟩
  | some stream =>
    have h := flush_keeps
      (({ c with challenge := drawChallenge 64 stream } : CryptConnection P).write
        (drawChallenge 64 stream))
    exact ⟨h.tdin, h.key, h.IVin⟩

/-- Whichever way `reallycrypt` goes, `tdin` is as it was initialised, or missing. -/
theorem reallycrypt_tdin (env : ReallyEnv) (c : CryptConnection P) :
    ((c.reallycrypt env).tdin = none ∨
      (c.reallycrypt env).tdin = some (P.mcrypt.generic_init c.key c.IVin)) ∧
    (c.reallycrypt env).key = c.key ∧ (c.reallycrypt env).IVin = c.IVin := by
  by_cases hin : ReadyIn P env c.IVin
  · by_cases hout : ReadyOut P env c.IVout
    · rw [reallycrypt_of_ready hin hout]
      obtain ⟨htd, hkey, hIV⟩ := sendChallenge_keeps env.urandom
        { c with tdin := some (P.mcrypt.generic_init c.key c.IVin),
                 tdout := some (P.mcrypt.generic_init c.key c.IVout) }
      exact ⟨.inr htd, hkey, hIV⟩
    · rw [reallycrypt_of_not_readyOut hin hout]
      have h := flushandclose_keeps
        { c with tdin := some (P.mcrypt.generic_init c.key c.IVin), tdout := none }
      exact ⟨.inr h.tdin, h.key, h.IVin⟩
  · rw [reallycrypt_of_not_readyIn hin]
    have h := flushandclose_keeps { c with tdin := none }
    exact ⟨.inl h.tdin, h.key, h.IVin⟩

/-- `CryptConnection::opencrypt` (qicrypt.cpp:605–616). A salt that could not be read
sets `Refused` only until the state is set again below. -/
def opencrypt (urandom : Urandom) (c : CryptConnection P) : CryptConnection P :=
  let s := getsaltforurandom urandom 4
  let c := { c with salt1 := s.2 }
  let c := if s.1 then c else { c with challenging := Refused }.flushandclose
  { c.write c.salt1 with challenging := WaitingRemoteSalt }.flush

/-- `CryptConnection::closecrypt` (qicrypt.cpp:618–627). -/
def closecrypt (c : CryptConnection P) : CryptConnection P :=
  { c with tdin := none, tdout := none }

/-! ## Input -/

/-- `prelineread` in state `WaitingRemoteSalt` (qicrypt.cpp:745–772). -/
def onRemoteSalt (env : LineEnv) (c : CryptConnection P) (salt2 : Bytes) : CryptConnection P :=
  let s := getsaltforurandom env.salt3 4
  if s.1 = false then { c with challenging := Refused }.flushandclose
  else
    match gen2sk P.mhash 8 salt2 s.2 c.keyID with
    | none => { c with challenging := Refused }.flushandclose
    | some hash => { ((c.write s.2).write hash).flush with challenging := WaitingHash }

/-- The key is settled and the ciphers are set up; the state is set whatever
`reallycrypt` came to (qicrypt.cpp:786–789 and 793–796). -/
def settleAndCrypt (env : ReallyEnv) (c : CryptConnection P) (k : QiCrKey) :
    Except Exn (CryptConnection P) :=
  (c.settlekey k).map fun c => { c.reallycrypt env with challenging := WaitingChallenge }

/-- The key `prelineread` settles for an announced hash (qicrypt.cpp:779–798): the
keyring's side looks it up, the supplicant's side takes its own whatever the hash. -/
def keyForHash (c : CryptConnection P) (salt4 hash : Bytes) : Option QiCrKey :=
  match c.issuplicant, c.keyring with
  | false, some keyring => keyring.retreivekey P.mhash c.salt1 salt4 hash
  | _, _ => c.qicrkey

/-- `prelineread` in state `WaitingHash` (qicrypt.cpp:774–804). -/
def onHash (env : ReallyEnv) (c : CryptConnection P) (temp : Bytes) :
    Except Exn (CryptConnection P) :=
  let salt4 := temp.take 4
  (substr temp 4).bind fun hash =>
    match c.keyForHash salt4 hash with
    | none => .ok { c with challenging := Refused }.flushandclose
    | some k => c.settleAndCrypt env k

/-- `prelineread` in state `WaitingChallenge` (qicrypt.cpp:806–817). -/
def onChallenge (c : CryptConnection P) (temp : Bytes) : CryptConnection P :=
  if temp = c.challenge then { c with challenging := Refused }.flushandclose
  else { (c.write temp).flush with challenging := WaitingAnswer }

/-- `prelineread` in state `WaitingAnswer` (qicrypt.cpp:818–828). -/
def onAnswer (c : CryptConnection P) (temp : Bytes) : CryptConnection P × List Call :=
  if temp = c.challenge then ({ c with challenging := Accepted }, [.firstprompt])
  else ({ c with challenging := Refused }.flushandclose, [])

/-- The lines `prelineread` cuts a decrypted record into (qicrypt.cpp:837–874),
`cur` being the line under way. A record without a line end is one line, even when
it is empty; behind the last line end an empty rest is no line. -/
def splitRecord (cur : Bytes) : Bytes → List Bytes
  | [] => [cur]
  | [c] => if isEol c then [cur] else [cur ++ [c]]
  | c :: d :: rest =>
    if isEol c then
      if isEolPair c d then
        if rest = [] then [cur] else cur :: splitRecord [] rest
      else cur :: splitRecord [] (d :: rest)
    else splitRecord (cur ++ [c]) (d :: rest)

/-- `prelineread` behind decoding and decryption (qicrypt.cpp:743–874). -/
def onText (env : LineEnv) (c : CryptConnection P) (temp : Bytes) :
    Except Exn (CryptConnection P × List Call) :=
  match c.challenging with
  | WaitingRemoteSalt => .ok (c.onRemoteSalt env temp, [])
  | WaitingHash => (c.onHash env.really temp).map fun c => (c, [])
  | WaitingChallenge => .ok (c.onChallenge temp, [])
  | WaitingAnswer => .ok (c.onAnswer temp)
  | Refused => .ok (c.flushandclose, [])
  | Accepted => .ok (c, (splitRecord [] temp).map .lineread)

/-- Decoding and decryption in `prelineread` (qicrypt.cpp:711–730): the number of
errors, `temp`, and the connection behind them. Decoded bytes go through the cipher
also when decoding has failed. -/
def ungarble (c : CryptConnection P) : Nat × Bytes × CryptConnection P :=
  let d := base64_decode c.bufin
  let r := if d.1 then 0 else 1
  let c := { c with bufin := [] }
  match c.tdin with
  | some td =>
    let t := P.mcrypt.decryptChunks td (Lib.chunks bufsize d.2)
    (r + t.1, t.2.1, { c with tdin := some t.2.2 })
  | none => (r, d.2, c)

/-- `CryptConnection::prelineread` (qicrypt.cpp:710–875), on the line in `bufin`. -/
def prelineread (env : LineEnv) (c : CryptConnection P) :
    Except Exn (CryptConnection P × List Call) :=
  let u := c.ungarble
  let c := u.2.2
  if c.tdin.isNone ∧ c.challenging ≠ WaitingRemoteSalt ∧ c.challenging ≠ WaitingHash then
    .ok (c, [])   -- skipping lineread datas because of strange condition
  else if u.1 ≠ 0 then .ok (c.flushandclose.schedule_for_destruction, [])
  else c.onText env u.2.1

/-- The byte loop of `CryptConnection::read` with `raw` false (qicrypt.cpp:674–692):
the values of `bufin` it passes to `prelineread`, and what it leaves in `bufin`. A pair
is looked for inside the buffer only. -/
def cutLines (bufin : Bytes) : Bytes → List Bytes × Bytes
  | [] => ([], bufin)
  | [c] => if isEol c then ([bufin], []) else ([], bufin ++ [c])
  | c :: d :: s =>
    if isEol c then
      let r := if isEolPair c d then cutLines [] s else cutLines [] (d :: s)
      (bufin :: r.1, r.2)
    else cutLines (bufin ++ [c]) (d :: s)

/-- Is the line under way longer than the limit (qicrypt.cpp:699)? -/
def tooLong (maxpendsize : Option Nat) (bufin : Bytes) : Bool :=
  match maxpendsize with
  | none => false
  | some m => m < bufin.length

/-! ## The application's side -/

/-- The application writes a text and flushes it. -/
def send (c : CryptConnection P) (text : Bytes) : CryptConnection P := (c.write text).flush

/-- One whole line is received. -/
def receive (env : LineEnv) (line : Bytes) (c : CryptConnection P) :
    Except Exn (CryptConnection P × List Call) :=
  { c with bufin := line }.prelineread env

end CryptConnection

end Qigong.Crypt
