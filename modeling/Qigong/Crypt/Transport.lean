import Qigong.Crypt.Session

/-!
# The encrypted channel

`flush` encrypts and encodes a text in pieces of 2048 bytes, so that a record is a
concatenation of encodings, each with its own padding; `prelineread` decodes the
whole line and decrypts it in pieces of 2048 bytes of ciphertext. The pieces are the
same, since encryption keeps lengths (`decipher_record`), and a record holds no line
end, so the framing gives the records back (`cutLines_records`). The two ends stay in
step over any sequence of texts (`channel_round_trip`).
-/

namespace Qigong.Crypt

open ChallengeState

/-- Exclusive or with a key byte undoes itself. -/
theorem xor_xor_cancel (a k : UInt8) : a ^^^ k ^^^ k = a := by
  rw [UInt8.xor_assoc, UInt8.xor_self, UInt8.xor_zero]

/-- Cipher feedback undoes itself. -/
theorem Mcrypt.cfb_undoes (F : Bytes → Bytes → UInt8) : (Mcrypt.cfb F).Undoes :=
  Lib.cfb_undoes xor_xor_cancel

namespace CryptConnection

variable {P : Platform}

/-! ## Records on the wire -/

theorem noEol_encodeChunks (cs : List Bytes) : NoEol (encodeChunks cs) := by
  intro c hc
  obtain ⟨l, hl, hcl⟩ := List.mem_flatten.mp hc
  obtain ⟨p, -, rfl⟩ := List.mem_map.mp hl
  exact noEol_base64_encode p c hcl

theorem noEol_cipherRecord (st : P.mcrypt.State) (text : Bytes) : NoEol (cipherRecord st text) :=
  noEol_encodeChunks _

/-- A line without line ends in front of a stream, behind a part of it that was read
before. -/
theorem cutLines_line {line : Bytes} (h : NoEol line) (cur rest : Bytes) :
    cutLines cur (line ++ (recordEnd ++ rest))
      = ((cur ++ line) :: (cutLines [] rest).1, (cutLines [] rest).2) := by
  induction line generalizing cur with
  | nil =>
    rw [List.nil_append, List.append_nil]
    show cutLines cur (10 :: 13 :: rest) = _
    rw [cutLines, if_pos (by decide), if_pos (by decide)]
  | cons c line ih =>
    obtain ⟨hc, hline⟩ := noEol_cons.mp h
    have hne : line ++ (recordEnd ++ rest) ≠ [] := by
      simp [recordEnd]
    obtain ⟨d, s, hs⟩ := List.exists_cons_of_ne_nil hne
    rw [List.cons_append, hs, cutLines, if_neg (by simp [hc]), ← hs, ih hline, List.append_assoc,
      List.singleton_append]

/-- What is written to the wire for a list of lines. -/
def wire (lines : List Bytes) : Bytes := lines.flatMap (· ++ recordEnd)

theorem wire_cons (line : Bytes) (lines : List Bytes) :
    wire (line :: lines) = line ++ (recordEnd ++ wire lines) := by
  rw [wire, List.flatMap_cons, List.append_assoc]
  rfl

/-- The framing gives back the lines that were written. -/
theorem cutLines_wire {lines : List Bytes} (h : ∀ l ∈ lines, NoEol l) :
    cutLines [] (wire lines) = (lines, []) := by
  induction lines with
  | nil => rfl
  | cons l ls ih =>
    rw [wire_cons, cutLines_line (h l List.mem_cons_self),
      ih fun k hk => h k (List.mem_cons_of_mem _ hk), List.nil_append]

/-! ## One record -/

theorem bufsize_pos : 0 < bufsize := by decide

/-- **A record deciphers to its text**, and takes `tdin` where it has taken the
sender's `tdout`. -/
theorem deciphered_record (h : P.mcrypt.Undoes) {d : CryptConnection P} {s : P.mcrypt.State}
    (hd : d.tdin = some s) (text : Bytes) :
    d.deciphered (cipherRecord s text)
      = (0, text, { d with bufin := [], tdin := some (cipherAfter s text) }) := by
  have hdecode : base64_decode (cipherRecord s text)
      = (true, (P.mcrypt.encryptChunks s (Lib.chunks bufsize text)).1.flatten) :=
    base64_decode_pieces _
  have hchunks := Lib.StreamCipher.chunks_encryptChunks bufsize_pos s text
  have hdecrypt := Lib.StreamCipher.decryptChunks_encryptChunks h s (Lib.chunks bufsize text)
  rw [Lib.chunks_flatten bufsize_pos] at hdecrypt
  exact deciphered_of_decrypt hd hdecode ((congrArg _ hchunks).trans hdecrypt)

/-- In state `Accepted` a record is cut into the lines of its text. -/
theorem receive_record (h : P.mcrypt.Undoes) {d : CryptConnection P} {st : P.mcrypt.State}
    (hd : d.tdin = some st) (hacc : d.challenging = Accepted) (env : LineEnv) (text : Bytes) :
    d.receive env (cipherRecord st text)
      = .ok ({ d with bufin := [], tdin := some (cipherAfter st text) },
          (splitRecord [] text).map .lineread) := by
  rw [receive_eq, deciphered_record h hd]
  dsimp only
  rw [if_neg (by simp), if_neg (by simp), onText_accepted (by exact hacc)]

/-! ## Sequences of texts -/

/-- Text after text, each written to `out` and flushed. -/
def sendAll (c : CryptConnection P) (texts : List Bytes) : CryptConnection P := texts.foldl send c

/-- The records of a sequence of texts. -/
def records (st : P.mcrypt.State) : List Bytes → List Bytes
  | [] => []
  | t :: ts => cipherRecord st t :: records (cipherAfter st t) ts

/-- The cipher state behind them. -/
def stateAfter (st : P.mcrypt.State) (texts : List Bytes) : P.mcrypt.State :=
  texts.foldl cipherAfter st

/-- Line after line received: the number of errors and the text `prelineread` obtains
from each. -/
def receiveAll (d : CryptConnection P) :
    List (LineEnv × Bytes) → Except Exn (CryptConnection P × List (Nat × Bytes))
  | [] => .ok (d, [])
  | (env, line) :: rest => do
    let r ← d.receive env line
    let t ← receiveAll r.1 rest
    return (t.1, ((d.deciphered line).1, (d.deciphered line).2.1) :: t.2)

theorem records_length (st : P.mcrypt.State) (texts : List Bytes) :
    (records st texts).length = texts.length := by
  induction texts generalizing st with
  | nil => rfl
  | cons t ts ih => exact congrArg Nat.succ (ih _)

theorem records_take (st : P.mcrypt.State) (texts : List Bytes) (n : Nat) :
    (records st texts).take n = records st (texts.take n) := by
  induction texts generalizing st n with
  | nil => simp [records]
  | cons t ts ih =>
    cases n with
    | zero => rfl
    | succ n => exact congrArg _ (ih _ n)

theorem noEol_records (st : P.mcrypt.State) (texts : List Bytes) :
    ∀ l ∈ records st texts, NoEol l := by
  induction texts generalizing st with
  | nil => intro l hl; cases hl
  | cons t ts ih =>
    intro l hl
    rcases List.mem_cons.mp hl with rfl | hl
    · exact noEol_cipherRecord st t
    · exact ih _ l hl

/-- One text sent under a cipher. -/
theorem send_cipher {c : CryptConnection P} {st : P.mcrypt.State} (hc : c.tdout = some st)
    (hout : c.out = []) (text : Bytes) :
    c.send text = { c with bufout := c.bufout ++ (cipherRecord st text ++ recordEnd),
                           tdout := some (cipherAfter st text), out := [] } := by
  have hw : (c.write text).tdout = some st := hc
  rw [send, flush_cipher hw, write, hout, List.nil_append]

/-- The sender writes the records of the texts, and its cipher follows them. -/
theorem sendAll_eq (texts : List Bytes) {c : CryptConnection P} {st : P.mcrypt.State}
    (hc : c.tdout = some st) (hout : c.out = []) :
    (c.sendAll texts).bufout = c.bufout ++ wire (records st texts) ∧
      (c.sendAll texts).tdout = some (stateAfter st texts) := by
  induction texts generalizing c st with
  | nil => exact ⟨(List.append_nil _).symm, hc⟩
  | cons t ts ih =>
    have hsend := send_cipher hc hout t
    have hrest : ((c.send t).sendAll ts).bufout
          = (c.send t).bufout ++ wire (records (cipherAfter st t) ts) ∧
        ((c.send t).sendAll ts).tdout = some (stateAfter (cipherAfter st t) ts) :=
      ih (by rw [hsend]) (by rw [hsend])
    refine ⟨?_, hrest.2⟩
    rw [sendAll, List.foldl_cons, ← sendAll, hrest.1, hsend, records, wire_cons]
    simp only [List.append_assoc]

/-- The peer obtains the texts, and its cipher follows the sender's. -/
theorem receiveAll_records (h : P.mcrypt.Undoes) (texts : List Bytes) {d : CryptConnection P}
    {st : P.mcrypt.State} (hd : d.tdin = some st) (hacc : d.challenging = Accepted)
    {evs : List (LineEnv × Bytes)} (hevs : evs.map Prod.snd = records st texts) :
    ∃ d', d.receiveAll evs = .ok (d', texts.map fun t => (0, t)) ∧
      d'.tdin = some (stateAfter st texts) := by
  induction texts generalizing d st evs with
  | nil =>
    rw [List.map_eq_nil_iff.mp hevs]
    exact ⟨d, rfl, hd⟩
  | cons t ts ih =>
    cases evs with
    | nil => cases hevs
    | cons ev evs =>
      obtain ⟨env, line⟩ := ev
      obtain ⟨hline, hrest⟩ := List.cons_eq_cons.mp hevs
      obtain rfl : line = cipherRecord st t := hline
      obtain ⟨d', hall, htd⟩ := ih (d := { d with bufin := [], tdin := some (cipherAfter st t) })
        rfl hacc hrest
      refine ⟨d', ?_, htd⟩
      rw [receiveAll, receive_record h hd hacc, deciphered_record h hd]
      show (do let t ← receiveAll _ evs; _) = _
      rw [hall]
      rfl

/-- **Round trip over the encrypted channel**: any sequence of texts arrives whole and
in order, with no error, and after each record the two ciphers are in the same
state again. -/
theorem channel_round_trip (hundo : P.mcrypt.Undoes) {c d : CryptConnection P}
    {st : P.mcrypt.State} (hc : c.tdout = some st) (hout : c.out = []) (hd : d.tdin = some st)
    (hacc : d.challenging = Accepted) (texts : List Bytes) :
    ∃ lines : List Bytes,
      (c.sendAll texts).bufout = c.bufout ++ wire lines ∧ lines.length = texts.length ∧
      cutLines [] (wire lines) = (lines, []) ∧
      ∀ evs : List (LineEnv × Bytes), evs.map Prod.snd = lines → ∀ n, ∃ d' st',
        d.receiveAll (evs.take n) = .ok (d', (texts.take n).map fun t => (0, t)) ∧
        (c.sendAll (texts.take n)).tdout = some st' ∧ d'.tdin = some st' := by
  refine ⟨records st texts, (sendAll_eq texts hc hout).1, records_length st texts,
    cutLines_wire (noEol_records st texts), fun evs hevs n => ?_⟩
  have htake : (evs.take n).map Prod.snd = records st (texts.take n) := by
    rw [List.map_take, hevs, records_take]
  obtain ⟨d', hall, htd⟩ := receiveAll_records hundo (texts.take n) hd hacc htake
  exact ⟨d', _, hall, (sendAll_eq (texts.take n) hc hout).2, htd⟩

/-- Two connections behind the handshake, with one key and IV in both directions. -/
theorem channel_round_trip_sample :
    ∃ lines : List Bytes,
      (sendAll { unkeyed samplePlatform with tdout := some (sampleKey.key, sampleKey.IV) }
        [str "help", []]).bufout = [] ++ wire lines ∧ lines.length = 2 ∧
      cutLines [] (wire lines) = (lines, []) ∧
      ∀ evs : List (LineEnv × Bytes), evs.map Prod.snd = lines → ∀ n, ∃ d' st',
        receiveAll { unkeyed samplePlatform with
            tdin := some (sampleKey.key, sampleKey.IV), challenging := Accepted } (evs.take n)
          = .ok (d', ([str "help", []].take n).map fun t => (0, t)) ∧
        (sendAll { unkeyed samplePlatform with tdout := some (sampleKey.key, sampleKey.IV) }
          ([str "help", []].take n)).tdout = some st' ∧ d'.tdin = some st' :=
  channel_round_trip (Mcrypt.cfb_undoes sampleF) rfl rfl rfl rfl [str "help", []]

end CryptConnection

end Qigong.Crypt
