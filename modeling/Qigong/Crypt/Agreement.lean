import Qigong.Crypt.Handshake

/-!
# An honest handshake

A supplicant and a keyring connection that hold one key, joined by two channels of
whole lines. Either side opens when it likes, what it has put in `bufout` goes on its
way when the socket takes it, and the lines are delivered in order, one at a time, in
any interleaving (`World.step`).

Each side sends four lines: its salt, its announcement, its challenge, and the echo of
the other's challenge, each but the first in answer to the line of the same number
before it: counted so (`Tally.step`), the handshake is a small machine of its own.
`Parties.line` and `Parties.after` give the lines, and the connection behind each number
of lines received, in full, and the two connections refine the count (`Parties.step_at`).
It follows that no line is refused or dropped, and that the two sides agree once no line
is left (`honest_agreement`).
-/

namespace Qigong.Crypt

open ChallengeState CryptConnection

/-! ## The two ends and the channels -/

/-- The two sides. -/
inductive Side where
  | supplicant
  | ring
deriving DecidableEq, Repr

/-- The other side. -/
def Side.other : Side → Side
  | .supplicant => .ring
  | .ring => .supplicant

@[simp] theorem Side.other_ne (x : Side) : x.other ≠ x := by cases x <;> decide

@[simp] theorem Side.other_other (x : Side) : x.other.other = x := by cases x <;> rfl

/-- What holds of a side and of the other one holds of both. -/
theorem Side.forall_iff (x : Side) {p : Side → Prop} : (∀ y, p y) ↔ p x ∧ p x.other := by
  refine ⟨fun h => ⟨h x, h x.other⟩, fun ⟨hx, hother⟩ y => ?_⟩
  cases x <;> cases y <;> assumption

/-- One value for a side and one for the other. -/
def Side.pair {α : Type} (x : Side) (a b : α) : Side → α := fun y => if y = x then a else b

@[simp] theorem Side.pair_self {α : Type} (x : Side) (a b : α) : x.pair a b x = a := if_pos rfl

@[simp] theorem Side.pair_other {α : Type} (x : Side) (a b : α) : x.pair a b x.other = b :=
  if_neg x.other_ne

/-- What the calls of one side come to. A side draws each of its values once in a
handshake: the salt it opens with, the salt of its announcement, and its challenge. -/
structure Draw where
  opening : Urandom
  line : LineEnv

namespace Draw

/-- The salt the side opens with. -/
def salt1 (d : Draw) : Bytes := (getsaltforurandom d.opening 4).2

/-- The salt of its announcement. -/
def salt3 (d : Draw) : Bytes := (getsaltforurandom d.line.salt3 4).2

/-- Its challenge. -/
def challenge (d : Draw) : Bytes := drawChallenge 64 (d.line.really.urandom.getD [])

/-- Every call succeeds, the key being `K`. -/
structure Succeeds (P : Platform) (K : QiCrKey) (d : Draw) : Prop where
  salt1 : (getsaltforurandom d.opening 4).1 = true
  salt3 : (getsaltforurandom d.line.salt3 4).1 = true
  readyIn : ReadyIn P d.line.really K.IV
  readyOut : ReadyOut P d.line.really K.IV
  urandom : d.line.really.urandom.isSome = true

end Draw

/-- One end of the connection, and the lines on their way to it. -/
structure End (P : Platform) where
  conn : CryptConnection P
  opened : Bool
  inbox : List Bytes

/-- Both ends. -/
abbrev World (P : Platform) := Side → End P

/-- What happens in the world: a side opens, what a side has put out goes on its way, or
the first line on its way to a side is delivered. -/
inductive Happening where
  | opens (x : Side)
  | sends (x : Side)
  | delivers (x : Side)
deriving DecidableEq, Repr

/-- The line is acted on: it has no error, and is not skipped for want of `tdin`. -/
def ActsOn {P : Platform} (c : CryptConnection P) (line : Bytes) : Prop :=
  (c.deciphered line).1 = 0 ∧
    (c.tdin.isSome = true ∨ c.challenging = WaitingRemoteSalt ∨ c.challenging = WaitingHash)

namespace World

variable {P : Platform}

/-- One happening; `firstprompt` and `lineread` send nothing. A side opens once, and
receives lines only once it is open. -/
def step (D : Side → Draw) (w : World P) : Happening → Option (World P)
  | .opens x =>
    if (w x).opened then none
    else some (x.pair ⟨(w x).conn.opencrypt (D x).opening, true, (w x).inbox⟩ (w x.other))
  | .sends x =>
    let r := cutLines [] (w x).conn.bufout
    some (x.pair { w x with conn := { (w x).conn with bufout := r.2 } }
      { w x.other with inbox := (w x.other).inbox ++ r.1 })
  | .delivers x =>
    match (w x).opened, (w x).inbox with
    | true, line :: rest =>
      match (w x).conn.receive (D x).line line with
      | .ok (c, _) => some (x.pair ⟨c, true, rest⟩ (w x.other))
      | .error _ => none
    | _, _ => none

/-- The two connections as constructed, and empty channels. -/
def start (supplicant ring : CryptConnection P) : World P
  | .supplicant => ⟨supplicant, false, []⟩
  | .ring => ⟨ring, false, []⟩

/-- Both sides have opened and no line is on its way, in a buffer or a channel. -/
def Quiescent (w : World P) : Prop :=
  ∀ x, (w x).opened = true ∧ (w x).inbox = [] ∧ (w x).conn.bufout = []

end World

/-! ## The handshake counted

What the handshake is for a reader who does not look into the lines: each side has
four lines to say, the first when it opens and each other in answer to one it has
received. -/

/-- A side by numbers: the lines of the other it has received, and the lines of its own
that have left `bufout`. -/
structure Tally where
  opened : Bool
  received : Nat
  gone : Nat
deriving DecidableEq, Repr

namespace Tally

/-- The lines a side has put out. -/
def put (k : Tally) : Nat := if k.opened then min (k.received + 1) 4 else 0

/-- The happenings of `World.step`, in numbers. -/
def step (k : Side → Tally) : Happening → Option (Side → Tally)
  | .opens x => if (k x).opened then none else some (x.pair { k x with opened := true } (k x.other))
  | .sends x => some (x.pair { k x with gone := (k x).put } (k x.other))
  | .delivers x =>
    if (k x).opened = true ∧ (k x).received < (k x.other).gone then
      some (x.pair { k x with received := (k x).received + 1 } (k x.other))
    else none

/-- Before the handshake. -/
def start : Side → Tally := fun _ => ⟨false, 0, 0⟩

/-- No side has received a line that has not left, or let a line leave that it has not
put out. -/
structure Sound (k k' : Tally) : Prop where
  received_le : k.received ≤ k'.gone
  gone_le : k.gone ≤ k.put
  unopened : k.opened = false → k.received = 0

/-- A side says four lines at most. -/
theorem put_le (k : Tally) : k.put ≤ 4 := by
  unfold put
  split <;> omega

/-- A happening keeps both counts sound: a side that opens, sends or is delivered a line moves its
own count only. -/
theorem step_sound {k k' : Side → Tally} {e : Happening} (h : step k e = some k')
    (hk : ∀ x, Sound (k x) (k x.other)) : ∀ x, Sound (k' x) (k' x.other) := by
  -- what is sound for the one that moved and for the other is sound for both
  have pair_sound : ∀ {x : Side} {a b : Tally}, Sound a b → Sound b a →
      ∀ y, Sound (x.pair a b y) (x.pair a b y.other) := by
    intro x a b hab hba
    refine (Side.forall_iff x).mpr ⟨?_, ?_⟩
    · simpa using hab
    · simpa using hba
  cases e with
  | opens x =>
    have hx := hk x
    have hy := hk x.other
    rw [Side.other_other] at hy
    by_cases ho : (k x).opened = true
    · simp only [step, ho, if_true] at h
      cases h
    · simp only [step, ho] at h
      obtain rfl := Option.some.inj h
      -- nothing left before the side opened
      have hgone := hx.gone_le
      rw [put, if_neg ho] at hgone
      exact pair_sound ⟨hx.received_le, hgone.trans (Nat.zero_le _), fun hf => (nomatch hf)⟩
        ⟨hy.received_le, hy.gone_le, hy.unopened⟩
  | sends x =>
    have hx := hk x
    have hy := hk x.other
    rw [Side.other_other] at hy
    obtain rfl := Option.some.inj h
    exact pair_sound ⟨hx.received_le, le_rfl, hx.unopened⟩
      ⟨hy.received_le.trans hx.gone_le, hy.gone_le, hy.unopened⟩
  | delivers x =>
    have hx := hk x
    have hy := hk x.other
    rw [Side.other_other] at hy
    by_cases hd : (k x).opened = true ∧ (k x).received < (k x.other).gone
    · simp only [step, if_pos hd] at h
      obtain rfl := Option.some.inj h
      have hgone := hx.gone_le
      rw [put, if_pos hd.1] at hgone
      refine pair_sound ⟨hd.2, ?_, fun hf => absurd (hd.1.symm.trans hf) (by decide)⟩
        ⟨hy.received_le, hy.gone_le, hy.unopened⟩
      show (k x).gone ≤ if (k x).opened then min ((k x).received + 1 + 1) 4 else 0
      rw [if_pos hd.1]
      omega
    · simp only [step, if_neg hd] at h
      cases h

/-- With nothing on its way after both have opened, each side has received all four. -/
theorem received_all {k : Side → Tally} (ho : ∀ x, (k x).opened = true)
    (hgone : ∀ x, (k x).gone = (k x).put) (hrec : ∀ x, (k x).received = (k x.other).gone)
    (x : Side) : (k x).received = 4 := by
  have hcount : ∀ y, (k y).gone = min ((k y).received + 1) 4 := by
    intro y
    rw [hgone y, put, if_pos (ho y)]
  have h1 := hcount x
  have h2 := hcount x.other
  have h3 := hrec x
  have h4 := hrec x.other
  rw [Side.other_other] at h4
  omega

end Tally

/-! ## What each side sends, and where it stands -/

/-- What the two sides bring to a handshake: the key they hold, the ring, and what
their calls come to. -/
structure Parties where
  K : QiCrKey
  ring : KeyRing
  draw : Side → Draw

namespace Parties

variable (P : Platform) (H : Parties)

/-- The connections as constructed. -/
def before : Side → CryptConnection P
  | .supplicant => { unkeyed P with issuplicant := true, qicrkey := some H.K, keyID := H.K.keyID }
  | .ring => withKeyring P (some H.ring)

/-- The cipher state both descriptors of both sides start from. -/
def cipher : P.mcrypt.State := P.mcrypt.generic_init H.K.key H.K.IV

/-- The cipher state behind a side's own challenge. -/
def cipher1 (x : Side) : P.mcrypt.State := cipherAfter (H.cipher P) (H.draw x).challenge

/-- The cipher state behind the other's challenge as well. -/
def cipher2 (x : Side) : P.mcrypt.State := cipherAfter (H.cipher1 P x) (H.draw x.other).challenge

/-- The hash a side announces. -/
def hash (x : Side) : Bytes :=
  (gen2sk P.mhash 8 (H.draw x.other).salt1 (H.draw x).salt3 (H.before P x).keyID).getD []

/-- The lines a side sends, by number. -/
def line (x : Side) : Nat → Bytes
  | 0 => base64_encode (H.draw x).salt1
  | 1 => base64_encode ((H.draw x).salt3 ++ H.hash P x)
  | 2 => cipherRecord (H.cipher P) (H.draw x).challenge
  | _ => cipherRecord (H.cipher1 P x) (H.draw x.other).challenge

/-- A side that has opened. -/
def opened (x : Side) : CryptConnection P :=
  { H.before P x with salt1 := (H.draw x).salt1, challenging := WaitingRemoteSalt }

/-- A side that has settled the key. -/
def keyed (x : Side) : CryptConnection P :=
  { (H.opened P x).settled H.K (H.draw x).challenge with bufout := [] }

/-- A side that has opened and received a number of lines, its output gone. -/
def after (x : Side) : Nat → CryptConnection P
  | 0 => H.opened P x
  | 1 => { H.opened P x with challenging := WaitingHash }
  | 2 => H.keyed P x
  | 3 => { H.keyed P x with
      tdin := some (H.cipher1 P x.other), tdout := some (H.cipher2 P x),
      challenging := WaitingAnswer }
  | _ => { H.keyed P x with
      tdin := some (H.cipher2 P x.other), tdout := some (H.cipher2 P x),
      challenging := Accepted }

/-- The lines of a side from number `a` up to `b`. -/
def lines (x : Side) (a b : Nat) : List Bytes := (List.range' a (b - a)).map (H.line P x)

variable {P H}

@[simp] theorem lines_self (x : Side) (a : Nat) : H.lines P x a a = [] := by
  rw [lines, Nat.sub_self]
  rfl

theorem lines_succ {x : Side} {a b : Nat} (h : a ≤ b) :
    H.lines P x a (b + 1) = H.lines P x a b ++ [H.line P x b] := by
  have hlen : b + 1 - a = b - a + 1 := by omega
  have hlast : a + (b - a) = b := by omega
  rw [lines, hlen, List.range'_1_concat, List.map_append, hlast]
  rfl

theorem lines_cons {x : Side} {a b : Nat} (h : a < b) :
    H.lines P x a b = H.line P x a :: H.lines P x (a + 1) b := by
  have hlen : b - a = b - (a + 1) + 1 := by omega
  rw [lines, hlen, List.range'_succ]
  rfl

theorem lines_append {x : Side} {a b c : Nat} (hab : a ≤ b) (hbc : b ≤ c) :
    H.lines P x a b ++ H.lines P x b c = H.lines P x a c := by
  induction c, hbc using Nat.le_induction with
  | base => rw [lines_self, List.append_nil]
  | succ c hbc ih => rw [lines_succ hbc, lines_succ (hab.trans hbc), ← ih, List.append_assoc]

/-- There are none only where the range is empty. -/
theorem lines_eq_nil {x : Side} {a b : Nat} (h : H.lines P x a b = []) : b ≤ a := by
  by_contra hlt
  rw [lines_cons (Nat.not_le.mp hlt)] at h
  cases h

/-- One line, as it stands in `bufout`. -/
theorem wire_line (x : Side) (i : Nat) :
    wire (H.lines P x i (i + 1)) = H.line P x i ++ recordEnd := by
  rw [lines_succ le_rfl, lines_self, List.nil_append, wire_cons]
  exact congrArg _ (List.append_nil _)

/-- No line has a line end in it: base64 has none. -/
theorem noEol_line (x : Side) (i : Nat) : NoEol (H.line P x i) := by
  match i with
  | 0 => exact noEol_base64_encode _
  | 1 => exact noEol_base64_encode _
  | 2 => exact noEol_cipherRecord _ _
  | i + 3 => exact noEol_cipherRecord _ _

theorem noEol_lines (x : Side) (a b : Nat) : ∀ l ∈ H.lines P x a b, NoEol l := by
  intro l hl
  obtain ⟨i, -, rfl⟩ := List.mem_map.mp hl
  exact noEol_line x i

/-! ## One line of the handshake -/

/-- What the handshake relies on: of libmcrypt and libmhash, of the ring, and of what
the two sides draw. -/
structure Honest (P : Platform) (H : Parties) : Prop where
  undoes : P.mcrypt.Undoes
  hashes : ∀ s t id, 4 ≤ s.length → 4 ≤ t.length → (gen2sk P.mhash 8 s t id).isSome = true
  known : H.ring.mkeys.find? H.K.keyID = some H.K
  unique : ∀ id k, H.ring.mkeys.find? id = some k → id ≠ H.K.keyID →
    gen2sk P.mhash 8 (H.draw .ring).salt1 (H.draw .supplicant).salt3 k.keyID
      ≠ gen2sk P.mhash 8 (H.draw .ring).salt1 (H.draw .supplicant).salt3 H.K.keyID
  draws : ∀ x, (H.draw x).Succeeds P H.K
  differ : (H.draw .supplicant).challenge ≠ (H.draw .ring).challenge

/-- A side behind a number of lines received, with `B` still in `bufout`. -/
def held (P : Platform) (H : Parties) (x : Side) (i : Nat) (B : Bytes) : CryptConnection P :=
  { H.after P x i with bufout := B }

section

variable (ha : Honest P H)
include ha

/-- The hash a side announces is that of its own key ID under both salts. -/
theorem Honest.hash_eq (x : Side) :
    gen2sk P.mhash 8 (H.draw x.other).salt1 (H.draw x).salt3 (H.before P x).keyID
      = some (H.hash P x) := by
  have h1 := getsaltforurandom_length (ha.draws x.other).salt1
  have h3 := getsaltforurandom_length (ha.draws x).salt3
  obtain ⟨v, hv⟩ := Option.isSome_iff_exists.mp
    (ha.hashes (H.draw x.other).salt1 (H.draw x).salt3 (H.before P x).keyID h1.ge h3.ge)
  rw [hash, hv]
  rfl

/-- The challenges differ, whichever side asks. -/
theorem Honest.differ_other (x : Side) : (H.draw x.other).challenge ≠ (H.draw x).challenge := by
  cases x with
  | supplicant => exact ha.differ.symm
  | ring => exact ha.differ

/-- Opening puts the first line out. -/
theorem opencrypt_before (x : Side) :
    (H.before P x).opencrypt (H.draw x).opening
      = held P H x 0 (wire (H.lines P x 0 1)) := by
  have hsalt : getsaltforurandom (H.draw x).opening 4 = (true, (H.draw x).salt1) :=
    Prod.ext (ha.draws x).salt1 rfl
  rw [wire_line]
  cases x <;> exact opencrypt_eq rfl rfl hsalt

/-- Each side settles the key at the other's announcement: the supplicant its own, the
ring the one that has the announced hash. -/
theorem Honest.keyForHash_eq (x : Side) {c : CryptConnection P}
    (hsup : c.issuplicant = (H.before P x).issuplicant)
    (hring : c.keyring = (H.before P x).keyring) (hkey : c.qicrkey = (H.before P x).qicrkey)
    (hsalt : c.salt1 = (H.draw x).salt1) :
    c.keyForHash (H.draw x.other).salt3 (H.hash P x.other) = some H.K := by
  cases x with
  | supplicant =>
    simp only [keyForHash, hsup, hkey, before]
  | ring =>
    have hhash := ha.hash_eq .supplicant
    simp only [keyForHash, hsup, hring, hsalt, before, withKeyring, unkeyed]
    -- the ring looks for a key of the announced hash; `unique` makes it the one
    refine KeyRing.retreivekey_eq ha.known hhash fun id k hk hsame => ?_
    by_cases hid : id = H.K.keyID
    · rw [hid, ha.known] at hk
      exact (Option.some.inj hk).symm
    · exact absurd (hsame.trans hhash.symm) (ha.unique id k hk hid)

/-- At the salt of the other, a side announces its own hash. -/
theorem receive_line0 (x : Side) (B : Bytes) :
    ∃ cs, (held P H x 0 B).receive (H.draw x).line (H.line P x.other 0)
      = .ok (held P H x 1 (B ++ wire (H.lines P x 1 2)), cs) := by
  have hsalt : getsaltforurandom (H.draw x).line.salt3 4 = (true, (H.draw x).salt3) :=
    Prod.ext (ha.draws x).salt3 rfl
  have hhash := ha.hash_eq x
  refine ⟨[], ?_⟩
  rw [wire_line]
  cases x <;> exact receive_salt (c := held P H _ 0 B) rfl rfl rfl rfl hsalt hhash

/-- At the announcement, it settles the key and puts its challenge out. -/
theorem receive_line1 (hread : Readable P H.K) (x : Side) (B : Bytes) :
    ∃ cs, (held P H x 1 B).receive (H.draw x).line (H.line P x.other 1)
      = .ok (held P H x 2 (B ++ wire (H.lines P x 2 3)), cs) := by
  have hlen := getsaltforurandom_length (ha.draws x.other).salt3
  have hk := ha.keyForHash_eq x (c := held P H x 1 B) rfl rfl rfl rfl
  obtain ⟨stream, hur⟩ := Option.isSome_iff_exists.mp (ha.draws x).urandom
  have hch : (H.draw x).challenge = drawChallenge 64 stream := by rw [Draw.challenge, hur]; rfl
  refine ⟨[], ?_⟩
  have h := receive_hash (c := held P H x 1 B) rfl
    (by cases x <;> rfl) (by cases x <;> rfl) hlen hk hread (ha.draws x).readyIn
    (ha.draws x).readyOut hur
  -- the challenge is drawn from the randomness of this very call
  rw [← hch] at h
  rw [wire_line]
  refine h.trans ?_
  cases x <;> rfl

/-- At the challenge, it sends it back, enciphered behind its own. -/
theorem receive_line2 (x : Side) (B : Bytes) :
    ∃ cs, (held P H x 2 B).receive (H.draw x).line (H.line P x.other 2)
      = .ok (held P H x 3 (B ++ wire (H.lines P x 3 4)), cs) := by
  have hd := deciphered_record ha.undoes (d := held P H x 2 B) (s := H.cipher P) rfl
    (H.draw x.other).challenge
  have hne := ha.differ_other x
  refine ⟨[], ?_⟩
  rw [wire_line]
  cases x <;> exact receive_challenge rfl rfl rfl hd hne

/-- At the echo of its own challenge, it accepts, and the application is prompted. -/
theorem receive_line3 (x : Side) (B : Bytes) :
    ∃ cs, (held P H x 3 B).receive (H.draw x).line (H.line P x.other 3)
      = .ok (held P H x 4 B, cs) := by
  have hd := deciphered_record ha.undoes (d := held P H x 3 B) (s := H.cipher1 P x.other) rfl
    (H.draw x.other.other).challenge
  refine ⟨[.firstprompt], ?_⟩
  cases x <;> exact receive_answer rfl hd

/-- **One line**: a side acts on each line of the other as its number demands. -/
theorem receive_line (hread : Readable P H.K) (x : Side) {i : Nat} (hi : i < 4) (B : Bytes) :
    ∃ cs, (held P H x i B).receive (H.draw x).line (H.line P x.other i)
      = .ok (held P H x (i + 1) (B ++ wire (H.lines P x (min (i + 1) 4) (min (i + 2) 4))), cs) := by
  -- by the number of the line: salt, announcement, challenge, echo
  match i, hi with
  | 0, _ => exact receive_line0 ha x B
  | 1, _ => exact receive_line1 ha hread x B
  | 2, _ => exact receive_line2 ha x B
  | 3, _ =>
    -- the last line is the only one that is not answered
    obtain ⟨cs, h⟩ := receive_line3 ha x B
    exact ⟨cs, by rw [h]; simp [wire]⟩

/-- None of the four lines is taken for an error or skipped. -/
theorem actsOn_line (x : Side) {i : Nat} (hi : i < 4) (B : Bytes) :
    ActsOn (held P H x i B) (H.line P x.other i) := by
  match i, hi with
  | 0, _ =>
    have htd : (held P H x 0 B).tdin = none := by cases x <;> rfl
    exact ⟨congrArg Prod.fst (deciphered_base64 htd _), .inr (.inl rfl)⟩
  | 1, _ =>
    have htd : (held P H x 1 B).tdin = none := by cases x <;> rfl
    exact ⟨congrArg Prod.fst (deciphered_base64 htd _), .inr (.inr rfl)⟩
  | 2, _ =>
    have hd := deciphered_record ha.undoes (d := held P H x 2 B) (s := H.cipher P) rfl
      (H.draw x.other).challenge
    exact ⟨congrArg Prod.fst hd, .inl rfl⟩
  | 3, _ =>
    have hd := deciphered_record ha.undoes (d := held P H x 3 B) (s := H.cipher1 P x.other) rfl
      (H.draw x.other.other).challenge
    exact ⟨congrArg Prod.fst hd, .inl rfl⟩

end

/-- The supplicant as constructed; its key is printed, and so readable, where keys are. -/
theorem withKey_ok {c : CryptConnection P} (h : withKey P (some H.K) = .ok c) :
    Readable P H.K ∧ c = H.before P .supplicant := by
  unfold withKey at h
  cases hdebug : P.debugcrypt with
  | false =>
    simp only [hdebug] at h
    exact ⟨fun ht => absurd (hdebug.symm.trans ht) (by decide), (Except.ok.inj h).symm⟩
  | true =>
    simp only [hdebug, if_true] at h
    cases hr : H.K.getReadableID with
    | error x => rw [hr] at h; cases h
    | ok r =>
      rw [hr] at h
      exact ⟨fun _ => H.K.getReadableID_ok_iff.mp ⟨r, hr⟩, (Except.ok.inj h).symm⟩

/-! ## The connections follow the count -/

/-- The side `x` where the tally `k` says, the other side's being `k'`. -/
structure AtEnd (P : Platform) (H : Parties) (x : Side) (e : End P) (k k' : Tally) : Prop where
  opened : e.opened = k.opened
  conn : e.conn = if k.opened then held P H x k.received (wire (H.lines P x k.gone k.put))
    else H.before P x
  inbox : e.inbox = H.lines P x.other k.received k'.gone
  sound : k.Sound k'

/-- The world where a tally of either side puts it. -/
def At (P : Platform) (H : Parties) (w : World P) (k : Side → Tally) : Prop :=
  ∀ x, AtEnd P H x (w x) (k x) (k x.other)

/-- Either side by itself, the other one named. -/
theorem At.sides {w : World P} {k : Side → Tally} (h : At P H w k) (x : Side) :
    AtEnd P H x (w x) (k x) (k x.other) ∧ AtEnd P H x.other (w x.other) (k x.other) (k x) := by
  have hother := h x.other
  rw [Side.other_other] at hother
  exact ⟨h x, hother⟩

theorem at_pair {x : Side} {e f : End P} {a b : Tally} (h : AtEnd P H x e a b)
    (h' : AtEnd P H x.other f b a) : At P H (x.pair e f) (x.pair a b) := by
  refine (Side.forall_iff x).mpr ⟨?_, ?_⟩
  · simpa using h
  · simpa using h'

section

variable {x : Side} {e : End P} {k k' : Tally}

/-- Whether or not the side has opened, `bufout` holds what it has put out since. -/
theorem AtEnd.bufout (h : AtEnd P H x e k k') :
    e.conn.bufout = wire (H.lines P x k.gone k.put) := by
  rw [h.conn]
  by_cases ho : k.opened = true
  · rw [if_pos ho]
    rfl
  · -- unopened: nothing has been put out, and so nothing has left
    have ht := h.sound.gone_le
    rw [Tally.put, if_neg ho, Nat.le_zero] at ht
    rw [if_neg ho, Tally.put, if_neg ho, ht, lines_self]
    cases x <;> rfl

/-- A side on its way through the handshake has refused nothing. -/
theorem held_ne_refused (x : Side) (n : Nat) (B : Bytes) :
    (held P H x n B).challenging ≠ Refused := by
  -- the states of the handshake, by the lines received
  match n with
  | 0 => show WaitingRemoteSalt ≠ Refused; decide
  | 1 => show WaitingHash ≠ Refused; decide
  | 2 => show WaitingChallenge ≠ Refused; decide
  | 3 => show WaitingAnswer ≠ Refused; decide
  | n + 4 => show Accepted ≠ Refused; decide

theorem held_open (x : Side) (n : Nat) (B : Bytes) :
    (held P H x n B).closing = false ∧ (held P H x n B).doomed = false := by
  match n with
  | 0 | 1 | 2 | 3 | n + 4 => cases x <;> exact ⟨rfl, rfl⟩

/-- No side is refused, and none is being closed. -/
theorem AtEnd.fair (h : AtEnd P H x e k k') :
    e.conn.challenging ≠ Refused ∧ e.conn.closing = false ∧ e.conn.doomed = false := by
  rw [h.conn]
  cases k.opened with
  | true => exact ⟨held_ne_refused x _ _, held_open x _ _⟩
  | false =>
    have hs : (H.before P x).challenging = WaitingRemoteSalt := by cases x <;> rfl
    refine ⟨?_, by cases x <;> exact ⟨rfl, rfl⟩⟩
    show (H.before P x).challenging ≠ Refused
    rw [hs]
    decide

/-- A side that opens is where one that has received nothing is. -/
theorem AtEnd.opens (ha : Honest P H) (h : AtEnd P H x e k k') (ho : k.opened = false)
    (hs : Tally.Sound { k with opened := true } k') :
    AtEnd P H x ⟨e.conn.opencrypt (H.draw x).opening, true, e.inbox⟩ { k with opened := true } k' := by
  have hn := h.sound.unopened ho
  have ht := h.sound.gone_le
  rw [Tally.put, ho, if_neg (by decide), Nat.le_zero] at ht
  have hconn := h.conn
  rw [ho, if_neg (by decide)] at hconn
  refine ⟨rfl, ?_, h.inbox, hs⟩
  show e.conn.opencrypt (H.draw x).opening
    = held P H x k.received (wire (H.lines P x k.gone (min (k.received + 1) 4)))
  rw [hconn, hn, ht]
  exact opencrypt_before ha x

/-- The whole lines put out leave, and nothing stays in `bufout`. -/
theorem AtEnd.sends (h : AtEnd P H x e k k') (hs : Tally.Sound { k with gone := k.put } k') :
    cutLines [] e.conn.bufout = (H.lines P x k.gone k.put, []) ∧
      AtEnd P H x { e with conn := { e.conn with bufout := [] } } { k with gone := k.put } k' := by
  have hcut := cutLines_wire (noEol_lines (H := H) (P := P) x k.gone k.put)
  refine ⟨h.bufout ▸ hcut, h.opened, ?_, h.inbox, hs⟩
  show { e.conn with bufout := [] } = if k.opened then held P H x k.received
    (wire (H.lines P x k.put k.put)) else H.before P x
  rw [lines_self, h.conn]
  cases k.opened with
  | true => rfl
  | false => cases x <;> rfl

/-- The lines of the other side come in behind those on their way. -/
theorem AtEnd.arrive (h : AtEnd P H x e k k') (hle : k'.gone ≤ k'.put)
    (hs : k.Sound { k' with gone := k'.put }) :
    AtEnd P H x { e with inbox := e.inbox ++ H.lines P x.other k'.gone k'.put } k
      { k' with gone := k'.put } := by
  refine ⟨h.opened, h.conn, ?_, hs⟩
  show e.inbox ++ _ = _
  rw [h.inbox, lines_append h.sound.received_le hle]

/-- A line is on its way to a side where one more has left than it has received. -/
theorem AtEnd.inbox_cases (h : AtEnd P H x e k k') :
    (k.received < k'.gone ∧ e.inbox = H.line P x.other k.received ::
        H.lines P x.other (k.received + 1) k'.gone) ∨
    (¬ k.received < k'.gone ∧ e.inbox = []) := by
  by_cases hlt : k.received < k'.gone
  · exact .inl ⟨hlt, h.inbox.trans (lines_cons hlt)⟩
  · have heq : k.received = k'.gone := by
      have := h.sound.received_le
      omega
    exact .inr ⟨hlt, by rw [h.inbox, heq, lines_self]⟩

/-- The first line on its way is the next one expected, and its answer joins `bufout`. -/
theorem AtEnd.delivers (ha : Honest P H) (hread : Readable P H.K) (h : AtEnd P H x e k k')
    (hk' : k'.gone ≤ 4) (ho : k.opened = true) (hlt : k.received < k'.gone) :
    ActsOn e.conn (H.line P x.other k.received) ∧
    ∃ c cs, e.conn.receive (H.draw x).line (H.line P x.other k.received) = .ok (c, cs) ∧
      (Tally.Sound { k with received := k.received + 1 } k' →
        AtEnd P H x ⟨c, true, H.lines P x.other (k.received + 1) k'.gone⟩
          { k with received := k.received + 1 } k') := by
  have hn : k.received < 4 := hlt.trans_le hk'
  have hconn := h.conn
  have hgone := h.sound.gone_le
  rw [Tally.put, ho, if_pos rfl] at hgone
  rw [ho, if_pos rfl] at hconn
  have hput : k.put = min (k.received + 1) 4 := if_pos ho
  obtain ⟨cs, hrec⟩ := receive_line ha hread x hn (wire (H.lines P x k.gone k.put))
  rw [hconn]
  refine ⟨actsOn_line ha x hn _, _, cs, hrec, fun hs => ⟨ho.symm, ?_, rfl, hs⟩⟩
  -- what is put out joins what has not left yet
  have hjoin : H.lines P x k.gone (min (k.received + 1) 4) ++
      H.lines P x (min (k.received + 1) 4) (min (k.received + 2) 4)
        = H.lines P x k.gone (min (k.received + 1 + 1) 4) :=
    lines_append hgone (by omega)
  show held P H x (k.received + 1) _ = if k.opened then held P H x (k.received + 1)
    (wire (H.lines P x k.gone (if k.opened then _ else 0))) else _
  rw [if_pos ho, if_pos ho, hput, ← hjoin, wire, wire, wire, List.flatMap_append]

end

/-- **Refinement**: the connections do what the count does, happening by happening. -/
theorem step_at (ha : Honest P H) (hread : Readable P H.K) (w : World P) (k : Side → Tally)
    (e : Happening) (hw : At P H w k) :
    Option.Rel (At P H) (World.step H.draw w e) (Tally.step k e) := by
  have hsound : ∀ k', Tally.step k e = some k' → ∀ x, (k' x).Sound (k' x.other) :=
    fun k' h => Tally.step_sound h fun x => (hw x).sound
  cases e with
  | opens x =>
    obtain ⟨hx, hother⟩ := hw.sides x
    -- a side opens once
    rw [World.step, Tally.step, hx.opened]
    cases ho : (k x).opened with
    | true => exact .none
    | false =>
      have hs := hsound _ (by rw [Tally.step, ho]; rfl)
      have hs1 := hs x
      have hs2 := hs x.other
      simp only [Side.pair_self, Side.pair_other, Side.other_other] at hs1 hs2
      exact .some (at_pair (hx.opens ha ho hs1) ⟨hother.opened, hother.conn, hother.inbox, hs2⟩)
  | sends x =>
    obtain ⟨hx, hother⟩ := hw.sides x
    have hs := hsound _ rfl
    have hs1 := hs x
    have hs2 := hs x.other
    simp only [Side.pair_self, Side.pair_other, Side.other_other] at hs1 hs2
    -- the whole lines leave, and arrive at the other side
    obtain ⟨hcut, hx'⟩ := hx.sends hs1
    have harr := hother.arrive hx.sound.gone_le hs2
    rw [Side.other_other] at harr
    rw [World.step, Tally.step, hcut]
    exact .some (at_pair hx' harr)
  | delivers x =>
    obtain ⟨hx, hother⟩ := hw.sides x
    -- without an opening, or a line, neither world nor tally takes the step
    by_cases ho : (k x).opened = true
    · rcases hx.inbox_cases with ⟨hlt, hin⟩ | ⟨hlt, hin⟩
      · obtain ⟨-, c, cs, hrec, hx'⟩ := hx.delivers ha hread
          (hother.sound.gone_le.trans (Tally.put_le _)) ho hlt
        have hs := hsound _ (by rw [Tally.step, if_pos ⟨ho, hlt⟩])
        have hs1 := hs x
        have hs2 := hs x.other
        simp only [Side.pair_self, Side.pair_other, Side.other_other] at hs1 hs2
        simp only [World.step, Tally.step, hx.opened.trans ho, hin, hrec, if_pos (And.intro ho hlt)]
        exact .some (at_pair (hx' hs1) ⟨hother.opened, hother.conn, hother.inbox, hs2⟩)
      · simp only [World.step, Tally.step, hx.opened.trans ho, hin, if_neg (fun h : _ ∧ _ => hlt h.2)]
        exact .none
    · have ho' := hx.opened.trans (Bool.eq_false_iff.mpr ho)
      simp only [World.step, Tally.step, ho', if_neg (fun h : _ ∧ _ => ho h.1)]
      exact .none

theorem start_at :
    At P H (World.start (H.before P .supplicant) (withKeyring P (some H.ring))) Tally.start := by
  intro x
  cases x <;> exact ⟨rfl, rfl, rfl, le_rfl, le_rfl, fun _ => rfl⟩

/-- Every run is counted by a run of the tally, and every counted run is one. -/
theorem run_at (ha : Honest P H) (hread : Readable P H.K) (es : List Happening) :
    Option.Rel (At P H)
      (Lib.run (World.step H.draw)
        (World.start (H.before P .supplicant) (withKeyring P (some H.ring))) es)
      (Lib.run Tally.step Tally.start es) :=
  Lib.run_related (step_at ha hread) es start_at

/-- Nothing is on its way in the world where the tally says so. -/
theorem At.quiescent_iff {w : World P} {k : Side → Tally} (hw : At P H w k) :
    w.Quiescent ↔ ∀ x, (k x).opened = true ∧ (k x).received = (k x.other).gone ∧
      (k x).gone = (k x).put := by
  have hside : ∀ x, ((w x).opened = true ∧ (w x).inbox = [] ∧ (w x).conn.bufout = []) ↔
      ((k x).opened = true ∧ (k x).received = (k x.other).gone ∧ (k x).gone = (k x).put) := by
    intro x
    have h := hw x
    have hwire := cutLines_wire (noEol_lines (H := H) (P := P) x (k x).gone (k x).put)
    rw [h.opened, h.inbox, h.bufout]
    -- nothing in a channel: all that left is received; nothing in `bufout`: all put out has left
    refine and_congr_right fun _ => and_congr ?_ ?_
    · exact ⟨fun hl => le_antisymm h.sound.received_le (lines_eq_nil hl),
        fun he => by rw [he, lines_self]⟩
    · refine ⟨fun hb => le_antisymm h.sound.gone_le (lines_eq_nil (x := x) (H := H) (P := P) ?_),
        fun he => ?_⟩
      · rw [hb] at hwire
        exact (congrArg Prod.fst hwire).symm
      · rw [← he, lines_self]
        rfl
  exact forall_congr' hside

end Parties

/-- **Agreement of an honest handshake**: in every state of every run no side is
refused or about to close, and the next line on its way to an open side is acted on.
Where no line is on its way after both have opened, both have accepted, both have
settled the key, and each reads in the cipher state the other writes in. -/
theorem honest_agreement {P : Platform} {H : Parties} (ha : H.Honest P) {c : CryptConnection P}
    (hc : withKey P (some H.K) = .ok c) {es : List Happening} {w : World P}
    (hrun : Lib.run (World.step H.draw) (World.start c (withKeyring P (some H.ring))) es = some w) :
    (∀ x, (w x).conn.challenging ≠ Refused ∧ (w x).conn.closing = false ∧
      (w x).conn.doomed = false) ∧
    (∀ x line rest, (w x).opened = true → (w x).inbox = line :: rest →
      ActsOn (w x).conn line ∧ (World.step H.draw w (.delivers x)).isSome = true) ∧
    (w.Quiescent →
      (∀ x, (w x).conn.challenging = Accepted ∧ (w x).conn.qicrkey = some H.K ∧
        (w x).conn.key = H.K.key ∧ (w x).conn.IVin = H.K.IV ∧ (w x).conn.IVout = H.K.IV ∧
        (w x).conn.keyID = H.K.keyID) ∧
      ∀ x, (w x).conn.tdin.isSome = true ∧ (w x).conn.tdin = (w x.other).conn.tdout) := by
  obtain ⟨hread, rfl⟩ := Parties.withKey_ok hc
  have hrel := Parties.run_at ha hread es
  rw [hrun] at hrel
  obtain ⟨k, hw⟩ : ∃ k, H.At P w k := by
    generalize Lib.run Tally.step Tally.start es = r at hrel
    cases hrel with
    | some h => exact ⟨_, h⟩
  refine ⟨fun x => (hw x).fair, fun x line rest ho hin => ?_, fun hq => ?_⟩
  · have hx := hw x
    have hgone := (hw x.other).sound.gone_le.trans (Tally.put_le _)
    rcases hx.inbox_cases with ⟨hlt, heq⟩ | ⟨-, heq⟩
    · obtain ⟨rfl, rfl⟩ := List.cons_eq_cons.mp (hin.symm.trans heq)
      obtain ⟨hacts, d, cs, hrec, -⟩ := hx.delivers ha hread hgone (hx.opened.symm.trans ho) hlt
      refine ⟨hacts, ?_⟩
      simp only [World.step, ho, hin, hrec]
      rfl
    · rw [hin] at heq
      cases heq
  · have hk := hw.quiescent_iff.mp hq
    have hconn : ∀ x, (w x).conn = H.held P x 4 [] := by
      intro x
      -- nothing on its way: all four lines have come
      have hall := Tally.received_all (fun y => (hk y).1) (fun y => (hk y).2.2)
        (fun y => (hk y).2.1) x
      rw [(hw x).conn, if_pos (hk x).1, hall, ← (hk x).2.2, Parties.lines_self]
      rfl
    refine ⟨fun x => ?_, fun x => ?_⟩
    · rw [hconn x]
      exact ⟨rfl, rfl, rfl, rfl, rfl, rfl⟩
    · rw [hconn x, hconn x.other]
      cases x <;> exact ⟨rfl, rfl⟩

/-- The sample key and a ring that holds it, with the salts and challenges the sample
values are for. -/
def sampleParties : Parties where
  K := sampleKey
  ring := ⟨Lib.OrdMap.empty.insert sampleKey.keyID sampleKey⟩
  draw
    | .supplicant => ⟨some [1, 2, 3, 4], fairEnv [5, 6, 7, 8] (bytesFrom 0 64)⟩
    | .ring => ⟨some [9, 10, 11, 12], fairEnv [13, 14, 15, 16] (bytesFrom 64 64)⟩

/-- A handshake in which the ring opens first and the lines cross. -/
def sampleHandshake : List Happening :=
  [.opens .ring, .opens .supplicant, .sends .ring, .delivers .supplicant, .sends .supplicant] ++
    (List.replicate 3 [.delivers .ring, .sends .ring, .delivers .supplicant,
      .sends .supplicant]).flatten ++ [.delivers .ring]

/-- The sample parties meet every assumption: their cipher is a cipher feedback, their ring has
one key. -/
theorem sampleParties_honest : sampleParties.Honest samplePlatform where
  undoes := Mcrypt.cfb_undoes sampleF
  hashes s t id hs ht := by
    have hhalf : sampleMhash.keygen_salt_size >>> 1 = 4 := rfl
    simp only [gen2sk]
    rw [if_neg (by decide), if_neg (by decide), hhalf, if_neg (by omega)]
    rfl
  known := by rfl
  unique id k hk hne := by
    have hmem := Lib.OrdMap.find?_eq_some_iff.mp hk
    exact absurd (congrArg Prod.fst (List.mem_singleton.mp hmem)) hne
  draws x := by cases x <;> exact ⟨rfl, rfl, ⟨rfl, rfl, rfl⟩, ⟨rfl, rfl, rfl⟩, rfl⟩
  differ := by decide

/-- The sample handshake runs to its end, for whatever parties are honest. -/
theorem sampleHandshake_completes {P : Platform} {H : Parties} (ha : H.Honest P)
    (hread : Readable P H.K) :
    ∃ w, Lib.run (World.step H.draw)
      (World.start (H.before P .supplicant) (withKeyring P (some H.ring))) sampleHandshake = some w ∧
      w.Quiescent := by
  have hrel := Parties.run_at ha hread sampleHandshake
  -- the tally of the run is computed, and the run follows it
  have hcount : (Lib.run Tally.step Tally.start sampleHandshake).any (fun k =>
      k .supplicant = ⟨true, 4, 4⟩ ∧ k .ring = ⟨true, 4, 4⟩) = true := by decide
  obtain ⟨k, hk, hend⟩ := (Option.any_eq_true _ _).mp hcount
  obtain ⟨hs, hr⟩ := of_decide_eq_true hend
  rw [hk] at hrel
  obtain ⟨w, hw, hat⟩ : ∃ w, Lib.run (World.step H.draw)
      (World.start (H.before P .supplicant) (withKeyring P (some H.ring))) sampleHandshake = some w ∧
      H.At P w k := by
    generalize Lib.run (World.step H.draw) _ sampleHandshake = r at hrel
    cases hrel with
    | some h => exact ⟨_, rfl, h⟩
  refine ⟨w, hw, hat.quiescent_iff.mpr fun x => ?_⟩
  cases x with
  | supplicant => simp [hs, hr, Side.other, Tally.put]
  | ring => simp [hs, hr, Side.other, Tally.put]

theorem honest_agreement_sample :
    ∃ w, Lib.run (World.step sampleParties.draw) (World.start sampleSupplicant
        (withKeyring samplePlatform (some sampleParties.ring))) sampleHandshake = some w ∧
      w.Quiescent ∧
      (∀ x, (w x).conn.challenging = Accepted ∧ (w x).conn.qicrkey = some sampleKey ∧
        (w x).conn.key = sampleKey.key ∧ (w x).conn.IVin = sampleKey.IV ∧
        (w x).conn.IVout = sampleKey.IV ∧ (w x).conn.keyID = sampleKey.keyID) ∧
      ∀ x, (w x).conn.tdin.isSome = true ∧ (w x).conn.tdin = (w x.other).conn.tdout := by
  obtain ⟨w, hrun, hq⟩ := sampleHandshake_completes sampleParties_honest
    (fun h => (nomatch h))
  obtain ⟨-, -, hagree⟩ := honest_agreement sampleParties_honest rfl hrun
  exact ⟨w, hrun, hq, hagree hq⟩

end Qigong.Crypt
