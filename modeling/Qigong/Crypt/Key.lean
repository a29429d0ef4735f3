import Qigong.Bytes
import Qigong.Lib.OrdMap

/-!
# Keys, the key ring and the salted hash (qicrypt.cpp:37–88, 347–448)

libmhash is a parameter: `Mhash` holds what `gen2sk` asks of it. A key is the
material of a `QiCrKey`; the ring finds the key whose salted hash a peer has
announced.
-/

namespace Qigong.Crypt

/-! ## `gen2sk` -/

/-- What `gen2sk` asks of libmhash for the algorithm `KEYGEN_S2K_SALTED`, with MD5
as its hash and a count of 2: whether it uses a salt, the size of the salt, and the
key generation itself, which fills `askedsize` bytes or fails. -/
structure Mhash where
  keygen_uses_salt : Bool
  keygen_salt_size : Nat
  keygen_ext : (salt data : Bytes) → (askedsize : Nat) → Option Bytes
  keygen_ext_length : ∀ salt data n r, keygen_ext salt data n = some r → r.length = n

/-- `gen2sk` (qicrypt.cpp:37–73): the salted hash of `data`, `none` for `-1`. -/
def gen2sk (H : Mhash) (askedsize : Nat) (salt1 salt2 data : Bytes) : Option Bytes :=
  if 64 < askedsize then none
  else if H.keygen_uses_salt = false then none
  else
    let halfsaltsize := H.keygen_salt_size >>> 1
    if salt1.length < halfsaltsize ∨ salt2.length < halfsaltsize then none
    else H.keygen_ext (salt1.take halfsaltsize ++ salt2.take halfsaltsize) data askedsize

theorem gen2sk_length {H : Mhash} {n : Nat} {s t d r : Bytes} (h : gen2sk H n s t d = some r) :
    r.length = n := by
  unfold gen2sk at h
  dsimp only at h
  by_cases h1 : 64 < n
  · rw [if_pos h1] at h
    cases h
  · rw [if_neg h1] at h
    by_cases h2 : H.keygen_uses_salt = false
    · rw [if_pos h2] at h
      cases h
    · rw [if_neg h2] at h
      by_cases h3 : s.length < H.keygen_salt_size >>> 1 ∨ t.length < H.keygen_salt_size >>> 1
      · rw [if_pos h3] at h
        cases h
      · rw [if_neg h3] at h
        exact H.keygen_ext_length _ _ _ _ h

/-! ## `/dev/urandom` -/

/-- One opening of `/dev/urandom`: `none` when it fails, else the bytes the stream
gives before it ends. -/
abbrev Urandom := Option Bytes

/-- The loop of `getsaltforurandom`, `l` bytes still to be read: whether it got to
the asked length, and the salt. At the end of the stream `get ()` gives `EOF`, which
is added as a byte like any other, and the stream turns false. -/
def readSalt : (l : Nat) → (stream salt : Bytes) → Bool × Bytes
  | 0, _, salt => (true, salt)
  | l + 1, b :: stream, salt => readSalt l stream (salt ++ [b])
  | l + 1, [], salt => (l == 0, salt ++ [0xff])

/-- `getsaltforurandom` (qicrypt.cpp:75–88): whether it returns 0, and the salt. -/
def getsaltforurandom (urandom : Urandom) (l : Nat) : Bool × Bytes :=
  match urandom with
  | none => (false, [])
  | some stream => readSalt l stream []

theorem readSalt_length {l : Nat} {stream salt : Bytes} (h : (readSalt l stream salt).1 = true) :
    (readSalt l stream salt).2.length = salt.length + l := by
  induction l generalizing stream salt with
  | zero => rfl
  | succ l ih =>
    cases stream with
    | nil =>
      have hl : l = 0 := beq_iff_eq.mp h
      simp [readSalt, hl]
    | cons b stream =>
      have hrest : (readSalt l stream (salt ++ [b])).2.length = (salt ++ [b]).length + l := ih h
      rw [readSalt, hrest, List.length_append, List.length_singleton]
      omega

/-- A salt that was read has the asked length. -/
theorem getsaltforurandom_length {u : Urandom} {l : Nat} (h : (getsaltforurandom u l).1 = true) :
    (getsaltforurandom u l).2.length = l := by
  cases u with
  | none => cases h
  | some stream =>
    have := readSalt_length h
    simpa [getsaltforurandom] using this

/-! ## Keys and the ring -/

/-- The material of a `QiCrKey` (qicrypt.h:14–30). -/
structure QiCrKey where
  key : Bytes
  IV : Bytes
  keyID : Bytes

/-- One hexadecimal digit of `getReadableID`. -/
def digit (n : Nat) : UInt8 := (str "0123456789abcdef").getD (n &&& 0x0f) 0

/-- `QiCrKey::getReadableID` (qicrypt.cpp:353–362): the ID behind its salt, then the
salt in hexadecimal. -/
def QiCrKey.getReadableID (k : QiCrKey) : Except Exn Bytes :=
  (substr k.keyID 4).map fun r =>
    r ++ (k.keyID.take 4).flatMap fun c => [digit (c.toNat >>> 4), digit c.toNat]

/-- `getReadableID` throws on an ID shorter than its salt, and only then. -/
theorem QiCrKey.getReadableID_ok_iff (k : QiCrKey) :
    (∃ r, k.getReadableID = .ok r) ↔ 4 ≤ k.keyID.length := by
  unfold getReadableID
  by_cases h : 4 ≤ k.keyID.length
  · rw [substr_ok h]
    exact ⟨fun _ => h, fun _ => ⟨_, rfl⟩⟩
  · rw [substr_throws (Nat.not_le.mp h)]
    exact ⟨fun ⟨_, hr⟩ => (nomatch hr), fun hk => absurd hk h⟩

/-- `KeyRing` (qicrypt.h:32–43): the keys by their full ID. -/
structure KeyRing where
  mkeys : Lib.OrdMap Bytes QiCrKey

/-- The loop of `retreivekey` over the keys in the order of their IDs. -/
def retreiveIn (H : Mhash) (salt1 salt2 hash : Bytes) : List (Bytes × QiCrKey) → Option QiCrKey
  | [] => none
  | (_, k) :: ks =>
    match gen2sk H 8 salt1 salt2 k.keyID with
    | none => retreiveIn H salt1 salt2 hash ks   -- on error skip
    | some lhash => if lhash = hash then some k else retreiveIn H salt1 salt2 hash ks

/-- `KeyRing::retreivekey` (qicrypt.cpp:429–440): the first key whose salted hash is
the announced one. -/
def KeyRing.retreivekey (H : Mhash) (r : KeyRing) (salt1 salt2 hash : Bytes) : Option QiCrKey :=
  retreiveIn H salt1 salt2 hash r.mkeys.entries

theorem retreiveIn_eq {H : Mhash} {salt1 salt2 hash : Bytes} {k : QiCrKey}
    {es : List (Bytes × QiCrKey)} (hm : ∃ i, (i, k) ∈ es)
    (hhash : gen2sk H 8 salt1 salt2 k.keyID = some hash)
    (huniq : ∀ i k', (i, k') ∈ es → gen2sk H 8 salt1 salt2 k'.keyID = some hash → k' = k) :
    retreiveIn H salt1 salt2 hash es = some k := by
  induction es with
  | nil =>
    obtain ⟨_, hm⟩ := hm
    cases hm
  | cons e es ih =>
    obtain ⟨i, k'⟩ := e
    have huniq' : ∀ i k', (i, k') ∈ es → gen2sk H 8 salt1 salt2 k'.keyID = some hash → k' = k :=
      fun i k' h => huniq i k' (List.mem_cons_of_mem _ h)
    -- a key with another hash is not the one looked for
    have hrest : k' ≠ k → ∃ i, (i, k) ∈ es := by
      intro hne
      obtain ⟨j, hm⟩ := hm
      rcases List.mem_cons.mp hm with heq | hm
      · exact absurd (congrArg Prod.snd heq).symm hne
      · exact ⟨j, hm⟩
    unfold retreiveIn
    cases hg : gen2sk H 8 salt1 salt2 k'.keyID with
    | none =>
      refine ih (hrest ?_) huniq'
      rintro rfl
      rw [hhash] at hg
      cases hg
    | some lhash =>
      dsimp only
      by_cases hl : lhash = hash
      · rw [if_pos hl, huniq i k' List.mem_cons_self (hg.trans (congrArg some hl))]
      · rw [if_neg hl]
        refine ih (hrest ?_) huniq'
        rintro rfl
        rw [hhash] at hg
        exact hl (Option.some.inj hg).symm

/-- A key of the ring with the announced hash is found when no other key has it. -/
theorem KeyRing.retreivekey_eq {H : Mhash} {r : KeyRing} {salt1 salt2 hash id : Bytes}
    {k : QiCrKey} (hk : r.mkeys.find? id = some k)
    (hhash : gen2sk H 8 salt1 salt2 k.keyID = some hash)
    (huniq : ∀ id' k', r.mkeys.find? id' = some k' →
      gen2sk H 8 salt1 salt2 k'.keyID = some hash → k' = k) :
    r.retreivekey H salt1 salt2 hash = some k :=
  retreiveIn_eq ⟨id, Lib.OrdMap.find?_eq_some_iff.mp hk⟩ hhash
    fun i k' h => huniq i k' (Lib.OrdMap.find?_eq_some_iff.mpr h)

end Qigong.Crypt
