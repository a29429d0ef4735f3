import Qigong.Crypt.Validity
import Qigong.Lib.Machine

/-!
# The key ring and its pointers (qicrypt.cpp:364–440)

The ring maps IDs to pointers. `addkey` and `gentlyaddkey` build a key from a file, at a place
that `new` chooses, and keep it or delete it again; both print readable IDs, which throws on an
ID of fewer than four bytes, and `gentlyaddkey` does so under `debugcrypt` when the key is in
the ring already.

Whatever the calls and the files, an entry is a valid key under its own ID (`Ring.Sound`) and
stays where it is (`Ring.Kept`): both are properties of one call (`Effect`), carried along runs
by the rules of `Lib.Machine`. The ring that connections look keys up in, `KeyRing`, is what
the pointers point at (`Ring.keys`).
-/

namespace Qigong.Crypt

/-- A pointer to a `QiCrKey`. -/
abbrev KeyPtr := Nat

/-- `KeyRing`, and the keys that are allocated: `some none` stands for a key that is not
valid. -/
structure Ring where
  heap : KeyPtr → Option (Option QiCrKey)
  mkeys : Lib.OrdMap Bytes KeyPtr
  walletdir : Bytes

namespace Ring

/-- `KeyRing::KeyRing` and `setwalletdir`. -/
def empty (walletdir : Bytes) : Ring := ⟨fun _ => none, .empty, walletdir⟩

/-- `new QiCrKey (...)` at `p`. -/
def new (r : Ring) (p : KeyPtr) (nkey : Option QiCrKey) : Ring :=
  { r with heap := fun q => if q = p then some nkey else r.heap q }

/-- `delete`. -/
def delete (r : Ring) (p : KeyPtr) : Ring :=
  { r with heap := fun q => if q = p then none else r.heap q }

/-- `mkeys [id] = p`. -/
def insert (r : Ring) (id : Bytes) (p : KeyPtr) : Ring :=
  { r with mkeys := r.mkeys.insert id p }

/-- `KeyRing::addkey` (qicrypt.cpp:372–392), the key being built at `p`: what it returns or
throws, and the ring it leaves. -/
def addkey (debugcrypt : Bool) (r : Ring) (fs : Bytes → Option Bytes) (fname : Bytes)
    (p : KeyPtr) : Except Exn Bool × Ring :=
  let nkey := QiCrKey.make (fs fname)
  let r := r.new p nkey
  match nkey with
  | none => (.ok false, r.delete p)
  | some k =>
    match r.mkeys.find? k.keyID with
    | some _ =>
      match k.getReadableID with
      | .error x => (.error x, r)
      | .ok _ => (.ok true, r.delete p)
    | none =>
      match if debugcrypt then k.getReadableID else .ok [] with
      | .error x => (.error x, r)
      | .ok _ => (.ok true, r.insert k.keyID p)

/-- `seekname` (qicrypt.cpp:399–407). -/
def seekname (walletdir fname : Bytes) : Bytes :=
  (if walletdir = [] ∨ fname.head? = some 47 then fname else walletdir ++ str "/" ++ fname)
    ++ str ".key.priv"

/-- `KeyRing::gentlyaddkey` (qicrypt.cpp:398–427), `none` being `NULL`. -/
def gentlyaddkey (debugcrypt : Bool) (r : Ring) (fs : Bytes → Option Bytes) (fname : Bytes)
    (p : KeyPtr) : Except Exn (Option KeyPtr) × Ring :=
  let nkey := QiCrKey.make (fs (seekname r.walletdir fname))
  let r := r.new p nkey
  match nkey with
  | none => (.ok none, r.delete p)
  | some k =>
    match r.mkeys.find? k.keyID with
    | some q => (.ok (some q), r.delete p)
    | none =>
      let r := r.insert k.keyID p
      match if debugcrypt then k.getReadableID else .ok [] with
      | .error x => (.error x, r)
      | .ok _ => (.ok (some p), r)

/-- The loop of `retreivekey`. -/
def retreiveIn (H : Mhash) (r : Ring) (salt1 salt2 hash : Bytes) :
    List (Bytes × KeyPtr) → Except Exn (Option KeyPtr)
  | [] => .ok none
  | (_, p) :: es =>
    match r.heap p with
    | some (some k) =>
      match gen2sk H 8 salt1 salt2 k.keyID with
      | none => retreiveIn H r salt1 salt2 hash es   -- on error skip
      | some lhash => if lhash = hash then .ok (some p) else retreiveIn H r salt1 salt2 hash es
    | _ => .error .dangling

/-- `KeyRing::retreivekey` (qicrypt.cpp:429–440). -/
def retreivekey (H : Mhash) (r : Ring) (salt1 salt2 hash : Bytes) : Except Exn (Option KeyPtr) :=
  retreiveIn H r salt1 salt2 hash r.mkeys.entries

/-! ## Calls -/

/-- A call that adds a key, with the files at the time of the call and the place that `new`
chooses. -/
structure Call where
  gently : Bool
  fs : Bytes → Option Bytes
  fname : Bytes
  nkey : KeyPtr

/-- The content of the file that a call reads. -/
def Call.file (c : Call) (r : Ring) : Option Bytes :=
  c.fs (if c.gently then seekname r.walletdir c.fname else c.fname)

/-- What a call returns: a truth value, or an entry. -/
inductive Returned where
  | bool (b : Bool)
  | entry (p : Option KeyPtr)

/-- `false` or `NULL`. -/
def Call.refusal (c : Call) : Returned := if c.gently then .entry none else .bool false

/-- A call. -/
def call (debugcrypt : Bool) (r : Ring) (c : Call) : Except Exn Returned × Ring :=
  if c.gently then
    let x := gentlyaddkey debugcrypt r c.fs c.fname c.nkey
    (x.1.map .entry, x.2)
  else
    let x := addkey debugcrypt r c.fs c.fname c.nkey
    (x.1.map .bool, x.2)

/-- The ring behind a call, also where it throws. `new` gives a place that is free. -/
def step (debugcrypt : Bool) (r : Ring) (c : Call) : Option Ring :=
  if (r.heap c.nkey).isNone then some (r.call debugcrypt c).2 else none

/-! ## What a call does to the ring -/

variable {debugcrypt : Bool} {r r' : Ring} {c : Call}

/-- What can become of the ring: nothing, a key that nothing points to any more, or an entry
for the key of the file. -/
inductive Effect (r : Ring) (c : Call) : Ring → Prop where
  | same : Effect r c r
  | leaked {k : QiCrKey} : QiCrKey.make (c.file r) = some k → Effect r c (r.new c.nkey (some k))
  | added {k : QiCrKey} : QiCrKey.make (c.file r) = some k → r.mkeys.find? k.keyID = none →
      Effect r c ((r.new c.nkey (some k)).insert k.keyID c.nkey)

/-- What was built at a free place and deleted has left nothing. -/
theorem delete_new {p : KeyPtr} (hfree : r.heap p = none) (nkey : Option QiCrKey) :
    (r.new p nkey).delete p = r := by
  obtain ⟨heap, mkeys, walletdir⟩ := r
  have hheap : (fun q => if q = p then none else if q = p then some nkey else heap q) = heap := by
    funext q
    by_cases hq : q = p
    · rw [if_pos hq, hq]
      exact hfree.symm
    · rw [if_neg hq, if_neg hq]
  simp only [new, delete, hheap]

theorem addkey_invalid {fs : Bytes → Option Bytes} {fname : Bytes} {p : KeyPtr}
    (hfree : r.heap p = none) (h : QiCrKey.make (fs fname) = none) :
    r.addkey debugcrypt fs fname p = (.ok false, r) := by
  simp only [addkey, h, delete_new hfree]

theorem gentlyaddkey_invalid {fs : Bytes → Option Bytes} {fname : Bytes} {p : KeyPtr}
    (hfree : r.heap p = none) (h : QiCrKey.make (fs (seekname r.walletdir fname)) = none) :
    r.gentlyaddkey debugcrypt fs fname p = (.ok none, r) := by
  simp only [gentlyaddkey, h, delete_new hfree]

/-- A call on an invalid file changes nothing and returns `false` or `NULL`. -/
theorem call_invalid (hfree : r.heap c.nkey = none) (h : QiCrKey.make (c.file r) = none) :
    r.call debugcrypt c = (.ok c.refusal, r) := by
  obtain ⟨gently, fs, fname, p⟩ := c
  cases gently with
  | false =>
    have heq : r.addkey debugcrypt fs fname p = (.ok false, r) := addkey_invalid hfree h
    show ((r.addkey debugcrypt fs fname p).1.map Returned.bool,
      (r.addkey debugcrypt fs fname p).2) = _
    rw [heq]
    rfl
  | true =>
    have heq : r.gentlyaddkey debugcrypt fs fname p = (.ok none, r) := gentlyaddkey_invalid hfree h
    show ((r.gentlyaddkey debugcrypt fs fname p).1.map Returned.entry,
      (r.gentlyaddkey debugcrypt fs fname p).2) = _
    rw [heq]
    rfl

/-- A key of which the ring has the ID is deleted, and its entry returned. -/
theorem gentlyaddkey_present {fs : Bytes → Option Bytes} {fname : Bytes} {p q : KeyPtr}
    {k : QiCrKey} (hfree : r.heap p = none)
    (h : QiCrKey.make (fs (seekname r.walletdir fname)) = some k)
    (hq : r.mkeys.find? k.keyID = some q) :
    r.gentlyaddkey debugcrypt fs fname p = (.ok (some q), r) := by
  have hq' : (r.new p (some k)).mkeys.find? k.keyID = some q := hq
  simp only [gentlyaddkey, h, hq', delete_new hfree]

/-- A key of which the ring has not the ID is put in, and may be printed. -/
theorem gentlyaddkey_absent {fs : Bytes → Option Bytes} {fname : Bytes} {p : KeyPtr}
    {k : QiCrKey} (h : QiCrKey.make (fs (seekname r.walletdir fname)) = some k)
    (hq : r.mkeys.find? k.keyID = none) :
    r.gentlyaddkey debugcrypt fs fname p =
      ((if debugcrypt then k.getReadableID else .ok []).map fun _ => some p,
        (r.new p (some k)).insert k.keyID p) := by
  have hq' : (r.new p (some k)).mkeys.find? k.keyID = none := hq
  simp only [gentlyaddkey, h, hq']
  cases (if debugcrypt then k.getReadableID else .ok []) <;> rfl

theorem addkey_effect (fs : Bytes → Option Bytes) (fname : Bytes) {p : KeyPtr}
    (hfree : r.heap p = none) :
    Effect r ⟨false, fs, fname, p⟩ (r.addkey debugcrypt fs fname p).2 := by
  cases hmake : QiCrKey.make (fs fname) with
  | none =>
    rw [addkey_invalid hfree hmake]
    exact .same
  | some k =>
    have hfile : QiCrKey.make (Call.file ⟨false, fs, fname, p⟩ r) = some k := hmake
    cases hfind : r.mkeys.find? k.keyID with
    | some q =>
      have hfind' : (r.new p (some k)).mkeys.find? k.keyID = some q := hfind
      simp only [addkey, hmake, hfind']
      cases k.getReadableID with
      | error x => exact .leaked hfile
      | ok id =>
        dsimp only
        rw [delete_new hfree]
        exact .same
    | none =>
      have hfind' : (r.new p (some k)).mkeys.find? k.keyID = none := hfind
      simp only [addkey, hmake, hfind']
      cases (if debugcrypt then k.getReadableID else .ok []) with
      | error x => exact .leaked hfile
      | ok id => exact .added hfile hfind

theorem gentlyaddkey_effect (fs : Bytes → Option Bytes) (fname : Bytes) {p : KeyPtr}
    (hfree : r.heap p = none) :
    Effect r ⟨true, fs, fname, p⟩ (r.gentlyaddkey debugcrypt fs fname p).2 := by
  cases hmake : QiCrKey.make (fs (seekname r.walletdir fname)) with
  | none =>
    rw [gentlyaddkey_invalid hfree hmake]
    exact .same
  | some k =>
    cases hfind : r.mkeys.find? k.keyID with
    | some q =>
      rw [gentlyaddkey_present hfree hmake hfind]
      exact .same
    | none =>
      rw [gentlyaddkey_absent hmake hfind]
      exact .added hmake hfind

/-- **What a step can do**. -/
theorem step_effect (h : step debugcrypt r c = some r') : r.heap c.nkey = none ∧ Effect r c r' := by
  obtain ⟨gently, fs, fname, p⟩ := c
  obtain ⟨hfree, hr'⟩ := Option.ite_none_right_eq_some.mp h
  obtain rfl := Option.some.inj hr'
  have hfree := Option.isNone_iff_eq_none.mp hfree
  cases gently with
  | false => exact ⟨hfree, addkey_effect fs fname hfree⟩
  | true => exact ⟨hfree, gentlyaddkey_effect fs fname hfree⟩

/-! ## What runs keep -/

/-- Every entry is a valid key, under its own ID. -/
def Sound (r : Ring) : Prop :=
  ∀ id p, r.mkeys.find? id = some p →
    ∃ k fkey, r.heap p = some (some k) ∧ k.keyID = id ∧ QiCrKey.make (some fkey) = some k

/-- The entries of `r` are entries of `r'`, the same keys at the same places. -/
def Kept (r r' : Ring) : Prop :=
  ∀ id p, r.mkeys.find? id = some p → r'.mkeys.find? id = some p ∧ r'.heap p = r.heap p

theorem sound_empty (walletdir : Bytes) : (empty walletdir).Sound := fun _ _ h => nomatch h

theorem Kept.refl (r : Ring) : r.Kept r := fun _ _ h => ⟨h, rfl⟩

theorem Kept.trans {r'' : Ring} (h : r.Kept r') (h' : r'.Kept r'') : r.Kept r'' := by
  intro id p hp
  obtain ⟨hp', hheap⟩ := h id p hp
  obtain ⟨hp'', hheap'⟩ := h' id p hp'
  exact ⟨hp'', hheap'.trans hheap⟩

/-- A key is valid where it was read. -/
theorem exists_content {k : QiCrKey} {content : Option Bytes} (h : QiCrKey.make content = some k) :
    ∃ fkey, content = some fkey ∧ QiCrKey.make (some fkey) = some k := by
  cases content with
  | none => cases h
  | some fkey => exact ⟨fkey, rfl, h⟩

/-- Entries do not stand at free places. -/
theorem Sound.ne_free (hs : r.Sound) {id : Bytes} {p q : KeyPtr} (hfree : r.heap p = none)
    (hq : r.mkeys.find? id = some q) : q ≠ p := by
  rintro rfl
  obtain ⟨k, fkey, hheap, -⟩ := hs id q hq
  rw [hfree] at hheap
  cases hheap

theorem Effect.kept (h : Effect r c r') (hs : r.Sound) (hfree : r.heap c.nkey = none) :
    r.Kept r' := by
  cases h with
  | same => exact Kept.refl r
  | leaked _ =>
    intro id p hp
    exact ⟨hp, if_neg (hs.ne_free hfree hp)⟩
  | @added k _ hnone =>
    intro id p hp
    have hid : id ≠ k.keyID := by
      rintro rfl
      rw [hp] at hnone
      cases hnone
    refine ⟨?_, if_neg (hs.ne_free hfree hp)⟩
    exact (Lib.OrdMap.find?_insert_other _ hid).trans hp

theorem Effect.sound (h : Effect r c r') (hs : r.Sound) (hfree : r.heap c.nkey = none) :
    r'.Sound := by
  have hkept := h.kept hs hfree
  -- what was an entry is one still
  have hold : ∀ id p, r.mkeys.find? id = some p → ∃ k fkey, r'.heap p = some (some k) ∧
      k.keyID = id ∧ QiCrKey.make (some fkey) = some k := by
    intro id p hp
    rw [(hkept id p hp).2]
    exact hs id p hp
  cases h with
  | same => exact hs
  | leaked _ => exact hold
  | @added k hmake hnone =>
    intro id p hp
    have hp' : (r.mkeys.insert k.keyID c.nkey).find? id = some p := hp
    rw [Lib.OrdMap.find?_insert] at hp'
    by_cases hid : id = k.keyID
    · rw [if_pos hid] at hp'
      obtain rfl := Option.some.inj hp'
      obtain ⟨fkey, -, hfkey⟩ := exists_content hmake
      exact ⟨k, fkey, if_pos rfl, hid.symm, hfkey⟩
    · rw [if_neg hid] at hp'
      exact hold id p hp'

theorem run_sound {cs : List Call} (hs : r.Sound) (h : Lib.run (step debugcrypt) r cs = some r') :
    r'.Sound :=
  Lib.run_invariant (fun _ _ _ hs hstep => (step_effect hstep).2.sound hs (step_effect hstep).1) hs h

theorem run_kept {cs : List Call} (hs : r.Sound) (h : Lib.run (step debugcrypt) r cs = some r') :
    r.Kept r' := by
  have hboth : r.Kept r' ∧ r'.Sound := by
    refine Lib.run_invariant (I := fun t => r.Kept t ∧ t.Sound) ?_ ⟨Kept.refl r, hs⟩ h
    rintro t c t' ⟨hkept, ht⟩ hstep
    obtain ⟨hfree, heffect⟩ := step_effect hstep
    exact ⟨hkept.trans (heffect.kept ht hfree), heffect.sound ht hfree⟩
  exact hboth.1

/-! ## Looking a key up -/

/-- The entry `p` has the hash that was announced. -/
def HasHash (H : Mhash) (r : Ring) (salt1 salt2 hash : Bytes) (p : KeyPtr) : Prop :=
  ∃ id k, r.mkeys.find? id = some p ∧ r.heap p = some (some k) ∧
    gen2sk H 8 salt1 salt2 k.keyID = some hash

/-- `retreivekey` has found an entry with the hash, or there is none. -/
def Found (H : Mhash) (r : Ring) (salt1 salt2 hash : Bytes)
    (returned : Except Exn (Option KeyPtr)) : Prop :=
  (∃ p, returned = .ok (some p) ∧ HasHash H r salt1 salt2 hash p) ∨
    returned = .ok none ∧ ∀ p, ¬ HasHash H r salt1 salt2 hash p

/-- What the ring's pointers point at. -/
def keyAt (r : Ring) (p : KeyPtr) : QiCrKey := (r.heap p).join.getD ⟨[], [], []⟩

/-- The ring of keys that the pointers stand for. -/
def keys (r : Ring) : KeyRing := ⟨r.mkeys.mapVals fun _ p => r.keyAt p⟩

/-- The loop looks at the keys in the same order, and finds the same one. -/
theorem retreiveIn_eq (H : Mhash) (salt1 salt2 hash : Bytes) {es : List (Bytes × KeyPtr)}
    (hes : ∀ e ∈ es, ∃ k, r.heap e.2 = some (some k)) :
    ∃ res, retreiveIn H r salt1 salt2 hash es = .ok res ∧
      Crypt.retreiveIn H salt1 salt2 hash (es.map fun e => (e.1, r.keyAt e.2))
        = res.map r.keyAt ∧
      (∀ p, res = some p → ∃ id k, (id, p) ∈ es ∧ r.heap p = some (some k) ∧
        gen2sk H 8 salt1 salt2 k.keyID = some hash) ∧
      (res = none → ∀ id p k, (id, p) ∈ es → r.heap p = some (some k) →
        gen2sk H 8 salt1 salt2 k.keyID ≠ some hash) := by
  induction es with
  | nil => refine ⟨none, rfl, rfl, fun _ h => ?_, fun _ _ _ _ h => ?_⟩ <;> cases h
  | cons e es ih =>
    obtain ⟨id, p⟩ := e
    rw [List.forall_mem_cons] at hes
    obtain ⟨⟨k, hk⟩, hes⟩ := hes
    have hk : r.heap p = some (some k) := hk
    have hat : r.keyAt p = k := by rw [keyAt, hk]; rfl
    obtain ⟨res, hres, hkeys, hsome, hnone⟩ := ih hes
    -- what holds of the rest where this key is not the one
    have hskip : gen2sk H 8 salt1 salt2 k.keyID ≠ some hash →
        (∀ q, res = some q → ∃ id' k', (id', q) ∈ (id, p) :: es ∧ r.heap q = some (some k') ∧
          gen2sk H 8 salt1 salt2 k'.keyID = some hash) ∧
        (res = none → ∀ id' q k', (id', q) ∈ (id, p) :: es → r.heap q = some (some k') →
          gen2sk H 8 salt1 salt2 k'.keyID ≠ some hash) := by
      intro hne
      refine ⟨fun q hq => ?_, fun hn id' q k' hmem hk' => ?_⟩
      · obtain ⟨id', k', hmem, hrest⟩ := hsome q hq
        exact ⟨id', k', List.mem_cons_of_mem _ hmem, hrest⟩
      · rcases List.mem_cons.mp hmem with heq | hmem
        · cases heq
          obtain rfl := Option.some.inj (Option.some.inj (hk.symm.trans hk'))
          exact hne
        · exact hnone hn id' q k' hmem hk'
    simp only [retreiveIn, hk, List.map_cons, Crypt.retreiveIn, hat]
    cases hgen : gen2sk H 8 salt1 salt2 k.keyID with
    | none =>
      dsimp only
      obtain ⟨h1, h2⟩ := hskip (by rw [hgen]; intro h; cases h)
      exact ⟨res, hres, hkeys, h1, h2⟩
    | some lhash =>
      dsimp only
      by_cases hl : lhash = hash
      · rw [if_pos hl, if_pos hl]
        refine ⟨some p, rfl, congrArg some hat.symm, fun q hq => ?_, fun h => ?_⟩
        · obtain rfl := Option.some.inj hq
          exact ⟨id, k, List.mem_cons_self, hk, hl ▸ hgen⟩
        · cases h
      · rw [if_neg hl, if_neg hl]
        obtain ⟨h1, h2⟩ := hskip (by rw [hgen]; exact fun h => hl (Option.some.inj h))
        exact ⟨res, hres, hkeys, h1, h2⟩

theorem Sound.entries (hs : r.Sound) : ∀ e ∈ r.mkeys.entries, ∃ k, r.heap e.2 = some (some k) := by
  intro e he
  obtain ⟨k, -, hk, -⟩ := hs e.1 e.2 (Lib.OrdMap.find?_eq_some_iff.mpr he)
  exact ⟨k, hk⟩

/-- **A key is found by its hash** where an entry has it. -/
theorem retreivekey_found (hs : r.Sound) (H : Mhash) (salt1 salt2 hash : Bytes) :
    Found H r salt1 salt2 hash (r.retreivekey H salt1 salt2 hash) := by
  obtain ⟨res, hres, -, hsome, hnone⟩ := retreiveIn_eq H salt1 salt2 hash hs.entries
  rw [retreivekey, hres]
  cases res with
  | some p =>
    obtain ⟨id, k, hmem, hk, hhash⟩ := hsome p rfl
    exact .inl ⟨p, rfl, id, k, Lib.OrdMap.find?_eq_some_iff.mpr hmem, hk, hhash⟩
  | none =>
    refine .inr ⟨rfl, ?_⟩
    rintro p ⟨id, k, hp, hk, hhash⟩
    exact hnone rfl id p k (Lib.OrdMap.find?_eq_some_iff.mp hp) hk hhash

/-- The ring of pointers finds what the ring of keys does. -/
theorem retreivekey_keys (hs : r.Sound) (H : Mhash) (salt1 salt2 hash : Bytes) :
    (r.retreivekey H salt1 salt2 hash).map (Option.map r.keyAt)
      = .ok (r.keys.retreivekey H salt1 salt2 hash) := by
  obtain ⟨res, hres, hkeys, -⟩ := retreiveIn_eq H salt1 salt2 hash hs.entries
  rw [retreivekey, hres, KeyRing.retreivekey]
  exact congrArg Except.ok hkeys.symm

/-! ## The ring as a whole -/

/-- A key that is in the ring can be returned; one that is not is put in, and its ID must be
long enough where it is printed. -/
theorem gentlyaddkey_returns_iff {fs : Bytes → Option Bytes} {fname fkey : Bytes} {p : KeyPtr}
    {k : QiCrKey} (hfree : r.heap p = none)
    (hfile : fs (seekname r.walletdir fname) = some fkey)
    (hmake : QiCrKey.make (some fkey) = some k) :
    (∃ q r', r.gentlyaddkey debugcrypt fs fname p = (.ok (some q), r') ∧
        r'.mkeys.find? k.keyID = some q) ↔
      (debugcrypt = true → r.mkeys.find? k.keyID = none → LongID fkey) := by
  have hmake' : QiCrKey.make (fs (seekname r.walletdir fname)) = some k := hfile ▸ hmake
  cases hfind : r.mkeys.find? k.keyID with
  | some q =>
    rw [gentlyaddkey_present hfree hmake' hfind]
    exact iff_of_true ⟨q, r, rfl, hfind⟩ fun _ h => nomatch h
  | none =>
    rw [gentlyaddkey_absent hmake' hfind, ← readable_iff hmake]
    have hself : ((r.new p (some k)).insert k.keyID p).mkeys.find? k.keyID = some p :=
      Lib.OrdMap.find?_insert_self _ _ _
    cases debugcrypt with
    | false => exact iff_of_true ⟨p, _, rfl, hself⟩ fun h => nomatch h
    | true =>
      rw [if_pos rfl]
      constructor
      · rintro ⟨q, r', heq, -⟩ - -
        obtain ⟨id, hid, -⟩ := map_eq_ok.mp (congrArg Prod.fst heq)
        exact ⟨id, hid⟩
      · intro h
        obtain ⟨id, hid⟩ := h rfl rfl
        rw [hid]
        exact ⟨p, _, rfl, hself⟩

/-- **The key ring** after any calls, also such that have thrown: its entries are valid keys
under their own IDs and stay; a call on an invalid file changes nothing; `gentlyaddkey` returns
the entry for a valid file unless it prints an ID that is too short; and a key is found by its
hash. -/
theorem keyring_integrity {walletdir : Bytes} {cs : List Call}
    (h : Lib.run (step debugcrypt) (empty walletdir) cs = some r) :
    r.Sound ∧
    (∀ cs' r', Lib.run (step debugcrypt) r cs' = some r' → r.Kept r') ∧
    (∀ c : Call, r.heap c.nkey = none → QiCrKey.make (c.file r) = none →
      r.call debugcrypt c = (.ok c.refusal, r)) ∧
    (∀ (fs : Bytes → Option Bytes) (fname fkey : Bytes) (p : KeyPtr) (k : QiCrKey),
      r.heap p = none → fs (seekname r.walletdir fname) = some fkey →
      QiCrKey.make (some fkey) = some k →
      ((∃ q r', r.gentlyaddkey debugcrypt fs fname p = (.ok (some q), r') ∧
          r'.mkeys.find? k.keyID = some q) ↔
        (debugcrypt = true → r.mkeys.find? k.keyID = none → LongID fkey))) ∧
    ∀ (H : Mhash) (salt1 salt2 hash : Bytes),
      Found H r salt1 salt2 hash (r.retreivekey H salt1 salt2 hash) := by
  have hs := run_sound (sound_empty walletdir) h
  refine ⟨hs, fun _ _ h' => run_kept hs h', fun _ hfree hmake => call_invalid hfree hmake, ?_,
    retreivekey_found hs⟩
  exact fun _ _ _ _ _ hfree hfile hmake => gentlyaddkey_returns_iff hfree hfile hmake

/-- Files of which each holds the same key. -/
def filesOf (keyid : Bytes) : Bytes → Option Bytes := fun _ => some (keyFileOf keyid)

/-- A key is added, its file is read again, and a file is missing. -/
def sampleCalls : List Call :=
  [⟨false, filesOf (str "saltprobe"), str "probe.key.priv", 3⟩,
    ⟨true, filesOf (str "saltprobe"), str "probe", 5⟩, ⟨false, fun _ => none, str "missing", 5⟩]

/-- Behind them the ring holds the key where it was built first. -/
theorem keyring_integrity_probe :
    ∃ r, Lib.run (step true) (empty (str "/keys")) sampleCalls = some r ∧ r.Sound ∧
      r.mkeys.find? (str "saltprobe") = some 3 ∧
      (∀ r', Lib.run (step true) r [⟨true, filesOf (str "salthost"), str "host", 7⟩] = some r' →
        r.Kept r') ∧
      r.call true ⟨true, fun _ => none, str "missing", 7⟩ = (.ok (.entry none), r) ∧
      ∃ q r', r.gentlyaddkey true (filesOf (str "saltprobe")) (str "probe") 7 = (.ok (some q), r') ∧
        r'.mkeys.find? (str "saltprobe") = some q := by
  have hne : str "saltprobe" ≠ [] := by decide
  have hmake := make_keyFileOf hne
  let k : QiCrKey := ⟨[1, 2, 3], [4, 5, 6], str "saltprobe"⟩
  let r := ((empty (str "/keys")).new 3 (some k)).insert k.keyID 3
  have hadded : step true (empty (str "/keys")) ⟨false, filesOf (str "saltprobe"),
      str "probe.key.priv", 3⟩ = some r := by
    show some (addkey true (empty (str "/keys")) (filesOf (str "saltprobe")) _ 3).2 = some r
    unfold addkey filesOf
    rw [hmake]
    rfl
  -- what is built a second time is deleted again
  have hagain : step true r ⟨true, filesOf (str "saltprobe"), str "probe", 5⟩ = some r := by
    show some (gentlyaddkey true r (filesOf (str "saltprobe")) _ 5).2 = some r
    unfold gentlyaddkey filesOf
    rw [hmake]
    exact congrArg some (delete_new rfl (some k))
  have hmissing : step true r ⟨false, fun _ => none, str "missing", 5⟩ = some r := by
    show some (r.call true ⟨false, fun _ => none, str "missing", 5⟩).2 = some r
    rw [call_invalid rfl rfl]
  have hrun : Lib.run (step true) (empty (str "/keys")) sampleCalls = some r := by
    rw [sampleCalls, Lib.run_cons_some hadded, Lib.run_cons_some hagain, Lib.run_cons_some hmissing]
    rfl
  obtain ⟨hsound, hkept, hinvalid, hgently, -⟩ := keyring_integrity hrun
  have hfind : r.mkeys.find? (str "saltprobe") = some 3 := by decide
  refine ⟨r, hrun, hsound, hfind, fun r' h => hkept _ r' h, hinvalid _ rfl rfl, ?_⟩
  refine (hgently (filesOf (str "saltprobe")) (str "probe") _ 7 _ rfl rfl hmake).mpr fun _ hnone => ?_
  rw [hfind] at hnone
  cases hnone

/-- Under `debugcrypt`, a valid file with a short ID makes `gentlyaddkey` throw. -/
theorem gentlyaddkey_throws :
    ¬ ∀ (debugcrypt : Bool) (walletdir : Bytes) (cs : List Call) (r : Ring),
      Lib.run (step debugcrypt) (empty walletdir) cs = some r →
      ∀ (fs : Bytes → Option Bytes) (fname fkey : Bytes) (p : KeyPtr) (k : QiCrKey),
        r.heap p = none → fs (seekname r.walletdir fname) = some fkey →
        QiCrKey.make (some fkey) = some k →
        ∃ q r', r.gentlyaddkey debugcrypt fs fname p = (.ok (some q), r') ∧
          r'.mkeys.find? k.keyID = some q := by
  intro h
  have hne : ([7] : Bytes) ≠ [] := by decide
  have hmake := make_keyFileOf hne
  have hfree : (empty []).heap 0 = none := rfl
  have hfile : filesOf [7] (seekname (empty []).walletdir (str "probe")) = some (keyFileOf [7]) :=
    rfl
  have hreturns := h true [] [] (empty []) rfl (filesOf [7]) _ _ _ _ hfree hfile hmake
  have hlong := (gentlyaddkey_returns_iff hfree hfile hmake).mp hreturns rfl rfl
  exact absurd hlong (by decide +kernel)

end Ring

end Qigong.Crypt
