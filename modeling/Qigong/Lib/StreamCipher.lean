import Mathlib.Data.List.Basic

/-!
# Stream ciphers and the chunks they are fed in

A stream cipher carries a state from one call to the next; two ends stay in
step as long as they start from one state and see the same ciphertext.

- `chunks n xs`: `xs` cut every `n` elements, the last chunk being the rest;
- `StreamCipher`: a length-preserving cipher with a running state, whose
  decryption may fail;
- `encryptChunks`, `decryptChunks`: a list of chunks through the cipher;
- `decryptChunks_encryptChunks`: the two ends agree on the text and on the state,
  once decryption undoes encryption from equal states (`Undoes`);
- `cfb`: one-element cipher feedback, in which a text element is combined with a
  keyed function of the register, and the register takes in the ciphertext element.
-/

namespace Lib

universe u v

variable {α : Type u}

/-! ## Cutting a list every `n` elements -/

/-- `chunks` with an explicit bound on the number of chunks. -/
def chunksFuel (n : Nat) : Nat → List α → List (List α)
  | 0, _ => []
  | _ + 1, [] => []
  | fuel + 1, x :: xs => (x :: xs).take n :: chunksFuel n fuel ((x :: xs).drop n)

/-- `xs` cut every `n` elements. -/
def chunks (n : Nat) (xs : List α) : List (List α) := chunksFuel n xs.length xs

/-- Any bound of at least the length gives the same chunks. -/
theorem chunksFuel_eq {n : Nat} (hn : 0 < n) :
    ∀ (fuel fuel' : Nat) (xs : List α), xs.length ≤ fuel → xs.length ≤ fuel' →
      chunksFuel n fuel xs = chunksFuel n fuel' xs := by
  intro fuel
  induction fuel with
  | zero =>
    intro fuel' xs h _
    rw [List.length_eq_zero_iff.mp (Nat.le_zero.mp h)]
    cases fuel' <;> rfl
  | succ fuel ih =>
    intro fuel' xs h h'
    cases xs with
    | nil => cases fuel' <;> rfl
    | cons x xs =>
      cases fuel' with
      | zero => cases h'
      | succ fuel' =>
        have hdrop : ((x :: xs).drop n).length ≤ xs.length := by
          rw [List.length_drop, List.length_cons]
          omega
        rw [List.length_cons] at h h'
        rw [chunksFuel, chunksFuel, ih fuel' _ (by omega) (by omega)]

@[simp] theorem chunks_nil (n : Nat) : chunks n ([] : List α) = [] := rfl

/-- The first chunk of a non-empty list, and the chunks of what is left. -/
theorem chunks_of_ne_nil {n : Nat} (hn : 0 < n) {xs : List α} (h : xs ≠ []) :
    chunks n xs = xs.take n :: chunks n (xs.drop n) := by
  cases xs with
  | nil => exact absurd rfl h
  | cons x xs =>
    have hdrop : ((x :: xs).drop n).length ≤ xs.length := by
      rw [List.length_drop, List.length_cons]
      omega
    show (x :: xs).take n :: chunksFuel n xs.length ((x :: xs).drop n) = _
    rw [chunksFuel_eq hn _ _ _ hdrop (Nat.le_refl _)]
    rfl

/-- Induction over the chunks of a list. -/
theorem chunks_induction {n : Nat} (hn : 0 < n) {P : List α → Prop} (nil : P [])
    (step : ∀ xs, xs ≠ [] → P (xs.drop n) → P xs) (xs : List α) : P xs := by
  generalize hlen : xs.length = k
  induction k using Nat.strongRecOn generalizing xs with
  | _ k ih =>
    by_cases h : xs = []
    · rw [h]; exact nil
    · have hpos : 0 < xs.length := List.length_pos_iff.mpr h
      refine step xs h (ih (xs.drop n).length ?_ _ rfl)
      rw [List.length_drop]
      omega

/-- Chunks put together again are the whole. -/
theorem chunks_flatten {n : Nat} (hn : 0 < n) (xs : List α) : (chunks n xs).flatten = xs := by
  induction xs using chunks_induction hn with
  | nil => rfl
  | step xs h ih =>
    rw [chunks_of_ne_nil hn h, List.flatten_cons, ih, List.take_append_drop]

/-- Pieces as long as the chunks of some list are the chunks of what they make
together. -/
theorem chunks_flatten_of_lengths {n : Nat} (hn : 0 < n) (xs : List α) :
    ∀ cs : List (List α), cs.map List.length = (chunks n xs).map List.length →
      chunks n cs.flatten = cs := by
  induction xs using chunks_induction hn with
  | nil =>
    intro cs h
    rw [List.map_eq_nil_iff.mp h]
    rfl
  | step xs h ih =>
    intro cs hcs
    rw [chunks_of_ne_nil hn h] at hcs
    cases cs with
    | nil => cases hcs
    | cons c cs =>
      obtain ⟨hc, hrest⟩ := List.cons_eq_cons.mp hcs
      have hpos : 0 < xs.length := List.length_pos_iff.mpr h
      rw [List.length_take] at hc
      have hne : (c :: cs).flatten ≠ [] := by
        rw [List.flatten_cons]
        intro hnil
        rw [(List.append_eq_nil_iff.mp hnil).1, List.length_nil] at hc
        omega
      rw [chunks_of_ne_nil hn hne, List.flatten_cons]
      rcases Nat.lt_or_ge n xs.length with hlt | hge
      · -- a full chunk: the cut after `n` elements falls right behind `c`
        have hlen : c.length = n := by omega
        rw [← hlen, List.take_left, List.drop_left, hlen, ih cs hrest]
      · -- the last chunk: nothing is left behind it
        rw [List.drop_eq_nil_of_le hge] at hrest
        rw [List.map_eq_nil_iff.mp hrest, List.flatten_nil, List.append_nil,
          List.take_of_length_le (by omega), List.drop_eq_nil_of_le (by omega)]
        rfl

/-! ## Stream ciphers -/

/-- A cipher with a running state. Encryption works in place, so it keeps the
length of the text; decryption says `none` when it fails. -/
structure StreamCipher (α : Type u) where
  State : Type v
  encrypt : State → List α → List α × State
  decrypt : State → List α → Option (List α) × State
  encrypt_length : ∀ st xs, (encrypt st xs).1.length = xs.length

namespace StreamCipher

variable (C : StreamCipher.{u, v} α)

/-- Decryption undoes encryption from equal states, and leaves equal states. -/
def Undoes : Prop :=
  ∀ st xs, C.decrypt st (C.encrypt st xs).1 = (some xs, (C.encrypt st xs).2)

/-- Encrypt chunk after chunk. -/
def encryptChunks : C.State → List (List α) → List (List α) × C.State
  | st, [] => ([], st)
  | st, x :: xs =>
    let c := C.encrypt st x
    let r := encryptChunks c.2 xs
    (c.1 :: r.1, r.2)

/-- Decrypt chunk after chunk: the number of chunks that failed, the text of the
others, and the state. -/
def decryptChunks : C.State → List (List α) → Nat × List α × C.State
  | st, [] => (0, [], st)
  | st, x :: xs =>
    let d := C.decrypt st x
    let r := decryptChunks d.2 xs
    match d.1 with
    | none => (r.1 + 1, r.2.1, r.2.2)
    | some t => (r.1, t ++ r.2.1, r.2.2)

variable {C}

@[simp] theorem encryptChunks_nil (st : C.State) : C.encryptChunks st [] = ([], st) := rfl

@[simp] theorem decryptChunks_nil (st : C.State) : C.decryptChunks st [] = (0, [], st) := rfl

/-- A first chunk that decrypts. -/
theorem decryptChunks_cons {st : C.State} {x t : List α} (h : (C.decrypt st x).1 = some t)
    (xs : List (List α)) :
    C.decryptChunks st (x :: xs)
      = ((C.decryptChunks (C.decrypt st x).2 xs).1,
        t ++ (C.decryptChunks (C.decrypt st x).2 xs).2.1,
        (C.decryptChunks (C.decrypt st x).2 xs).2.2) := by
  rw [decryptChunks, h]

/-- Each chunk keeps its length. -/
theorem encryptChunks_lengths (st : C.State) (xs : List (List α)) :
    (C.encryptChunks st xs).1.map List.length = xs.map List.length := by
  induction xs generalizing st with
  | nil => rfl
  | cons x xs ih =>
    show (C.encrypt st x).1.length :: _ = x.length :: _
    rw [C.encrypt_length, ih]

/-- **The two ends stay in step**: decrypting the encrypted chunks from the same
state yields their text, without a failure, and the same state. -/
theorem decryptChunks_encryptChunks (h : C.Undoes) (st : C.State) (xs : List (List α)) :
    C.decryptChunks st (C.encryptChunks st xs).1
      = (0, xs.flatten, (C.encryptChunks st xs).2) := by
  induction xs generalizing st with
  | nil => rfl
  | cons x xs ih =>
    show C.decryptChunks st ((C.encrypt st x).1 :: (C.encryptChunks (C.encrypt st x).2 xs).1) = _
    rw [decryptChunks_cons (congrArg Prod.fst (h st x)), h st x, ih]
    rfl

/-- Chunks of ciphertext are cut where the chunks of text were. -/
theorem chunks_encryptChunks {n : Nat} (hn : 0 < n) (st : C.State) (xs : List α) :
    chunks n (C.encryptChunks st (chunks n xs)).1.flatten
      = (C.encryptChunks st (chunks n xs)).1 :=
  chunks_flatten_of_lengths hn xs _ (encryptChunks_lengths st _)

/-- The states decryption leads to from a state. -/
inductive DecryptsTo (C : StreamCipher.{u, v} α) (st : C.State) : C.State → Prop where
  | refl : DecryptsTo C st st
  | decrypt {st'} (xs) : DecryptsTo C st st' → DecryptsTo C st (C.decrypt st' xs).2

theorem DecryptsTo.chunks {st st' : C.State} (h : DecryptsTo C st st') (xs : List (List α)) :
    DecryptsTo C st (C.decryptChunks st' xs).2.2 := by
  induction xs generalizing st' with
  | nil => exact h
  | cons x xs ih =>
    have hrest := ih (h.decrypt x)
    rw [decryptChunks]
    cases (C.decrypt st' x).1 with
    | none => exact hrest
    | some t => exact hrest

end StreamCipher

/-! ## Cipher feedback of one element -/

section Cfb

variable (op : α → α → α) (F : List α → α)

/-- The register takes a ciphertext element in and drops its oldest one. -/
def shift (reg : List α) (c : α) : List α := (reg ++ [c]).drop 1

/-- Encrypt in one-element cipher feedback. -/
def cfbEncrypt : List α → List α → List α × List α
  | reg, [] => ([], reg)
  | reg, p :: ps =>
    let c := op p (F reg)
    let r := cfbEncrypt (shift reg c) ps
    (c :: r.1, r.2)

/-- Decrypt in one-element cipher feedback. -/
def cfbDecrypt : List α → List α → List α × List α
  | reg, [] => ([], reg)
  | reg, c :: cs =>
    let r := cfbDecrypt (shift reg c) cs
    (op c (F reg) :: r.1, r.2)

variable {op F}

theorem cfbEncrypt_length (reg ps : List α) : (cfbEncrypt op F reg ps).1.length = ps.length := by
  induction ps generalizing reg with
  | nil => rfl
  | cons p ps ih => exact congrArg Nat.succ (ih _)

theorem cfbDecrypt_length (reg cs : List α) : (cfbDecrypt op F reg cs).1.length = cs.length := by
  induction cs generalizing reg with
  | nil => rfl
  | cons c cs ih => exact congrArg Nat.succ (ih _)

/-- The register holds the latest elements of what it started with and the
ciphertext since. -/
theorem cfbDecrypt_register (reg cs : List α) :
    (cfbDecrypt op F reg cs).2 = (reg ++ cs).drop cs.length := by
  induction cs generalizing reg with
  | nil => simp [cfbDecrypt]
  | cons c cs ih =>
    show (cfbDecrypt op F (shift reg c) cs).2 = _
    have hsplit : reg ++ c :: cs = (reg ++ [c]) ++ cs := by simp
    rw [ih, List.length_cons, hsplit, Nat.add_comm, ← List.drop_drop]
    congr 1
    rw [List.drop_append_of_le_length (by simp)]
    rfl

/-- Enciphering goes on from the register it has come to. -/
theorem cfbEncrypt_append (reg ps qs : List α) :
    cfbEncrypt op F reg (ps ++ qs)
      = ((cfbEncrypt op F reg ps).1 ++ (cfbEncrypt op F (cfbEncrypt op F reg ps).2 qs).1,
        (cfbEncrypt op F (cfbEncrypt op F reg ps).2 qs).2) := by
  induction ps generalizing reg with
  | nil => rfl
  | cons p ps ih => rw [List.cons_append, cfbEncrypt, ih]; rfl

/-- And so does deciphering. -/
theorem cfbDecrypt_append (reg cs ds : List α) :
    cfbDecrypt op F reg (cs ++ ds)
      = ((cfbDecrypt op F reg cs).1 ++ (cfbDecrypt op F (cfbDecrypt op F reg cs).2 ds).1,
        (cfbDecrypt op F (cfbDecrypt op F reg cs).2 ds).2) := by
  induction cs generalizing reg with
  | nil => rfl
  | cons c cs ih => rw [List.cons_append, cfbDecrypt, ih]; rfl

/-- So it does at the sender's end. -/
theorem cfbEncrypt_register (reg ps : List α) :
    (cfbEncrypt op F reg ps).2 = (reg ++ (cfbEncrypt op F reg ps).1).drop ps.length := by
  induction ps generalizing reg with
  | nil => simp [cfbEncrypt]
  | cons p ps ih =>
    show (cfbEncrypt op F (shift reg (op p (F reg))) ps).2
      = (reg ++ op p (F reg) :: (cfbEncrypt op F (shift reg (op p (F reg))) ps).1).drop _
    rw [ih, List.length_cons, List.append_cons, Nat.add_comm, ← List.drop_drop]
    congr 1
    rw [List.drop_append_of_le_length (by simp)]
    rfl

/-- **Deciphering undoes enciphering** from the same register, and the registers stay the same. -/
theorem cfbDecrypt_cfbEncrypt (hop : ∀ a k, op (op a k) k = a) (reg ps : List α) :
    cfbDecrypt op F reg (cfbEncrypt op F reg ps).1 = (ps, (cfbEncrypt op F reg ps).2) := by
  induction ps generalizing reg with
  | nil => rfl
  | cons p ps ih =>
    show (op (op p (F reg)) (F reg) ::
      (cfbDecrypt op F (shift reg (op p (F reg))) (cfbEncrypt op F _ ps).1).1, _) = _
    rw [hop, ih]
    rfl

theorem cfbEncrypt_cfbDecrypt (hop : ∀ a k, op (op a k) k = a) (reg cs : List α) :
    cfbEncrypt op F reg (cfbDecrypt op F reg cs).1 = (cs, (cfbDecrypt op F reg cs).2) := by
  induction cs generalizing reg with
  | nil => rfl
  | cons c cs ih =>
    have hc : op (op c (F reg)) (F reg) = c := hop c (F reg)
    show (op (op c (F reg)) (F reg) ::
      (cfbEncrypt op F (shift reg (op (op c (F reg)) (F reg)))
        (cfbDecrypt op F (shift reg c) cs).1).1, _) = _
    rw [hc, ih]
    rfl

/-- A ciphertext decrypts to `ps` exactly when it is the encryption of `ps` from
the same register. -/
theorem cfbDecrypt_eq_iff (hop : ∀ a k, op (op a k) k = a) {reg cs ps : List α} :
    (cfbDecrypt op F reg cs).1 = ps ↔ cs = (cfbEncrypt op F reg ps).1 := by
  constructor
  · rintro rfl
    rw [cfbEncrypt_cfbDecrypt hop]
  · rintro rfl
    rw [cfbDecrypt_cfbEncrypt hop]

/-- Cipher feedback under a key as a stream cipher, the state being the key and
the register. -/
def cfb {κ : Type v} (op : α → α → α) (F : κ → List α → α) : StreamCipher α where
  State := κ × List α
  encrypt st ps := ((cfbEncrypt op (F st.1) st.2 ps).1, (st.1, (cfbEncrypt op (F st.1) st.2 ps).2))
  decrypt st cs :=
    (some (cfbDecrypt op (F st.1) st.2 cs).1, (st.1, (cfbDecrypt op (F st.1) st.2 cs).2))
  encrypt_length st := cfbEncrypt_length st.2

/-- Chunks do not matter to cipher feedback. -/
theorem cfb_encryptChunks {κ : Type v} {F : κ → List α → α} (key : κ) (reg : List α)
    (ps : List (List α)) :
    ((cfb op F).encryptChunks (key, reg) ps).1.flatten = (cfbEncrypt op (F key) reg ps.flatten).1 ∧
      ((cfb op F).encryptChunks (key, reg) ps).2
        = (key, (cfbEncrypt op (F key) reg ps.flatten).2) := by
  induction ps generalizing reg with
  | nil => exact ⟨rfl, rfl⟩
  | cons p ps ih =>
    have hrest := ih (cfbEncrypt op (F key) reg p).2
    rw [List.flatten_cons, cfbEncrypt_append]
    exact ⟨congrArg _ hrest.1, hrest.2⟩

theorem cfb_decryptChunks {κ : Type v} {F : κ → List α → α} (key : κ) (reg : List α)
    (cs : List (List α)) :
    (cfb op F).decryptChunks (key, reg) cs
      = (0, (cfbDecrypt op (F key) reg cs.flatten).1,
        (key, (cfbDecrypt op (F key) reg cs.flatten).2)) := by
  induction cs generalizing reg with
  | nil => rfl
  | cons c cs ih =>
    have hx : ((cfb op F).decrypt (key, reg) c).1 = some (cfbDecrypt op (F key) reg c).1 := rfl
    have hst : ((cfb op F).decrypt (key, reg) c).2 = (key, (cfbDecrypt op (F key) reg c).2) := rfl
    rw [StreamCipher.decryptChunks_cons hx, hst, ih, List.flatten_cons, cfbDecrypt_append]
    rfl

/-- Cipher feedback is undone whatever the block function is. -/
theorem cfb_undoes {κ : Type v} {F : κ → List α → α} (hop : ∀ a k, op (op a k) k = a) :
    (cfb op F).Undoes := by
  rintro ⟨key, reg⟩ ps
  have h := cfbDecrypt_cfbEncrypt (F := F key) hop reg ps
  have hfst := congrArg Prod.fst h
  have hsnd := congrArg Prod.snd h
  exact Prod.ext (congrArg some hfst) (congrArg (Prod.mk key) hsnd)

end Cfb

end Lib
