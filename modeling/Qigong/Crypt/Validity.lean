import Qigong.Crypt.Groups
import Qigong.Crypt.KeyFile

/-!
# What makes a key valid (qicrypt.cpp:186–362)

The constructor of `QiCrKey` decodes the first four words of base64 in `rawkey`, whatever
they are: a key, an IV, an ID and a checksum of the three (`make_eq_some_iff`). Words are
missing at the end of `rawkey` only, and then the checksum is: so the three are never empty.

What is not asked of them is a length. `getReadableID` leaves out the first four bytes of the
ID and throws where there are fewer; the test for it stands in the constructor, commented out
(`usable_iff`).
-/

namespace Qigong.Crypt

/-! ## Words -/

/-- The next word of base64 of a text, and what stands behind it. -/
def seekword (s : Bytes) : Bytes × Bytes :=
  ((s.dropWhile isSpace).takeWhile inBase64, (s.dropWhile isSpace).dropWhile inBase64)

/-- The words of a text one after the other, empty where there are no more. -/
def wordAt : Nat → Bytes → Bytes
  | 0, s => (seekword s).1
  | n + 1, s => wordAt n (seekword s).2

/-- The position behind the next word. -/
def wordEnd (s : Bytes) (start : Nat) : Nat :=
  start + ((s.drop start).takeWhile isSpace).length + (seekword (s.drop start)).1.length

theorem drop_length_takeWhile (p : UInt8 → Bool) (s : Bytes) :
    s.drop (s.takeWhile p).length = s.dropWhile p := by
  have h : (s.takeWhile p ++ s.dropWhile p).drop (s.takeWhile p).length = s.dropWhile p :=
    List.drop_left
  rwa [List.takeWhile_append_dropWhile] at h

theorem drop_wordEnd (s : Bytes) (start : Nat) :
    s.drop (wordEnd s start) = (seekword (s.drop start)).2 := by
  rw [wordEnd, Nat.add_assoc, ← List.drop_drop, ← List.drop_drop, drop_length_takeWhile]
  exact drop_length_takeWhile inBase64 _

/-- `base64_seekanddecode` decodes the next word, an empty one as an empty text. -/
theorem seekanddecode_eq (s : Bytes) (start : Nat) :
    base64_seekanddecode s start =
      if (base64_decode (seekword (s.drop start)).1).1 = true then
        some (wordEnd s start, (base64_decode (seekword (s.drop start)).1).2)
      else none := by
  unfold base64_seekanddecode wordEnd seekword
  dsimp only
  split
  case isTrue h =>
    rw [h]
    rfl
  case isFalse h => rfl

theorem seekanddecode_eq_some_iff {s t : Bytes} {start p : Nat} :
    base64_seekanddecode s start = some (p, t) ↔
      base64_decode (seekword (s.drop start)).1 = (true, t) ∧ p = wordEnd s start := by
  rw [seekanddecode_eq, Prod.ext_iff]
  split
  case isTrue h => simp [h, and_comm, eq_comm]
  case isFalse h => simp [h]

/-- What the constructor does with the words: it decodes each behind those before. -/
theorem make_eq (fkey : Bytes) :
    QiCrKey.make (some fkey) =
      (base64_seekanddecode (rawkey fkey) 0).bind fun key =>
      (base64_seekanddecode (rawkey fkey) key.1).bind fun iv =>
      (base64_seekanddecode (rawkey fkey) iv.1).bind fun keyid =>
      (base64_seekanddecode (rawkey fkey) keyid.1).bind fun t =>
      if t.2 = nekchecksum (key.2 ++ iv.2 ++ keyid.2) then some ⟨key.2, iv.2, keyid.2⟩
      else none := rfl

/-- `contkey`: what the checksum is of. -/
def QiCrKey.contkey (k : QiCrKey) : Bytes := k.key ++ k.IV ++ k.keyID

/-- The words of a key file decode, to the parts of `k` and to the checksum `t`. -/
structure Holds (fkey : Bytes) (k : QiCrKey) (t : Bytes) : Prop where
  key : base64_decode (wordAt 0 (rawkey fkey)) = (true, k.key)
  IV : base64_decode (wordAt 1 (rawkey fkey)) = (true, k.IV)
  keyID : base64_decode (wordAt 2 (rawkey fkey)) = (true, k.keyID)
  sum : base64_decode (wordAt 3 (rawkey fkey)) = (true, t)

/-- A file holds one key and one checksum. -/
theorem Holds.unique {fkey t t' : Bytes} {k k' : QiCrKey} (h : Holds fkey k t)
    (h' : Holds fkey k' t') : k = k' ∧ t = t' := by
  -- a word decodes to one text
  have hinj : ∀ {w x y : Bytes}, base64_decode w = (true, x) → base64_decode w = (true, y) → x = y :=
    fun hx hy => congrArg Prod.snd (hx.symm.trans hy)
  refine ⟨?_, hinj h.sum h'.sum⟩
  obtain ⟨key, iv, keyid⟩ := k
  obtain ⟨key', iv', keyid'⟩ := k'
  obtain rfl : key = key' := hinj h.key h'.key
  obtain rfl : iv = iv' := hinj h.IV h'.IV
  obtain rfl : keyid = keyid' := hinj h.keyID h'.keyID
  rfl

/-- **What makes a key valid**: the first four words decode, the fourth to the checksum of
the other three. -/
theorem make_eq_some_iff {fkey : Bytes} {k : QiCrKey} :
    QiCrKey.make (some fkey) = some k ↔ Holds fkey k (nekchecksum k.contkey) := by
  rw [make_eq]
  constructor
  · intro h
    obtain ⟨⟨p, key⟩, h1, h⟩ := Option.bind_eq_some_iff.mp h
    obtain ⟨⟨q, iv⟩, h2, h⟩ := Option.bind_eq_some_iff.mp h
    obtain ⟨⟨r, keyid⟩, h3, h⟩ := Option.bind_eq_some_iff.mp h
    obtain ⟨⟨u, t⟩, h4, h⟩ := Option.bind_eq_some_iff.mp h
    obtain ⟨hsum, heq⟩ := Option.ite_none_right_eq_some.mp h
    obtain rfl := Option.some.inj heq
    obtain ⟨hkey, rfl⟩ := seekanddecode_eq_some_iff.mp h1
    obtain ⟨hiv, rfl⟩ := seekanddecode_eq_some_iff.mp h2
    obtain ⟨hkeyid, rfl⟩ := seekanddecode_eq_some_iff.mp h3
    have ht := (seekanddecode_eq_some_iff.mp h4).1
    simp only [drop_wordEnd, List.drop_zero] at hkey hiv hkeyid ht
    exact ⟨hkey, hiv, hkeyid, ht.trans (congrArg (Prod.mk true) hsum)⟩
  · rintro ⟨hkey, hiv, hkeyid, ht⟩
    -- each call begins where the word before it ended
    have next : ∀ {s : Nat} {t : Bytes},
        base64_decode (seekword ((rawkey fkey).drop s)).1 = (true, t) →
        base64_seekanddecode (rawkey fkey) s = some (wordEnd (rawkey fkey) s, t) :=
      fun h => seekanddecode_eq_some_iff.mpr ⟨h, rfl⟩
    rw [next (s := 0) hkey, Option.bind_some, next (t := k.IV), Option.bind_some,
      next (t := k.keyID), Option.bind_some, next (t := nekchecksum k.contkey), Option.bind_some]
    · exact if_pos rfl
    all_goals simp only [drop_wordEnd, List.drop_zero]
    · exact ht
    · exact hkeyid
    · exact hiv

/-! ## What is decoded is not empty -/

/-- A text of base64 and of the blanks between its words. -/
def OfWords (s : Bytes) : Prop := ∀ c ∈ s, inBase64 c = true ∨ c = 32

theorem ofWords_append {s t : Bytes} (hs : OfWords s) (ht : OfWords t) : OfWords (s ++ t) :=
  fun c hc => (List.mem_append.mp hc).elim (hs c) (ht c)

theorem ofWords_lineTurn (line : Bytes) : OfWords (lineTurn line).1 := by
  unfold lineTurn
  split
  · exact fun c hc => nomatch hc
  case h_2 c t _ =>
  split
  case isTrue => exact fun c hc => nomatch hc
  case isFalse =>
  refine ofWords_append (fun d hd => .inl (List.mem_takeWhile_imp hd)) fun d hd => .inr ?_
  exact List.mem_singleton.mp hd

theorem ofWords_lineTokens (line : Bytes) : OfWords (lineTokens line) := by
  induction line using lineTokens.induct with
  | case1 line hnone =>
    rw [lineTokens_eq hnone]
    exact ofWords_lineTurn line
  | case2 line rest hsome ih =>
    -- the loop takes another turn, on what this one left
    have heq : lineTokens line = (lineTurn line).1 ++ lineTokens rest := by
      rw [lineTokens]
      split
      · rename_i hnone
        rw [hsome] at hnone
        cases hnone
      · rename_i rest' hsome'
        rw [hsome] at hsome'
        rw [Option.some.inj hsome']
    rw [heq]
    exact ofWords_append (ofWords_lineTurn line) ih

/-- `rawkey` holds nothing else. -/
theorem ofWords_rawkey (fkey : Bytes) : OfWords (rawkey fkey) := by
  intro c hc
  obtain ⟨line, -, hc⟩ := List.mem_flatMap.mp hc
  exact ofWords_lineTokens line c hc

theorem ofWords_seekword {s : Bytes} (h : OfWords s) : OfWords (seekword s).2 := fun c hc =>
  h c ((List.dropWhile_suffix _).mem ((List.dropWhile_suffix _).mem hc))

/-- No word comes behind an empty one: it stands at the end. -/
theorem seekword_rest_nil {s : Bytes} (h : OfWords s) (hnil : (seekword s).1 = []) :
    (seekword s).2 = [] := by
  unfold seekword at hnil ⊢
  cases hs : s.dropWhile isSpace with
  | nil => rfl
  | cons c t =>
    rw [hs] at hnil
    -- what stands behind the spaces is a character of base64, which begins a word
    have hblank : ¬ isSpace c = true := by
      rw [not_isSpace_of_dropWhile hs]
      exact Bool.false_ne_true
    have hin : inBase64 c = true := by
      rcases h c ((List.dropWhile_suffix _).mem (hs ▸ List.mem_cons_self)) with hin | rfl
      · exact hin
      · exact absurd rfl hblank
    dsimp only at hnil
    rw [List.takeWhile_cons_of_pos hin] at hnil
    cases hnil

/-- In front of a word stands a word. -/
theorem wordAt_ne_nil {n : Nat} {s : Bytes} (hs : OfWords s) (h : wordAt (n + 1) s ≠ []) :
    wordAt n s ≠ [] := by
  induction n generalizing s with
  | zero =>
    intro hnil
    rw [wordAt, seekword_rest_nil hs hnil] at h
    exact h rfl
  | succ n ih => exact ih (ofWords_seekword hs) h

/-- Words that decode have a length that tells that of the text: three bytes for four
characters, one less for each padding. -/
theorem decode_length {w t : Bytes} (h : base64_decode w = (true, t)) :
    t.length + w.count pad = 3 * (w.length / 4) := by
  -- each group is three bytes, of which a padding takes one
  have hgroup : ∀ g : Group, g.bytes.length + g.text.count pad = 3 := by
    intro g
    cases g <;> simp [Group.bytes, Group.text, highBytes, Letter.ne_pad]
  obtain ⟨gs, rfl⟩ := exists_groups (w := w) (by rw [h])
  rw [base64_decode_texts] at h
  obtain rfl : gs.flatMap Group.bytes = t := congrArg Prod.snd h
  clear h
  induction gs with
  | nil => rfl
  | cons g gs ih =>
    have hlen := g.length_text
    have hg := hgroup g
    simp only [List.flatMap_cons, List.length_append, List.count_append, hlen]
    omega

theorem decode_ne_nil {w t : Bytes} (h : base64_decode w = (true, t)) (hw : w ≠ []) : t ≠ [] := by
  obtain ⟨gs, rfl⟩ := exists_groups (w := w) (by rw [h])
  rw [base64_decode_texts] at h
  obtain rfl : gs.flatMap Group.bytes = t := congrArg Prod.snd h
  cases gs with
  | nil => exact absurd rfl hw
  | cons g gs => cases g <;> exact List.cons_ne_nil _ _

/-- The key, the IV and the ID of a valid key are not empty: the checksum stands behind
them. -/
theorem make_ne_nil {fkey : Bytes} {k : QiCrKey} (h : QiCrKey.make (some fkey) = some k) :
    k.key ≠ [] ∧ k.IV ≠ [] ∧ k.keyID ≠ [] := by
  obtain ⟨hkey, hiv, hkeyid, ht⟩ := make_eq_some_iff.mp h
  have hof := ofWords_rawkey fkey
  -- the checksum has four bytes, so that its word is not empty
  have h3 : wordAt 3 (rawkey fkey) ≠ [] := by
    intro hnil
    rw [hnil] at ht
    cases congrArg Prod.snd ht
  have h2 := wordAt_ne_nil hof h3
  have h1 := wordAt_ne_nil hof h2
  exact ⟨decode_ne_nil hkey (wordAt_ne_nil hof h1), decode_ne_nil hiv h1, decode_ne_nil hkeyid h2⟩

/-! ## The length of the ID -/

/-- The word of the ID stands for its salt at least: four bytes. -/
def LongID (fkey : Bytes) : Prop :=
  4 + (wordAt 2 (rawkey fkey)).count pad ≤ 3 * ((wordAt 2 (rawkey fkey)).length / 4)

instance (fkey : Bytes) : Decidable (LongID fkey) := inferInstanceAs (Decidable (_ ≤ _))

/-- The ID of a valid key can be printed where it has four bytes or more. -/
theorem readable_iff {fkey : Bytes} {k : QiCrKey} (h : QiCrKey.make (some fkey) = some k) :
    (∃ r, k.getReadableID = .ok r) ↔ LongID fkey := by
  have hlen := decode_length (make_eq_some_iff.mp h).keyID
  rw [LongID, ← hlen, Nat.add_le_add_iff_right]
  exact k.getReadableID_ok_iff

/-- **Which valid keys are usable**: those with an ID of four bytes or more. -/
theorem usable_iff {fkey : Bytes} {k : QiCrKey} (h : QiCrKey.make (some fkey) = some k) :
    (k.key ≠ [] ∧ k.IV ≠ [] ∧ k.keyID ≠ [] ∧ ∃ r, k.getReadableID = .ok r) ↔ LongID fkey := by
  obtain ⟨hkey, hiv, hkeyid⟩ := make_ne_nil h
  rw [← readable_iff h]
  exact ⟨fun hall => hall.2.2.2, fun hr => ⟨hkey, hiv, hkeyid, hr⟩⟩

/-- Key files written as `qigenkey` writes them are valid, whatever the ID. -/
theorem make_wack {fqdn key iv keyid : Bytes} (hfqdn : ∀ c ∈ fqdn, endsLine c = false)
    (hkey : key ≠ []) (hiv : iv ≠ []) (hkeyid : keyid ≠ []) :
    QiCrKey.make (some (wack fqdn key iv keyid)) = some ⟨key, iv, keyid⟩ := by
  apply make_of_rawkey hkey hiv hkeyid
  have hls : ((wackLines fqdn key iv keyid).map fun line => (line, LineEnd.lf)).map Prod.fst
      = wackLines fqdn key iv keyid := by
    rw [List.map_map]
    exact List.map_id _
  have htexts := rawkey_texts ((wackLines fqdn key iv keyid).map fun line => (line, .lf))
    (hls.symm ▸ wackLines_plain hfqdn key iv keyid)
  rw [hls, List.flatMap_map] at htexts
  exact htexts.trans (lineTokens_wack hkey hiv hkeyid fqdn)

/-- A key file with an ID of one's choice. -/
def keyFileOf (keyid : Bytes) : Bytes := wack (str "probe") [1, 2, 3] [4, 5, 6] keyid

theorem make_keyFileOf {keyid : Bytes} (h : keyid ≠ []) :
    QiCrKey.make (some (keyFileOf keyid)) = some ⟨[1, 2, 3], [4, 5, 6], keyid⟩ :=
  make_wack (forall_mem_of_all (by decide)) (by decide) (by decide) h

theorem usable_iff_probe :
    ([1, 2, 3] : Bytes) ≠ [] ∧ ([4, 5, 6] : Bytes) ≠ [] ∧ str "saltprobe" ≠ [] ∧
      ∃ r, (QiCrKey.mk [1, 2, 3] [4, 5, 6] (str "saltprobe")).getReadableID = .ok r := by
  have hne : str "saltprobe" ≠ [] := by decide
  exact (usable_iff (make_keyFileOf hne)).mpr (by decide +kernel)

/-- An ID of one byte passes all that is tested, and throws when it is printed. -/
theorem short_id_unusable :
    ¬ ∀ (fkey : Bytes) (k : QiCrKey), QiCrKey.make (some fkey) = some k →
      k.key ≠ [] ∧ k.IV ≠ [] ∧ k.keyID ≠ [] ∧ ∃ r, k.getReadableID = .ok r := by
  intro h
  have hne : ([7] : Bytes) ≠ [] := by decide
  obtain ⟨-, -, -, r, hr⟩ := h _ _ (make_keyFileOf hne)
  cases hr

end Qigong.Crypt
