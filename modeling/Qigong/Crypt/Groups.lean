import Qigong.Crypt.Base64

/-!
# What `base64_decode` takes

A line that decodes is made of groups of four characters (`Group`): three forms are those
of base64, and the fourth has a letter behind the padding. `base64_decode` returns 0 on
the lines made of the four, and so keeps to base64 exactly on the lines in which no group
is of the fourth (`accepts_format_iff`).
-/

namespace Qigong.Crypt

/-- The encodings of any pieces, one after the other, decode to the pieces. -/
theorem decode_encodings :
    (∀ ps : List Bytes, base64_decode (ps.flatMap base64_encode) = (true, ps.flatten)) ∧
      ∀ s, base64_decode (base64_encode s) = (true, s) := by
  refine ⟨fun ps => ?_, base64_decode_encode⟩
  rw [List.flatMap_def]
  exact base64_decode_pieces ps

/-! ## Letters -/

/-- A character of the base64 alphabet. -/
abbrev Letter := { c : UInt8 // c ∈ encoding_table }

/-- What a letter stands for: its place in the alphabet. -/
def Letter.value (a : Letter) : Nat := encoding_table.idxOf a.val

/-- The letters are the characters `decoding_table` knows, and it gives their places. -/
theorem decoding_table_letters : ∀ c : UInt8, (decoding_table c ≠ -1 ↔ c ∈ encoding_table) ∧
    (c ∈ encoding_table → c ≠ pad ∧ decoding_table c = (encoding_table.idxOf c : Nat)) :=
  forall_byte (by decide +kernel)

namespace Letter

theorem ne_pad (a : Letter) : a.val ≠ pad := ((decoding_table_letters a).2 a.property).1

theorem decoding_table_eq (a : Letter) : decoding_table a = (a.value : Nat) :=
  ((decoding_table_letters a).2 a.property).2

theorem tail (a : Letter) : Tail a.val a.value 1 := .inl ⟨a.ne_pad, a.decoding_table_eq, rfl⟩

end Letter

theorem tail_pad : Tail pad 0 0 := .inr ⟨rfl, rfl, rfl⟩

/-! ## Groups -/

/-- Four characters that decode: `CCCC`, `CCC=` and `CC==` are base64, `CC=C` is not. -/
inductive Group where
  | full (a b c d : Letter)
  | padded (a b c : Letter)
  | doublyPadded (a b : Letter)
  | broken (a b d : Letter)

/-- The first `k` bytes of the 24 bits of four values. -/
def highBytes (k sa sb sc sd : Nat) : Bytes :=
  ((List.range 3).take k).map fun j =>
    UInt8.ofNat ((sa * 2 ^ 18 + sb * 2 ^ 12 + sc * 2 ^ 6 + sd) / 256 ^ (2 - j) % 256)

namespace Group

def text : Group → Bytes
  | full a b c d => [a.val, b.val, c.val, d.val]
  | padded a b c => [a.val, b.val, c.val, pad]
  | doublyPadded a b => [a.val, b.val, pad, pad]
  | broken a b d => [a.val, b.val, pad, d.val]

def bytes : Group → Bytes
  | full a b c d => highBytes 3 a.value b.value c.value d.value
  | padded a b c => highBytes 2 a.value b.value c.value 0
  | doublyPadded a b => highBytes 1 a.value b.value 0 0
  | broken a b d => highBytes 2 a.value b.value 0 d.value

/-- The group is one of base64. -/
def InFormat : Group → Prop
  | full _ _ _ _ | padded _ _ _ | doublyPadded _ _ => True
  | broken _ _ _ => False

theorem text_inj {g g' : Group} (h : g.text = g'.text) : g = g' := by
  cases g <;> cases g' <;>
    simp_all [text, Subtype.ext_iff, Letter.ne_pad, (Letter.ne_pad _).symm]

theorem length_text (g : Group) : g.text.length = 4 := by
  cases g <;> rfl

end Group

theorem highBytes_eq (k sa sb sc sd : Nat) :
    highBytes k sa sb sc sd = ((List.range 3).take k).map fun j =>
      UInt8.ofNat ((((sa <<< 18) + (sb <<< 12) + (sc <<< 6) + sd) >>> ((2 - j) * 8)) &&& 0xff) := by
  refine List.map_congr_left fun j _ => ?_
  rw [and_0xff, Nat.shiftRight_eq_div_pow, Nat.shiftLeft_eq, Nat.shiftLeft_eq, Nat.shiftLeft_eq,
    Nat.mul_comm (2 - j) 8, Nat.pow_mul]

/-- A group decodes to its bytes. -/
theorem decodeGroup_text {g : Group} {a b c d : UInt8} (h : g.text = [a, b, c, d]) :
    decodeGroup a b c d = some g.bytes := by
  cases g with
  | full x y z w =>
    cases h
    rw [decodeGroup_eq x.decoding_table_eq y.decoding_table_eq z.tail w.tail, ← highBytes_eq]
    rfl
  | padded x y z =>
    cases h
    rw [decodeGroup_eq x.decoding_table_eq y.decoding_table_eq z.tail tail_pad, ← highBytes_eq]
    rfl
  | doublyPadded x y =>
    cases h
    rw [decodeGroup_eq x.decoding_table_eq y.decoding_table_eq tail_pad tail_pad, ← highBytes_eq]
    rfl
  | broken x y w =>
    cases h
    rw [decodeGroup_eq x.decoding_table_eq y.decoding_table_eq tail_pad w.tail, ← highBytes_eq]
    rfl

/-- Four characters that decode are a group. -/
theorem exists_group {a b c d : UInt8} {r : Bytes} (h : decodeGroup a b c d = some r) :
    ∃ g : Group, g.text = [a, b, c, d] := by
  have hletter : ∀ {x : UInt8}, ¬ (decoding_table x == -1) = true → x ∈ encoding_table :=
    fun hx => (decoding_table_letters _).1.mp fun heq => hx (beq_iff_eq.mpr heq)
  -- the third and the fourth character are `=` or a letter
  have hplace : ∀ {x : UInt8}, ¬ (x != pad && decoding_table x == -1) = true →
      x = pad ∨ x ∈ encoding_table := by
    intro x hx
    by_cases hp : x = pad
    · exact .inl hp
    · refine .inr (hletter fun heq => hx ?_)
      rw [heq, Bool.and_true]
      exact bne_iff_ne.mpr hp
  unfold decodeGroup at h
  split at h
  · cases h
  case isFalse ha =>
  split at h
  · cases h
  case isFalse hb =>
  split at h
  · cases h
  case isFalse hc =>
  split at h
  · cases h
  case isFalse hd =>
  rcases hplace hc with rfl | hc <;> rcases hplace hd with rfl | hd
  · exact ⟨.doublyPadded ⟨a, hletter ha⟩ ⟨b, hletter hb⟩, rfl⟩
  · exact ⟨.broken ⟨a, hletter ha⟩ ⟨b, hletter hb⟩ ⟨d, hd⟩, rfl⟩
  · exact ⟨.padded ⟨a, hletter ha⟩ ⟨b, hletter hb⟩ ⟨c, hc⟩, rfl⟩
  · exact ⟨.full ⟨a, hletter ha⟩ ⟨b, hletter hb⟩ ⟨c, hc⟩ ⟨d, hd⟩, rfl⟩

/-! ## Lines -/

/-- A line of groups decodes to the bytes of the groups. -/
theorem base64_decode_texts (gs : List Group) :
    base64_decode (gs.flatMap Group.text) = (true, gs.flatMap Group.bytes) := by
  induction gs with
  | nil => rfl
  | cons g gs ih =>
    obtain ⟨a, b, c, d, htext⟩ : ∃ a b c d, g.text = [a, b, c, d] := by
      cases g <;> exact ⟨_, _, _, _, rfl⟩
    rw [List.flatMap_cons, List.flatMap_cons, htext]
    show base64_decode (a :: b :: c :: d :: gs.flatMap Group.text) = _
    rw [base64_decode_group (decodeGroup_text htext), ih]

/-- A line that decodes is one of groups. -/
theorem exists_groups {w : Bytes} (h : (base64_decode w).1 = true) :
    ∃ gs : List Group, w = gs.flatMap Group.text := by
  fun_induction base64_decode w with
  | case1 => exact ⟨[], rfl⟩
  | case2 a b c d s hnone => cases h
  | case3 a b c d s r hsome r' ih =>
    obtain ⟨g, hg⟩ := exists_group hsome
    obtain ⟨gs, rfl⟩ := ih h
    exact ⟨g :: gs, by rw [List.flatMap_cons, hg]; rfl⟩
  | case4 => cases h

/-- A line is made of groups in one way. -/
theorem texts_inj {gs gs' : List Group} (h : gs.flatMap Group.text = gs'.flatMap Group.text) :
    gs = gs' := by
  induction gs generalizing gs' with
  | nil =>
    cases gs' with
    | nil => rfl
    | cons g' gs' => cases g' <;> cases h
  | cons g gs ih =>
    cases gs' with
    | nil => cases g <;> cases h
    | cons g' gs' =>
      rw [List.flatMap_cons, List.flatMap_cons] at h
      obtain ⟨htext, hrest⟩ := List.append_inj h (by rw [g.length_text, g'.length_text])
      rw [Group.text_inj htext, ih hrest]

/-- **Which lines decode**: those of base64, where no group of the line has a letter behind
its padding. -/
theorem accepts_format_iff (w : Bytes) :
    (((base64_decode w).1 = true ↔
        ∃ gs : List Group, w = gs.flatMap Group.text ∧ ∀ g ∈ gs, g.InFormat) ∧
      ∀ gs : List Group, w = gs.flatMap Group.text → (∀ g ∈ gs, g.InFormat) →
        (base64_decode w).2 = gs.flatMap Group.bytes) ↔
      ∀ gs : List Group, w = gs.flatMap Group.text → ∀ g ∈ gs, g.InFormat := by
  constructor
  · rintro ⟨hiff, -⟩ gs rfl
    obtain ⟨gs', heq, hall⟩ := hiff.mp (by rw [base64_decode_texts])
    rwa [texts_inj heq]
  · intro hall
    refine ⟨⟨fun h => ?_, ?_⟩, ?_⟩
    · obtain ⟨gs, rfl⟩ := exists_groups h
      exact ⟨gs, rfl, hall gs rfl⟩
    · rintro ⟨gs, rfl, -⟩
      rw [base64_decode_texts]
    · rintro gs rfl -
      rw [base64_decode_texts]

/-- The line `AA=A` decodes, and is not one of base64. -/
theorem broken_group_decodes :
    ¬ ∀ w : Bytes, (base64_decode w).1 = true ↔
      ∃ gs : List Group, w = gs.flatMap Group.text ∧ ∀ g ∈ gs, g.InFormat := by
  intro hall
  let a : Letter := ⟨65, by decide⟩
  have hline : str "AA=A" = [Group.broken a a a].flatMap Group.text := rfl
  obtain ⟨gs, heq, hin⟩ := (hall (str "AA=A")).mp (by decide)
  rw [hline] at heq
  exact hin (.broken a a a) (texts_inj heq ▸ List.mem_cons_self)

end Qigong.Crypt
