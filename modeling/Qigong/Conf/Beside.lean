import Qigong.Conf.Strides

/-!
# A turn on a line with blanks in it

Blanks are put in a line in front of something that is no blank. A turn that ends before
them reads the same on both lines (`scan_before`), and a turn that begins behind them
reads the same too, from where the same is left of the lines (`Level`). So the reader
comes on the one line through what it comes through on the other, at positions that are
shifted (`Shift`), as far as none of its turns reads across the blanks (`alike_sight`).
-/

namespace Qigong.Conf

variable {E : ConfEnv} {blank ident fqdn run : UInt8 → Bool} {value : Bytes → Int}
variable {s s' u bl v z : Bytes} {st : RCState} {m : UInt8} {p p' q q' : Nat}

/-! ## What is left of two lines -/

/-- At these positions the same is left of two strings. -/
def Level (s s' : Bytes) (p p' : Nat) : Prop :=
  p = npos ∧ p' = npos ∨ p ≤ s.length ∧ p' ≤ s'.length ∧ s.drop p = s'.drop p'

/-- Behind blanks the same is left. -/
def Facing (blank : UInt8 → Bool) (s s' : Bytes) (p p' : Nat) : Prop :=
  (s.drop p).dropWhile blank = (s'.drop p').dropWhile blank

/-- Both strings have positions enough. -/
def Short (s s' : Bytes) : Prop := s.length < npos ∧ s'.length < npos

/-- At `npos` nothing is left of either string, so the same is left in any case. -/
theorem Level.drop_eq (h : Level s s' p p') (hlen : Short s s') : s.drop p = s'.drop p' := by
  rcases h with ⟨rfl, rfl⟩ | ⟨-, -, hdrop⟩
  · rw [List.drop_eq_nil_of_le hlen.1.le, List.drop_eq_nil_of_le hlen.2.le]
  · exact hdrop

theorem Level.facing (h : Level s s' p p') (hlen : Short s s') : Facing blank s s' p p' :=
  congrArg _ (h.drop_eq hlen)

theorem Level.getElem? (h : Level s s' p p') (hlen : Short s s') : s[p]? = s'[p']? := by
  rw [← List.head?_drop, h.drop_eq hlen, List.head?_drop]

theorem Level.succ (h : Level s s' p p') (hlen : Short s s') {c : UInt8} (hc : s[p]? = some c) :
    Level s s' (p + 1) (p' + 1) := by
  have hlt := (List.getElem?_eq_some_iff.mp hc).1
  have hlt' := (List.getElem?_eq_some_iff.mp ((h.getElem? hlen).symm.trans hc)).1
  refine .inr ⟨hlt, hlt', ?_⟩
  rw [← List.tail_drop, h.drop_eq hlen, List.tail_drop]

/-- Either both are `npos` or none is. -/
theorem Level.eq_npos_iff (h : Level s s' p p') (hlen : Short s s') : p = npos ↔ p' = npos := by
  have hlen := hlen
  unfold Short at hlen
  rcases h with ⟨rfl, rfl⟩ | ⟨hp, hp', -⟩
  · exact Iff.rfl
  · omega

/-- They lie on their lines together. -/
theorem Level.onLine_iff (h : Level s s' p p') (hlen : Short s s') : OnLine s p ↔ OnLine s' p' := by
  rcases h with ⟨rfl, rfl⟩ | ⟨hp, hp', hdrop⟩
  · exact ⟨fun hon => absurd rfl hon.1, fun hon => absurd rfl hon.1⟩
  · have hdrop := congrArg List.length hdrop
    rw [List.length_drop, List.length_drop] at hdrop
    unfold OnLine
    unfold Short at hlen
    omega

/-- Where the same is left it ends at such positions. -/
theorem level_rest {t : Bytes} (hs : t <:+ s) (hs' : t <:+ s') :
    Level s s' (if t = [] then npos else s.length - t.length)
      (if t = [] then npos else s'.length - t.length) := by
  split
  · exact .inl ⟨rfl, rfl⟩
  · refine .inr ⟨Nat.sub_le _ _, Nat.sub_le _ _, ?_⟩
    -- a suffix is what is left at its position
    rw [← List.suffix_iff_eq_drop.mp hs, ← List.suffix_iff_eq_drop.mp hs']

theorem suffix_dropWhile (blank : UInt8 → Bool) (s : Bytes) (p : Nat) :
    (s.drop p).dropWhile blank <:+ s := (List.dropWhile_suffix _).trans (List.drop_suffix _ _)

/-- Looking for what is behind the blanks ends at such positions. -/
theorem Facing.seek (h : Facing blank s s' p p') : Level s s' (seek blank s p) (seek blank s' p') := by
  have hs' := suffix_dropWhile blank s' p'
  unfold Qigong.seek
  rw [← h] at hs' ⊢
  exact level_rest (suffix_dropWhile blank s p) hs'

/-- A scan reads the same word, and ends at such positions. -/
theorem Facing.scan (h : Facing blank s s' p p') (run : UInt8 → Bool) :
    (scan blank run s p).1 = (scan blank run s' p').1 ∧
      Level s s' (scan blank run s p).2 (scan blank run s' p').2 := by
  have hs' := suffix_dropWhile blank s' p'
  unfold Qigong.scan
  rw [← h] at hs' ⊢
  exact ⟨rfl, level_rest ((List.dropWhile_suffix _).trans (suffix_dropWhile blank s p))
    ((List.dropWhile_suffix _).trans hs')⟩

/-! ## What is read before the blanks -/

section before

variable {t : Bytes}

/-- Something found on a line is found there whatever follows. -/
theorem seek_append (hp : p ≤ u.length) (ht : (u.drop p).dropWhile blank = t) (hne : t ≠ [])
    (z : Bytes) : seek blank (u ++ z) p = u.length - t.length := by
  have hempty : t.isEmpty = false := List.isEmpty_eq_false_iff.mpr hne
  unfold seek
  dsimp only
  rw [List.drop_append_of_le_length hp, List.dropWhile_append, ht, hempty,
    if_neg Bool.false_ne_true, if_neg (List.append_ne_nil_of_left_ne_nil hne z),
    List.length_append, List.length_append]
  omega

/-- Where something is found behind a line, nothing but blanks is left of the line. -/
theorem dropWhile_of_le_seek (hp : p ≤ u.length) (hseek : u.length ≤ seek blank (u ++ z) p) :
    (u.drop p).dropWhile blank = [] := by
  by_contra hne
  rw [seek_append hp rfl hne] at hseek
  have hpos := List.length_pos_iff.mpr hne
  have hle := (suffix_dropWhile blank u p).length_le
  omega

/-- Where nothing but blanks is left of a line, nothing is found on it. -/
theorem le_seek_append (hlen : u.length ≤ npos) (hp : p ≤ u.length)
    (hnil : (u.drop p).dropWhile blank = []) (z : Bytes) : u.length ≤ seek blank (u ++ z) p := by
  have hle := (List.dropWhile_suffix (l := z) blank).length_le
  unfold seek
  dsimp only
  rw [List.drop_append_of_le_length hp, List.dropWhile_append, hnil, List.isEmpty_nil, if_pos rfl,
    List.length_append]
  split
  · exact hlen
  · omega

/-- What is found on the line is found there with another end too. -/
theorem seek_before (hlen : u.length < npos) (hseek : seek blank (u ++ v) p < u.length)
    (z : Bytes) : seek blank (u ++ z) p = seek blank (u ++ v) p := by
  have hp : p ≤ u.length := by
    rcases seek_eq blank (u ++ v) p with heq | ⟨hle, -⟩ <;> omega
  have hne : (u.drop p).dropWhile blank ≠ [] := by
    intro hnil
    have hle := le_seek_append hlen.le hp hnil v
    omega
  rw [seek_append hp rfl hne, seek_append hp rfl hne]

/-- A scan that ends before something, or at something it does not read. -/
theorem scan_append (hp : p ≤ u.length) (ht : (u.drop p).dropWhile blank = t) (hne : t ≠ [])
    (hz : t.dropWhile run ≠ [] ∨ z ≠ [] ∧ z.dropWhile run = z) :
    scan blank run (u ++ z) p = (t.takeWhile run, u.length - (t.dropWhile run).length) := by
  have hempty : t.isEmpty = false := List.isEmpty_eq_false_iff.mpr hne
  have hrest : (t ++ z).dropWhile run = t.dropWhile run ++ z := by
    rw [List.dropWhile_append]
    split
    case isTrue hnil =>
      have hnil := List.isEmpty_iff.mp hnil
      rw [hnil, (hz.resolve_left fun h => h hnil).2, List.nil_append]
    case isFalse => rfl
  -- the word is what is in front of the rest, on both
  have hword : (t ++ z).takeWhile run = t.takeWhile run := by
    have hsplit := List.takeWhile_append_dropWhile (p := run) (l := t ++ z)
    have hsplit' := List.takeWhile_append_dropWhile (p := run) (l := t)
    rw [hrest, ← List.append_assoc] at hsplit
    exact List.append_cancel_right ((List.append_cancel_right hsplit).trans hsplit'.symm)
  have hne' : t.dropWhile run ++ z ≠ [] := by
    rcases hz with hz | ⟨hz, -⟩
    · exact List.append_ne_nil_of_left_ne_nil hz z
    · exact List.append_ne_nil_of_right_ne_nil _ hz
  unfold scan
  dsimp only
  rw [List.drop_append_of_le_length hp, List.dropWhile_append, ht, hempty,
    if_neg Bool.false_ne_true, hword, hrest, if_neg hne', List.length_append, List.length_append]
  refine Prod.ext rfl ?_
  dsimp only
  omega

/-- **What is read before the end of a line** is read before anything that it does not go
on with. -/
theorem scan_before (hlen : (u ++ v).length < npos) (hw : (scan blank run (u ++ v) p).1 ≠ [])
    (he : (scan blank run (u ++ v) p).2 ≤ u.length) (hz : z ≠ [] ∧ z.dropWhile run = z) :
    scan blank run (u ++ z) p = scan blank run (u ++ v) p := by
  rw [List.length_append] at hlen
  have hpos := List.length_pos_iff.mpr hw
  have hp : p ≤ u.length := by
    rcases scan_progress blank run (u ++ v) p with heq | hle <;> omega
  have hlt := seek_lt_scan hw (by rwa [List.length_append])
  have hne : (u.drop p).dropWhile blank ≠ [] := by
    intro hnil
    have hle := le_seek_append (by omega) hp hnil v
    omega
  -- a run that takes all that is left of the line would go on behind it, and end there
  have hv : ((u.drop p).dropWhile blank).dropWhile run ≠ [] ∨ v ≠ [] ∧ v.dropWhile run = v := by
    by_contra hv
    obtain ⟨hnil, hv⟩ := not_or.mp hv
    have hempty := List.isEmpty_eq_false_iff.mpr hne
    have hsuffix := List.dropWhile_suffix (l := v) run
    unfold scan at he
    dsimp only at he
    rw [List.drop_append_of_le_length hp, List.dropWhile_append, hempty, if_neg Bool.false_ne_true,
      List.dropWhile_append, not_not.mp hnil, List.isEmpty_nil, if_pos rfl, List.length_append] at he
    split at he
    case isTrue => omega
    case isFalse hrest =>
      refine hv ⟨fun h => hrest (by rw [h, List.dropWhile_nil]), hsuffix.eq_of_length_le ?_⟩
      omega
  rw [scan_append hp rfl hne hv, scan_append hp rfl hne (.inr hz)]

end before

/-! ## A line with blanks in it -/

/-- A space or a tab is skipped, and belongs to no word, name or number. -/
theorem ConfScanners.Skips.blank_of (hE : E.Skips blank ident fqdn value) {c : UInt8}
    (hc : c = 32 ∨ c = 9) :
    blank c = true ∧ ident c = false ∧ fqdn c = false ∧ isDigit c = false := by
  rcases hc with rfl | rfl
  · exact ⟨hE.space.1, hE.space.2, hE.fqdn_marks.1, by decide⟩
  · exact ⟨hE.tab.1, hE.tab.2.1, hE.tab.2.2, by decide⟩

/-- Spaces and tabs are put in a line in front of something that is no blank. -/
structure Gap (blank : UInt8 → Bool) (u bl v : Bytes) : Prop where
  blanks : ∀ c ∈ bl, c = 32 ∨ c = 9
  ne_nil : bl ≠ []
  token : ∃ c t, v = c :: t ∧ blank c = false
  short : (u ++ (bl ++ v)).length < npos

namespace Gap

/-- Both lines have positions enough. -/
theorem shorts (h : Gap blank u bl v) : Short (u ++ v) (u ++ (bl ++ v)) := by
  have hlen := h.short
  refine ⟨?_, hlen⟩
  simp only [List.length_append] at hlen ⊢
  omega

theorem length_lt (h : Gap blank u bl v) : u.length < npos := by
  have hlen := h.shorts.1
  rw [List.length_append] at hlen
  omega

/-- The first of the blanks. -/
theorem exists_head (h : Gap blank u bl v) : ∃ c t, bl = c :: t ∧ (c = 32 ∨ c = 9) := by
  obtain ⟨c, t, rfl⟩ := List.exists_cons_of_ne_nil h.ne_nil
  exact ⟨c, t, rfl, h.blanks c List.mem_cons_self⟩

/-- No run goes on into the blanks. -/
theorem stops (h : Gap blank u bl v) (hrun : ∀ c, c = 32 ∨ c = 9 → run c = false) :
    bl ++ v ≠ [] ∧ (bl ++ v).dropWhile run = bl ++ v := by
  obtain ⟨c, t, rfl, hc⟩ := h.exists_head
  refine ⟨List.cons_ne_nil _ _, List.dropWhile_cons_of_neg ?_⟩
  rw [hrun c hc]
  exact Bool.false_ne_true

theorem getElem?_lt (hp : p < u.length) (z : Bytes) : (u ++ z)[p]? = u[p]? :=
  List.getElem?_append_left hp

/-- Where the blanks begin stands one of them. -/
theorem getElem?_at (h : Gap blank u bl v) {c : UInt8}
    (hc : (u ++ (bl ++ v))[u.length]? = some c) : c = 32 ∨ c = 9 := by
  obtain ⟨d, t, rfl, hd⟩ := h.exists_head
  rw [List.getElem?_append_right le_rfl, Nat.sub_self] at hc
  exact Option.some.inj hc ▸ hd

/-- No mark stands where the blanks begin, and those before them are the same. -/
theorem mark_iff (h : Gap blank u bl v) (hm : m ≠ 32 ∧ m ≠ 9) (hp : p ≤ u.length)
    (hend : p ≠ npos ∧ (u ++ v)[p]? = some m → p + 1 ≤ u.length) :
    p ≠ npos ∧ (u ++ (bl ++ v))[p]? = some m ↔ p ≠ npos ∧ (u ++ v)[p]? = some m := by
  -- the mark stands in front of the blanks, or where they begin
  rcases Nat.lt_or_eq_of_le hp with hp | rfl
  · rw [getElem?_lt hp, getElem?_lt hp]
  · exact ⟨fun hc => absurd (h.getElem?_at hc.2) (not_or.mpr hm),
      fun hc => absurd (hend hc) (Nat.not_succ_le_self _)⟩

/-- With nothing but blanks before the gap, the same is left behind it. -/
theorem facing (h : Gap blank u bl v) (hE : E.Skips blank ident fqdn value) (hp : p ≤ u.length)
    (hseek : u.length ≤ seek blank (u ++ v) p) : Facing blank (u ++ v) (u ++ (bl ++ v)) p p := by
  have hnil := dropWhile_of_le_seek hp hseek
  have hbl : ∀ c ∈ bl, blank c = true := fun c hc => (hE.blank_of (h.blanks c hc)).1
  unfold Facing
  rw [List.drop_append_of_le_length hp, List.drop_append_of_le_length hp,
    List.dropWhile_append_of_pos (List.dropWhile_eq_nil_iff.mp hnil),
    List.dropWhile_append_of_pos (List.dropWhile_eq_nil_iff.mp hnil),
    List.dropWhile_append_of_pos hbl]

/-- Behind the blanks everything has moved. -/
theorem move (bl : Bytes) (hp : u.length ≤ p) (v : Bytes) :
    (u ++ (bl ++ v))[p + bl.length]? = (u ++ v)[p]? := by
  rw [List.getElem?_append_right (by omega), List.getElem?_append_right (by omega),
    List.getElem?_append_right hp]
  congr 1
  omega

/-- Behind the blanks the same is left at the position that has moved. -/
theorem level_move (bl : Bytes) (hp : u.length ≤ p) (hle : p ≤ (u ++ v).length) :
    Level (u ++ v) (u ++ (bl ++ v)) p (p + bl.length) := by
  refine .inr ⟨hle, ?_, List.ext_getElem? fun i => ?_⟩
  · simp only [List.length_append] at hle ⊢
    omega
  · rw [List.getElem?_drop, List.getElem?_drop, Nat.add_right_comm, move bl (by omega)]

/-- And only there. -/
theorem eq_of_level (hlen : Short (u ++ v) (u ++ (bl ++ v))) (hle : p ≤ (u ++ v).length)
    (h : Level (u ++ v) (u ++ (bl ++ v)) p p') : p' = p + bl.length := by
  unfold Short at hlen
  rcases h with ⟨rfl, -⟩ | ⟨-, hle', hdrop⟩
  · omega
  · have hdrop := congrArg List.length hdrop
    simp only [List.length_drop, List.length_append] at hdrop hle hle'
    omega

/-- What is found before the blanks is found there. -/
theorem findFrom_before {c : UInt8} (hq : q < u.length) (h : findFrom c (u ++ v) 0 = some q)
    (hp : p ≤ q) (z : Bytes) : findFrom c (u ++ z) p = some q := by
  obtain ⟨-, hc, hbefore⟩ := of_findFrom h
  refine findFrom_eq_some_iff.mpr ⟨hp, ?_, fun i _ hi hi' => hbefore i (Nat.zero_le i) hi ?_⟩
  · rwa [getElem?_lt hq] at hc ⊢
  · rwa [getElem?_lt (hi.trans hq)] at hi' ⊢

/-- What is found behind the blanks is found where it has moved. -/
theorem findFrom_behind (h : Gap blank u bl v) {c : UInt8} (hc : ¬ (c = 32 ∨ c = 9))
    (hq : u.length ≤ q) (hfind : findFrom c (u ++ v) 0 = some q) (hp : p ≤ q + bl.length) :
    findFrom c (u ++ (bl ++ v)) p = some (q + bl.length) := by
  obtain ⟨-, hat, hbefore⟩ := of_findFrom hfind
  refine findFrom_eq_some_iff.mpr ⟨hp, (move bl hq v).trans hat, fun i _ hi hi' => ?_⟩
  -- in front of the blanks, among them, and behind them
  by_cases hu : i < u.length
  · refine hbefore i (Nat.zero_le i) (by omega) ?_
    rwa [getElem?_lt hu] at hi' ⊢
  · by_cases hbl : i < u.length + bl.length
    · rw [List.getElem?_append_right (by omega), List.getElem?_append_left (by omega)] at hi'
      exact hc (h.blanks c (List.mem_of_getElem? hi'))
    · refine hbefore (i - bl.length) (Nat.zero_le _) (by omega) ?_
      rwa [← move bl (by omega), Nat.sub_add_cancel (by omega)]

end Gap

/-! ## What is seen -/

/-- Where a piece of the one line is seen, the same is seen on the other, and ends at a
position that is related to where the one ends. -/
inductive Alike (R : RCState → Nat → Nat → Prop) (st : RCState) : Sight → Sight → Prop where
  | ended : Alike R st .ended .ended
  | wrong (e : Stop) (w : Sight) : Alike R st (.wrong e) w
  | piece (word : Bytes) (number : Int) (mark : Bool) (q q' : Nat)
      (h : R (nextState st word mark) q q') :
      Alike R st (.piece word number mark q) (.piece word number mark q')

/-- A word is seen alike where its reading and what is done with it are alike. -/
theorem alike_sightWord {w w' : Bytes × Nat} {found found' : Sight} (hlen : Short s s')
    {R : RCState → Nat → Nat → Prop} (hw : w.1 = w'.1) (hl : Level s s' w.2 w'.2)
    (h : Alike R st found found') : Alike R st (sightWord w found) (sightWord w' found') := by
  unfold sightWord
  rw [← hw]
  split
  · by_cases hn : w.2 = npos
    · rw [if_pos hn, if_pos ((hl.eq_npos_iff hlen).mp hn)]
      exact .ended
    · rw [if_neg hn]
      exact .wrong _ _
  · exact h

/-- What stands behind a word is the same. -/
theorem Level.mark_iff (h : Level s s' p p') (hlen : Short s s') :
    p ≠ npos ∧ s[p]? = some m ↔ p' ≠ npos ∧ s'[p']? = some m := by
  rw [h.getElem? hlen]
  exact and_congr_left' (not_congr (h.eq_npos_iff hlen))

namespace Facing

theorem seekspace (h : Facing blank s s' p p') (hE : E.Skips blank ident fqdn value) :
    Level s s' (E.seekspace s p) (E.seekspace s' p') := by
  rw [hE.seekspace, hE.seekspace]
  exact h.seek

theorem getidentifier (h : Facing blank s s' p p') (hE : E.Skips blank ident fqdn value) :
    (E.getidentifier s p).1 = (E.getidentifier s' p').1 ∧
      Level s s' (E.getidentifier s p).2 (E.getidentifier s' p').2 := by
  rw [hE.getidentifier, hE.getidentifier]
  exact h.scan ident

theorem getfqdn (h : Facing blank s s' p p') (hE : E.Skips blank ident fqdn value) :
    (E.getfqdn s p).1 = (E.getfqdn s' p').1 ∧
      Level s s' (E.getfqdn s p).2 (E.getfqdn s' p').2 := by
  rw [hE.getfqdn, hE.getfqdn]
  exact h.scan fqdn

theorem getinteger (h : Facing blank s s' p p') (hE : E.Skips blank ident fqdn value) :
    (E.getinteger s p).1 = (E.getinteger s' p').1 ∧
      Level s s' (E.getinteger s p).2 (E.getinteger s' p').2 := by
  rw [hE.number, hE.number, (h.scan isDigit).1]
  exact ⟨rfl, (h.scan isDigit).2⟩

/-- Related as the positions where the same is left. -/
abbrev Seen (s s' : Bytes) : RCState → Sight → Sight → Prop := Alike fun _ q q' => Level s s' q q'

/-- A character awaited behind blanks is seen alike. -/
theorem sightChar (h : Facing blank s s' p p') (hE : E.Skips blank ident fqdn value)
    (hlen : Short s s') (c : UInt8) : Seen s s' st (sightChar E s p c) (sightChar E s' p' c) := by
  have hseek := h.seekspace hE
  unfold Conf.sightChar
  dsimp only
  by_cases hn : E.seekspace s p = npos
  · rw [if_pos hn, if_pos ((hseek.eq_npos_iff hlen).mp hn)]
    exact .ended
  · rw [if_neg hn, if_neg (mt (hseek.eq_npos_iff hlen).mpr hn), ← hseek.getElem? hlen]
    split
    case isTrue hc => exact .piece _ _ _ _ _ (hseek.succ hlen hc)
    case isFalse => exact .wrong _ _

/-- A time is seen alike: its number, and its unit right behind it. -/
theorem sightTime (h : Facing blank s s' p p') (hE : E.Skips blank ident fqdn value)
    (hlen : Short s s') : Seen s s' st (sightTime E s p) (sightTime E s' p') := by
  obtain ⟨hv, hl⟩ := h.getinteger hE
  unfold Conf.sightTime
  dsimp only
  rw [← hv]
  by_cases hz : (E.getinteger s p).1 = 0
  · rw [if_pos hz, if_pos hz]
    by_cases hn : (E.getinteger s p).2 = npos
    · rw [if_pos hn, if_pos ((hl.eq_npos_iff hlen).mp hn)]
      exact .ended
    · rw [if_neg hn]
      exact .wrong _ _
  · rw [if_neg hz, if_neg hz]
    by_cases hn : (E.getinteger s p).2 = npos
    · rw [if_pos hn]
      exact .wrong _ _
    · rw [if_neg hn, if_neg (mt (hl.eq_npos_iff hlen).mpr hn), ← hl.getElem? hlen]
      cases hc : s[(E.getinteger s p).2]? with
      | none => exact .wrong _ _
      | some c =>
        rw [Option.bind_some]
        cases unitOf c with
        | none => exact .wrong _ _
        | some u => exact .piece _ _ _ _ _ (hl.succ hlen hc)

theorem sight_collectfn (h : Facing blank s s' p p') (hE : E.Skips blank ident fqdn value)
    (hlen : Short s s') :
    Seen s s' .seekcollectfn (sight E s .seekcollectfn p) (sight E s' .seekcollectfn p') := by
  have hident := h.getidentifier hE
  dsimp only [sight]
  refine alike_sightWord hlen hident.1 hident.2 ?_
  rw [hident.1]
  by_cases hm : (E.getidentifier s p).2 ≠ npos ∧ s[(E.getidentifier s p).2]? = some 40
  · rw [if_pos hm, if_pos ((hident.2.mark_iff hlen).mp hm)]
    exact .piece _ _ _ _ _ (hident.2.succ hlen hm.2)
  · rw [if_neg hm, if_neg (mt (hident.2.mark_iff hlen).mpr hm)]
    exact .piece _ _ _ _ _ hident.2

theorem sight_colentry (h : Facing blank s s' p p') (hE : E.Skips blank ident fqdn value)
    (hlen : Short s s') :
    Seen s s' .seekcolentry (sight E s .seekcolentry p) (sight E s' .seekcolentry p') := by
  have hseek := h.seekspace hE
  dsimp only [sight]
  by_cases hn : E.seekspace s p = npos
  · rw [if_pos hn, if_pos ((hseek.eq_npos_iff hlen).mp hn)]
    exact .ended
  · rw [if_neg hn, if_neg (mt (hseek.eq_npos_iff hlen).mpr hn), ← hseek.getElem? hlen]
    split
    case isTrue hc => exact .piece _ _ _ _ _ (hseek.succ hlen hc)
    case isFalse => exact .piece _ _ _ _ _ hseek

/-- A connection is seen alike: its port is read behind the colon. -/
theorem sight_connection (h : Facing blank s s' p p') (hE : E.Skips blank ident fqdn value)
    (hlen : Short s s') :
    Seen s s' .seekconnection (sight E s .seekconnection p) (sight E s' .seekconnection p') := by
  have hfqdn := h.getfqdn hE
  dsimp only [sight]
  refine alike_sightWord hlen hfqdn.1 hfqdn.2 ?_
  rw [hfqdn.1]
  by_cases hm : (E.getfqdn s p).2 ≠ npos ∧ s[(E.getfqdn s p).2]? = some 58
  · have hport : Facing blank s s' _ _ := (hfqdn.2.succ hlen hm.2).facing hlen
    obtain ⟨hv, hl⟩ := hport.getinteger hE
    rw [if_pos hm, if_pos ((hfqdn.2.mark_iff hlen).mp hm), ← hv]
    split
    · exact .wrong _ _
    · exact .piece _ _ _ _ _ hl
  · rw [if_neg hm, if_neg (mt (hfqdn.2.mark_iff hlen).mpr hm)]
    exact .piece _ _ _ _ _ hfqdn.2

/-- **Where the same is left behind blanks**, the same is seen. -/
theorem alike (h : Facing blank s s' p p') (hE : E.Skips blank ident fqdn value)
    (hlen : Short s s') (hst : st ≠ .seekendparam ∧ st ≠ .seektagorend) :
    Seen s s' st (sight E s st p) (sight E s' st p') := by
  cases st
  case seekendparam => exact absurd rfl hst.1
  case seektagorend => exact absurd rfl hst.2
  case seekcollectfn => exact h.sight_collectfn hE hlen
  case seekcolentry => exact h.sight_colentry hE hlen
  case seekconnection => exact h.sight_connection hE hlen
  case seekequal | seekrddenpar | seekmultiplier | seekhostbegin => exact h.sightChar hE hlen _
  case seekrddtabledef | seekrddtable2nd => exact h.sightTime hE hlen
  case seekdeclare | seekhostname | seekserverkey | seekcollect | seekcollectname | seektagname =>
    have hident := h.getidentifier hE
    refine alike_sightWord hlen hident.1 hident.2 ?_
    rw [hident.1]
    exact .piece _ _ _ _ _ hident.2

end Facing

/-- A piece of the line is seen only with a word in it. -/
theorem sightWord_eq_piece {w : Bytes × Nat} {found : Sight} {word : Bytes} {number : Int}
    {mark : Bool} : sightWord w found = .piece word number mark q ↔
      w.1 ≠ [] ∧ found = .piece word number mark q := by
  unfold sightWord
  split
  case isTrue hnil =>
    refine ⟨fun h => ?_, fun h => absurd hnil h.1⟩
    split at h <;> cases h
  case isFalse hne => exact ⟨fun h => ⟨hne, h⟩, And.right⟩

namespace Gap

variable {word : Bytes} {number : Int} {mark : Bool}

/-- An identifier that ends before the blanks is read on both lines. -/
theorem getidentifier (g : Gap blank u bl v) (hE : E.Skips blank ident fqdn value)
    (hw : (E.getidentifier (u ++ v) p).1 ≠ []) (he : (E.getidentifier (u ++ v) p).2 ≤ u.length) :
    E.getidentifier (u ++ (bl ++ v)) p = E.getidentifier (u ++ v) p := by
  rw [hE.getidentifier] at hw he
  rw [hE.getidentifier, hE.getidentifier]
  exact scan_before g.shorts.1 hw he (g.stops fun c hc => (hE.blank_of hc).2.1)

theorem getfqdn (g : Gap blank u bl v) (hE : E.Skips blank ident fqdn value)
    (hw : (E.getfqdn (u ++ v) p).1 ≠ []) (he : (E.getfqdn (u ++ v) p).2 ≤ u.length) :
    E.getfqdn (u ++ (bl ++ v)) p = E.getfqdn (u ++ v) p := by
  rw [hE.getfqdn] at hw he
  rw [hE.getfqdn, hE.getfqdn]
  exact scan_before g.shorts.1 hw he (g.stops fun c hc => (hE.blank_of hc).2.2.1)

theorem getinteger (g : Gap blank u bl v) (hE : E.Skips blank ident fqdn value)
    (hz : (E.getinteger (u ++ v) p).1 ≠ 0) (he : (E.getinteger (u ++ v) p).2 ≤ u.length) :
    E.getinteger (u ++ (bl ++ v)) p = E.getinteger (u ++ v) p := by
  rw [hE.number] at hz he
  have hw : (scan blank isDigit (u ++ v) p).1 ≠ [] := fun hnil => hz (hnil ▸ hE.number_nil)
  rw [hE.number, hE.number,
    scan_before g.shorts.1 hw he (g.stops fun c hc => (hE.blank_of hc).2.2.2)]

/-- A time that ends before the blanks is seen on both lines. -/
theorem sight_time (g : Gap blank u bl v) (hE : E.Skips blank ident fqdn value)
    (h : sightTime E (u ++ v) p = .piece word number mark q) (hq : q ≤ u.length) :
    sightTime E (u ++ (bl ++ v)) p = .piece word number mark q := by
  unfold sightTime at h ⊢
  dsimp only at h ⊢
  split at h
  case isTrue => split at h <;> cases h
  case isFalse hz =>
    split at h
    case isTrue => cases h
    case isFalse hn =>
      split at h
      case h_2 => cases h
      case h_1 unit hunit =>
        cases h
        rw [g.getinteger hE hz (Nat.le_of_succ_le hq), if_neg hz, if_neg hn, getElem?_lt hq]
        rw [getElem?_lt hq] at hunit
        rw [hunit]

/-- A function that ends before the blanks is too: its parenthesis is not looked for behind them. -/
theorem sight_collectfn (g : Gap blank u bl v) (hE : E.Skips blank ident fqdn value)
    (h : sight E (u ++ v) .seekcollectfn p = .piece word number mark q) (hq : q ≤ u.length) :
    sight E (u ++ (bl ++ v)) .seekcollectfn p = .piece word number mark q := by
  dsimp only [sight] at h ⊢
  obtain ⟨hne, heq⟩ := sightWord_eq_piece.mp h
  have hend : (E.getidentifier (u ++ v) p).2 ≤ u.length ∧ ((E.getidentifier (u ++ v) p).2 ≠ npos ∧
      (u ++ v)[(E.getidentifier (u ++ v) p).2]? = some 40 →
        (E.getidentifier (u ++ v) p).2 + 1 ≤ u.length) := by
    split at heq
    case isTrue => cases heq; exact ⟨Nat.le_of_succ_le hq, fun _ => hq⟩
    case isFalse hm => cases heq; exact ⟨hq, fun h => absurd h hm⟩
  rwa [g.getidentifier hE hne hend.1, if_congr (g.mark_iff (by decide) hend.1 hend.2) rfl rfl]

theorem sight_connection (g : Gap blank u bl v) (hE : E.Skips blank ident fqdn value)
    (h : sight E (u ++ v) .seekconnection p = .piece word number mark q) (hq : q ≤ u.length) :
    sight E (u ++ (bl ++ v)) .seekconnection p = .piece word number mark q := by
  dsimp only [sight] at h ⊢
  obtain ⟨hne, heq⟩ := sightWord_eq_piece.mp h
  by_cases hm : (E.getfqdn (u ++ v) p).2 ≠ npos ∧ (u ++ v)[(E.getfqdn (u ++ v) p).2]? = some 58
  · rw [if_pos hm] at h heq
    split at heq
    case isTrue => cases heq
    case isFalse hz =>
      cases heq
      have hend : (E.getfqdn (u ++ v) p).2 + 1 ≤ u.length := by
        have hlt := (List.getElem?_eq_some_iff.mp hm.2).1
        refine le_trans ?_ hq
        rw [hE.number]
        exact le_scan g.shorts.1 hlt
      have hle := Nat.le_of_succ_le hend
      rw [g.getfqdn hE hne hle, if_pos ((g.mark_iff (by decide) hle fun _ => hend).mpr hm),
        g.getinteger hE hz hq]
      exact h
  · rw [if_neg hm] at h heq
    cases heq
    rw [g.getfqdn hE hne hq, if_neg (mt (g.mark_iff (by decide) hq fun h => absurd h hm).mp hm)]
    exact h

/-- **What is seen before the blanks** is seen on both lines. -/
theorem sight_before (g : Gap blank u bl v) (hE : E.Skips blank ident fqdn value)
    (hst : st ≠ .seekendparam ∧ st ≠ .seektagorend)
    (h : sight E (u ++ v) st p = .piece word number mark q) (hq : q ≤ u.length)
    (hp : seek blank (u ++ v) p < u.length) :
    sight E (u ++ (bl ++ v)) st p = .piece word number mark q := by
  have hseek : E.seekspace (u ++ (bl ++ v)) p = E.seekspace (u ++ v) p := by
    rw [hE.seekspace, hE.seekspace]
    exact seek_before g.length_lt hp _
  -- a character awaited stands at the position found, in front of the blanks
  have hat : (u ++ (bl ++ v))[E.seekspace (u ++ v) p]? = (u ++ v)[E.seekspace (u ++ v) p]? := by
    rw [hE.seekspace, getElem?_lt hp, getElem?_lt hp]
  cases st
  case seekendparam => exact absurd rfl hst.1
  case seektagorend => exact absurd rfl hst.2
  case seekcollectfn => exact g.sight_collectfn hE h hq
  case seekconnection => exact g.sight_connection hE h hq
  case seekrddtabledef | seekrddtable2nd => exact g.sight_time hE h hq
  case seekequal | seekrddenpar | seekmultiplier | seekhostbegin =>
    dsimp only [sight, sightChar] at h ⊢
    rwa [hseek, hat]
  case seekcolentry =>
    dsimp only [sight] at h ⊢
    rwa [hseek, hat]
  case seekdeclare | seekhostname | seekserverkey | seekcollect | seekcollectname | seektagname =>
    dsimp only [sight] at h ⊢
    obtain ⟨hne, heq⟩ := sightWord_eq_piece.mp h
    cases heq
    rwa [g.getidentifier hE hne hq]

end Gap

/-! ## Positions that are shifted -/

/-- Where the reader stands on the line without the blanks and on the one with them: at
one position before them, or behind them. A blank line apart, a set may not end behind
them. -/
inductive Shift (blank : UInt8 → Bool) (u bl v : Bytes) (st : RCState) : Nat → Nat → Prop where
  | early (p : Nat) (hu : ¬ Blanks blank u) (hp : p ≤ u.length)
      (hst : st = .seekendparam → p < u.length) : Shift blank u bl v st p p
  | late (p p' : Nat) (hp : u.length ≤ p) (h : Level (u ++ v) (u ++ (bl ++ v)) p p')
      (hu : st = .seektagorend → p = u.length → Blanks blank u) : Shift blank u bl v st p p'

/-- What a turn reads begins behind the blanks. -/
def Past (blank : UInt8 → Bool) (u v : Bytes) (k : RCState × Nat) : Prop :=
  u.length ≤ if k.1 = .seekendparam then k.2 else seek blank (u ++ v) k.2

/-- A turn reads not across the blanks, nor ends a set behind them but on a line that is
blank so far. -/
def Keeps (E : ConfEnv) (blank : UInt8 → Bool) (u v : Bytes) (k : RCState × Nat) : Prop :=
  (∀ k', walk E (u ++ v) k = some k' →
    k'.2 ≤ u.length ∧ (k'.1 = .seekendparam → k'.2 < u.length)) ∨
  Past blank u v k ∧ (v.head? = some 125 → Blanks blank u)

theorem walk_of_sight {word : Bytes} {number : Int} {mark : Bool}
    (h : sight E s st p = .piece word number mark q) :
    walk E s (st, p) = some (nextState st word mark, q) := by
  unfold walk
  rw [h]
  rfl

/-- Parameters are read on both lines. -/
theorem alike_endparam (g : Gap blank u bl v) (h : Shift blank u bl v .seekendparam p p')
    (hkeeps : Keeps E blank u v (.seekendparam, p))
    (hback : ∀ q, findFrom 41 (u ++ v) 0 = some q → p ≤ q) :
    Alike (Shift blank u bl v) .seekendparam (sight E (u ++ v) .seekendparam p)
      (sight E (u ++ (bl ++ v)) .seekendparam p') := by
  cases hq : findFrom 41 (u ++ v) 0 with
  | none =>
    dsimp only [sight]
    rw [hq]
    exact .wrong _ _
  | some q =>
    have hpq := hback q hq
    obtain ⟨-, hc, hbefore⟩ := of_findFrom hq
    obtain ⟨hlt, -⟩ := List.getElem?_eq_some_iff.mp hc
    have hfind : findFrom 41 (u ++ v) p = some q :=
      findFrom_eq_some_iff.mpr ⟨hpq, hc, fun i _ hi => hbefore i (Nat.zero_le i) hi⟩
    have hwalk : walk E (u ++ v) (.seekendparam, p) = some (.seektagorend, q + 1) := by
      unfold walk
      dsimp only [sight]
      rw [hq]
      rfl
    cases h with
    | early hu hp hst =>
      -- the parenthesis is in front of the blanks too, as the turn may not read across them
      have hend : q < u.length := by
        rcases hkeeps with hkeeps | ⟨hpast, -⟩
        · exact (hkeeps _ hwalk).1
        · exact absurd hpast (Nat.not_le.mpr (hst rfl))
      have hparams : ((u ++ v).drop p).take (q - p) = ((u ++ (bl ++ v)).drop p).take (q - p) := by
        have hle : q - p ≤ (u.drop p).length := by
          rw [List.length_drop]
          omega
        rw [List.drop_append_of_le_length hp, List.drop_append_of_le_length hp,
          List.take_append_of_le_length hle, List.take_append_of_le_length hle]
      dsimp only [sight]
      rw [hq, Gap.findFrom_before hend hq (Nat.zero_le q), hfind, Gap.findFrom_before hend hq hpq,
        Option.getD_some, hparams]
      exact .piece _ _ _ _ _ (.early _ hu hend nofun)
    | late _ hp h hu =>
      have hlen := g.shorts
      have huq := hp.trans hpq
      -- both the parameters and their end have moved by as much
      obtain rfl := Gap.eq_of_level hlen (hpq.trans hlt.le) h
      have hlevel := Gap.level_move bl huq hlt.le
      dsimp only [sight]
      rw [hq, g.findFrom_behind (by decide) huq hq (Nat.zero_le _), hfind,
        g.findFrom_behind (by decide) huq hq (Nat.add_le_add_right hpq _), Option.getD_some,
        Option.getD_some, h.drop_eq hlen, Nat.add_sub_add_right]
      refine .piece _ _ _ _ _ (.late _ _ (Nat.le_succ_of_le huq) (hlevel.succ hlen hc) ?_)
      exact fun _ heq => absurd heq (Nat.lt_succ_of_le huq).ne'

/-- The end of a set is read on both lines. -/
theorem alike_tagorend (g : Gap blank u bl v) (h : Shift blank u bl v .seektagorend p p')
    (hkeeps : Keeps E blank u v (.seektagorend, p)) :
    Alike (Shift blank u bl v) .seektagorend (sight E (u ++ v) .seektagorend p)
      (sight E (u ++ (bl ++ v)) .seektagorend p') := by
  cases h with
  | early hu hp hst =>
    by_cases hc : (u ++ v)[p]? = some 125
    · have hsee : sight E (u ++ v) .seektagorend p = .piece [] 0 true (p + 1) := if_pos hc
      have hwalk : walk E (u ++ v) (.seektagorend, p) = some (.seekdeclare, p + 1) :=
        walk_of_sight hsee
      -- a brace where the blanks begin would end a set behind them
      have hlt : p < u.length := by
        rcases hkeeps with hkeeps | ⟨-, hblank⟩
        · exact (hkeeps _ hwalk).1
        · refine lt_of_le_of_ne hp fun heq => hu (hblank ?_)
          rw [← hc, heq, List.getElem?_append_right le_rfl, Nat.sub_self, List.head?_eq_getElem?]
      have hc' : (u ++ (bl ++ v))[p]? = some 125 := by rwa [Gap.getElem?_lt hlt] at hc ⊢
      dsimp only [sight]
      rw [if_pos hc, if_pos hc']
      exact .piece _ _ _ _ _ (.early _ hu hlt nofun)
    · have hc' : (u ++ (bl ++ v))[p]? ≠ some 125 := by
        rcases Nat.lt_or_eq_of_le hp with hlt | rfl
        · rwa [Gap.getElem?_lt hlt] at hc ⊢
        · intro hat
          rcases g.getElem?_at hat with h | h <;> cases h
      dsimp only [sight]
      rw [if_neg hc, if_neg hc']
      exact .piece _ _ _ _ _ (.early _ hu hp nofun)
  | late _ hp h hu =>
    dsimp only [sight]
    rw [← h.getElem? g.shorts]
    split
    case isTrue hc =>
      exact .piece _ _ _ _ _ (.late _ _ (Nat.le_succ_of_le hp) (h.succ g.shorts hc) nofun)
    case isFalse => exact .piece _ _ _ _ _ (.late _ _ hp h nofun)

/-- A piece ends behind the blanks it is found behind. -/
theorem seek_le_of_sight (hE : E.Skips blank ident fqdn value) (hlen : s.length < npos)
    (hst : st ≠ .seekendparam ∧ st ≠ .seektagorend) {word : Bytes} {number : Int} {mark : Bool}
    (h : sight E s st p = .piece word number mark q) : seek blank s p ≤ q := by
  have hstride := walk_stride hE hlen (walk_of_sight h)
  generalize hk : (nextState st word mark, q) = k' at hstride
  -- a piece read goes on from where something is found; the other strides are of other states
  cases hstride with
  | ended =>
    obtain rfl := (Prod.mk.inj hk).2
    rcases seek_eq blank s p with heq | ⟨-, hlt⟩
    · exact heq.le
    · exact (hlt.trans hlen).le
  | back => exact absurd rfl hst.1
  | stay => exact absurd rfl hst.2
  | read st st' p q' _ hle _ =>
    obtain rfl := (Prod.mk.inj hk).2
    rwa [hE.seekspace] at hle

/-- A function without parameters is left behind. -/
theorem seek_lt_of_tagorend (hE : E.Skips blank ident fqdn value) (hlen : s.length < npos)
    (hst : st ≠ .seekendparam) {word : Bytes} {number : Int} {mark : Bool}
    (h : sight E s st p = .piece word number mark q) (hnext : nextState st word mark = .seektagorend) :
    seek blank s p < q := by
  -- only a function without parenthesis is followed by the end of a tag
  cases st <;> dsimp only [nextState] at hnext
  case seekendparam => exact absurd rfl hst
  case seekcollectfn =>
    dsimp only [sight] at h
    obtain ⟨hne, heq⟩ := sightWord_eq_piece.mp h
    split at heq
    case isTrue => cases heq; cases hnext
    case isFalse =>
      cases heq
      rw [hE.getidentifier] at hne ⊢
      exact seek_lt_scan hne hlen
  case seektagorend | seektagname | seekcolentry | seekdeclare => split at hnext <;> cases hnext
  all_goals cases hnext

/-- **What is seen on the one line is seen on the other**, of a turn that reads not across
the blanks. -/
theorem alike_sight (hE : E.Skips blank ident fqdn value) (g : Gap blank u bl v)
    (h : Shift blank u bl v st p p') (hkeeps : Keeps E blank u v (st, p))
    (hback : st = .seekendparam → ∀ q, findFrom 41 (u ++ v) 0 = some q → p ≤ q) :
    Alike (Shift blank u bl v) st (sight E (u ++ v) st p) (sight E (u ++ (bl ++ v)) st p') := by
  by_cases hend : st = .seekendparam
  · subst hend
    exact alike_endparam g h hkeeps (hback rfl)
  by_cases horend : st = .seektagorend
  · subst horend
    exact alike_tagorend g h hkeeps
  have hlen := g.shorts
  by_cases hseek : seek blank (u ++ v) p < u.length
  · -- the turn begins before the blanks, and so ends before them
    have hearly := hkeeps.resolve_right fun ⟨hpast, _⟩ => by
      unfold Past at hpast
      rw [if_neg hend] at hpast
      exact absurd hpast (Nat.not_le.mpr hseek)
    cases h with
    | early hu hp hst =>
      cases hs : sight E (u ++ v) st p with
      | ended =>
        have hwalk : walk E (u ++ v) (st, p) = some (st, npos) := by
          unfold walk
          rw [hs]
          rfl
        exact absurd (hearly _ hwalk).1 (Nat.not_le.mpr g.length_lt)
      | wrong e => exact .wrong e _
      | piece word number mark q =>
        obtain ⟨hq, hq'⟩ := hearly _ (walk_of_sight hs)
        rw [g.sight_before hE ⟨hend, horend⟩ hs hq hseek]
        exact .piece _ _ _ _ _ (.early _ hu hq hq')
    | late _ hp h hu =>
      have hu := g.length_lt
      rcases seek_eq blank (u ++ v) p with heq | ⟨hle, -⟩ <;> omega
  · rw [Nat.not_lt] at hseek
    -- the turn begins behind the blanks on both lines, or at them
    have hfacing : Facing blank (u ++ v) (u ++ (bl ++ v)) p p' := by
      cases h with
      | early hu hp hst => exact g.facing hE hp hseek
      | late _ hp h hu => exact h.facing hlen
    have halike := hfacing.alike hE hlen ⟨hend, horend⟩
    generalize hs : sight E (u ++ v) st p = a at halike ⊢
    generalize sight E (u ++ (bl ++ v)) st p' = b at halike ⊢
    cases halike with
    | ended => exact .ended
    | wrong e => exact .wrong e _
    | piece word number mark q q' hlevel =>
      have hle := seek_le_of_sight hE hlen.1 ⟨hend, horend⟩ hs
      refine .piece _ _ _ _ _ (.late _ _ (hseek.trans hle) hlevel fun hnext heq => ?_)
      have hlt := seek_lt_of_tagorend hE hlen.1 hend hs hnext
      omega

/-! ## Two readers -/

/-- A reader is on the one line while it is on the other. -/
theorem Shift.onLine_iff (g : Gap blank u bl v) (h : Shift blank u bl v st p p') :
    OnLine (u ++ v) p ↔ OnLine (u ++ (bl ++ v)) p' := by
  have hlen := g.shorts
  cases h with
  | early hu hp hst =>
    obtain ⟨c, t, rfl, -⟩ := g.token
    unfold Short at hlen
    unfold OnLine
    simp only [List.length_append, List.length_cons] at hlen ⊢
    omega
  | late _ hp h hu => exact h.onLine_iff hlen

theorem Gap.shift_npos (g : Gap blank u bl v) (st : RCState) : Shift blank u bl v st npos npos :=
  .late _ _ g.length_lt.le (.inl ⟨rfl, rfl⟩) fun _ heq => absurd heq g.length_lt.ne'

/-- Both lines begin at positions that are shifted. -/
theorem shift_beginning (hE : E.Skips blank ident fqdn value) (g : Gap blank u bl v)
    (st : RCState) :
    Shift blank u bl v st (beginning E (u ++ v)) (beginning E (u ++ (bl ++ v))) := by
  have hlen := g.shorts
  have hu := g.length_lt
  unfold beginning
  dsimp only
  rw [hE.seekspace, hE.seekspace]
  -- the line begins before the blanks, or is blank up to them
  by_cases hseek : seek blank (u ++ v) 0 < u.length
  · rw [seek_before hu hseek (bl ++ v), Gap.getElem?_lt hseek, Gap.getElem?_lt hseek]
    split
    · exact g.shift_npos st
    · refine .early _ (fun hblank => ?_) hseek.le fun _ => hseek
      have hnil : (u.drop 0).dropWhile blank = [] := List.dropWhile_eq_nil_iff.mpr hblank
      exact absurd (le_seek_append hu.le (Nat.zero_le _) hnil v) (Nat.not_le.mpr hseek)
  · rw [Nat.not_lt] at hseek
    have hlevel := (g.facing hE (Nat.zero_le _) hseek).seek
    have hblank : Blanks blank u :=
      List.dropWhile_eq_nil_iff.mp (dropWhile_of_le_seek (Nat.zero_le _) hseek)
    by_cases hp : seek blank (u ++ v) 0 = npos ∨ (u ++ v)[seek blank (u ++ v) 0]? = some 35
    · rw [if_pos hp, if_pos (hp.imp (hlevel.eq_npos_iff hlen).mp (hlevel.getElem? hlen).symm.trans)]
      exact g.shift_npos st
    · rw [if_neg hp, if_neg]
      · exact .late _ _ hseek hlevel fun _ _ => hblank
      · exact mt (.imp (hlevel.eq_npos_iff hlen).mpr (hlevel.getElem? hlen).trans) hp

/-- The readers of the two texts: before the line, on it, or behind it. -/
inductive Beside (blank : UInt8 → Bool) (u bl v : Bytes) (l : List Bytes) :
    Reading → Reading → Prop where
  | before (x : Cursor) (s : Bytes) (ls : List Bytes) :
      Beside blank u bl v l ⟨x, s, ls ++ (u ++ v) :: l⟩ ⟨x, s, ls ++ (u ++ (bl ++ v)) :: l⟩
  | on (r : ReadConf) (conf : CollectionsConf) (p p' : Nat) (h : Shift blank u bl v r.state p p') :
      Beside blank u bl v l ⟨⟨r, conf, p⟩, u ++ v, l⟩ ⟨⟨r, conf, p'⟩, u ++ (bl ++ v), l⟩
  | behind (y : Reading) (h : y.rest.length < l.length) : Beside blank u bl v l y y

variable {l : List Bytes} {y y' w : Reading}

/-- A reader whose line is over takes the next one, or returns. -/
theorem turn_eq_of_not_inLine (hin : ¬ y.InLine) :
    turn E y = match y.rest with
      | s :: rest => .inl { y with p := beginning E s, s := s, rest := rest }
      | [] => .inr (.returns (if y.r.state = .seekdeclare then 0 else -1), y.conf) := if_neg hin

/-- A turn on the line, with the blanks. -/
theorem readstate_alike {r : ReadConf} {conf : CollectionsConf} {x : Cursor}
    {R : RCState → Nat → Nat → Prop} (hover : R r.state npos npos)
    (h : Alike R r.state (sight E s r.state p) (sight E s' r.state p'))
    (hread : readstate E s ⟨r, conf, p⟩ = .ok x) :
    ∃ q', readstate E s' ⟨r, conf, p'⟩ = .ok { x with p := q' } ∧ R x.r.state x.p q' := by
  rw [readstate_eq] at hread ⊢
  dsimp only at hread ⊢
  generalize sight E s r.state p = a at h hread
  generalize sight E s' r.state p' = b at h
  cases h with
  | ended =>
    obtain rfl := Except.ok.inj hread
    exact ⟨npos, rfl, hover⟩
  | wrong e => cases hread
  | piece word number mark q q' h =>
    obtain ⟨rfl, hst, hplaced⟩ := placed_act r conf word number mark p q x hread
    exact ⟨q', hplaced p' q', hst ▸ h⟩

/-- **The readers stay beside each other**, as long as no turn reads across the blanks. -/
theorem Beside.step (hE : E.Skips blank ident fqdn value) (g : Gap blank u bl v)
    (h : Beside blank u bl v l y y')
    (hkeeps : y.InLine → y.s = u ++ v → y.rest = l → Keeps E blank u v (spot y.toCursor))
    (hback : y.InLine → y.r.state = .seekendparam → ∀ q, findFrom 41 y.s 0 = some q → y.p ≤ q)
    (hturn : turn E y = .inl w) : ∃ w', turn E y' = .inl w' ∧ Beside blank u bl v l w w' := by
  rcases turn_eq_inl hturn with ⟨hin, -, hs, hrest⟩ | ⟨hout, s, rest, hrest, rfl⟩
  · -- a turn in a line
    have hread := turn_inLine hin hturn
    obtain ⟨x, sw, restw⟩ := w
    dsimp only at hs hrest hread
    subst hs hrest
    cases h with
    | before x s ls =>
      have hin' : (⟨x, s, ls ++ (u ++ (bl ++ v)) :: l⟩ : Reading).InLine := hin
      refine ⟨_, turn_of_readstate hin' hread, .before _ _ _⟩
    | on r conf p p' h =>
      have hin' : (⟨⟨r, conf, p'⟩, u ++ (bl ++ v), l⟩ : Reading).InLine := (h.onLine_iff g).mp hin
      obtain ⟨q', hread', hshift⟩ := readstate_alike (g.shift_npos _)
        (alike_sight hE g h (hkeeps hin rfl rfl) (hback hin)) hread
      exact ⟨_, turn_of_readstate hin' hread', .on _ _ _ _ hshift⟩
    | behind _ h => exact ⟨_, hturn, .behind _ h⟩
  · -- the next line
    cases h with
    | before x s' ls =>
      have hout' : ¬ (⟨x, s', ls ++ (u ++ (bl ++ v)) :: l⟩ : Reading).InLine := hout
      rw [turn_eq_of_not_inLine hout']
      cases ls with
      | nil =>
        cases hrest
        exact ⟨_, rfl, .on _ _ _ _ (shift_beginning hE g _)⟩
      | cons s' ls =>
        cases hrest
        exact ⟨_, rfl, .before _ _ _⟩
    | on r conf p p' h =>
      dsimp only at hrest
      subst hrest
      have hout' : ¬ (⟨⟨r, conf, p'⟩, u ++ (bl ++ v), s :: rest⟩ : Reading).InLine :=
        mt (h.onLine_iff g).mpr hout
      rw [turn_eq_of_not_inLine hout']
      exact ⟨_, rfl, .behind _ (Nat.lt_succ_self _)⟩
    | behind _ h =>
      refine ⟨_, hturn, .behind _ ?_⟩
      rw [hrest] at h
      exact (Nat.lt_succ_self _).trans h

end Qigong.Conf
