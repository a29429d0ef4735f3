import Mathlib.Data.List.DropRight
import Mathlib.Data.List.TakeWhile
import Qigong.Conf.Sight

/-!
# How far turns go on a line

With the scanners as documented, a turn goes on behind the blanks it finds, and passes no
closing parenthesis but one that ends a frequency or parameters (`walk_stride`). The one
way back, to the first closing parenthesis of the line, is a circle: no text that is read
to its end goes it (`not_set_back`).
-/

namespace Qigong.Conf

variable {E : ConfEnv} {s text : Bytes} {x x' : Cursor} {y y' z : Reading}

/-! ## What scanners skip and read -/

/-- What is relied on besides in the scanners: a number is what its digits stand for,
whatever that is, but 0 where there are none; a tab is a blank as a space is, and nothing
that closes belongs to the name of a machine. -/
structure ConfScanners.Skips (S : ConfScanners) (blank ident fqdn : UInt8 → Bool)
    (value : Bytes → Int) : Prop extends S.Described blank ident fqdn where
  number : ∀ s p, S.getinteger s p
    = (value (scan blank isDigit s p).1, (scan blank isDigit s p).2)
  number_nil : value [] = 0
  tab : blank 9 = true ∧ ident 9 = false ∧ fqdn 9 = false
  closing : fqdn 41 = false ∧ fqdn 125 = false

variable {blank ident fqdn run : UInt8 → Bool} {value : Bytes → Int} {p q i : Nat}

/-- What a scan skips is before what it reads. -/
theorem seek_le_scan (blank run : UInt8 → Bool) (s : Bytes) (p : Nat) : (scan blank run s p).2 = npos ∨
    seek blank s p ≤ (scan blank run s p).2 ∧ (scan blank run s p).2 < s.length := by
  simp only [scan, seek]
  split
  case isTrue => exact .inl rfl
  case isFalse hrest =>
    right
    have hle := (List.dropWhile_suffix (l := (s.drop p).dropWhile blank) run).length_le
    have hpos := List.length_pos_iff.mpr hrest
    have hlen := (List.dropWhile_suffix (l := s.drop p) blank).length_le
    rw [List.length_drop] at hlen
    rw [if_neg (List.length_pos_iff.mp (by omega))]
    omega

theorem seek_eq (blank : UInt8 → Bool) (s : Bytes) (p : Nat) : seek blank s p = npos ∨
    p ≤ seek blank s p ∧ seek blank s p < s.length := by
  unfold seek
  dsimp only
  split
  case isTrue => exact .inl rfl
  case isFalse hrest =>
    have hle := (List.dropWhile_suffix (l := s.drop p) blank).length_le
    rw [List.length_drop] at hle
    have hpos := List.length_pos_iff.mpr hrest
    omega

/-- A character of a string behind a place is one of what is left there. -/
theorem mem_of_getElem? {pre post : Bytes} {c : UInt8} (hdrop : s.drop p = pre ++ post) (hp : p ≤ i)
    (hc : s[i]? = some c) (hi : i < p + pre.length) : c ∈ pre := by
  have hat : (pre ++ post)[i - p]? = some c := by
    rw [← hdrop, List.getElem?_drop, Nat.add_sub_cancel' hp, hc]
  rw [List.getElem?_append_left (by omega)] at hat
  exact List.mem_of_getElem? hat

/-- Nothing is skipped where no blank stands. -/
theorem seek_self {c : UInt8} (hc : s[p]? = some c) (hb : blank c = false) : seek blank s p = p := by
  obtain ⟨hlt, hget⟩ := List.getElem?_eq_some_iff.mp hc
  unfold seek
  dsimp only
  rw [List.drop_eq_getElem_cons hlt, hget, List.dropWhile_cons_of_neg (by rw [hb]; decide),
    if_neg (List.cons_ne_nil _ _), List.length_cons, List.length_drop]
  omega

/-- What is skipped is passed. -/
theorem skipped_le_scan (hlen : s.length < npos) (run : UInt8 → Bool) (p : Nat) :
    seek blank s p ≤ (scan blank run s p).2 := by
  rcases seek_le_scan blank run s p with heq | ⟨hle, -⟩
  · rcases seek_eq blank s p with heq' | ⟨-, hlt⟩ <;> omega
  · exact hle

/-- A scan from a place of the line goes on. -/
theorem le_scan (hlen : s.length < npos) (hp : p ≤ s.length) : p ≤ (scan blank run s p).2 := by
  rcases seek_le_scan blank run s p with heq | ⟨hle, -⟩
  · omega
  · rcases seek_eq blank s p with heq | ⟨hge, -⟩ <;> omega

/-- Nothing but blanks stands before what is found. -/
theorem seek_between {c : UInt8} (hp : p ≤ i) (hc : s[i]? = some c) (hi : i < seek blank s p) :
    blank c = true := by
  have hdrop := (List.takeWhile_append_dropWhile (p := blank) (l := s.drop p)).symm
  have hlt := (List.getElem?_eq_some_iff.mp hc).1
  have hlen := congrArg List.length hdrop
  rw [List.length_append, List.length_drop] at hlen
  refine List.mem_takeWhile_imp (mem_of_getElem? hdrop hp hc ?_)
  unfold seek at hi
  dsimp only at hi
  split at hi
  case isTrue hnil =>
    rw [hnil, List.length_nil] at hlen
    omega
  case isFalse => omega

/-- A scan passes over blanks and its run. -/
theorem scan_between {c : UInt8} (hp : p ≤ i) (hc : s[i]? = some c)
    (hi : i < (scan blank run s p).2) : blank c = true ∨ run c = true := by
  set t := (s.drop p).dropWhile blank with ht
  have hdrop : s.drop p = ((s.drop p).takeWhile blank ++ t.takeWhile run) ++ t.dropWhile run := by
    rw [List.append_assoc, List.takeWhile_append_dropWhile, ht, List.takeWhile_append_dropWhile]
  have hlt := (List.getElem?_eq_some_iff.mp hc).1
  have hlen := congrArg List.length hdrop
  rw [List.length_append, List.length_drop] at hlen
  have hmem : c ∈ (s.drop p).takeWhile blank ++ t.takeWhile run := by
    refine mem_of_getElem? hdrop hp hc ?_
    simp only [scan, ← ht] at hi
    split at hi
    case isTrue hnil =>
      rw [hnil, List.length_nil] at hlen
      omega
    case isFalse => omega
  exact (List.mem_append.mp hmem).imp List.mem_takeWhile_imp List.mem_takeWhile_imp

/-- What is left behind what is skipped. -/
theorem drop_seek (hne : seek blank s p ≠ npos) :
    s.drop (seek blank s p) = (s.drop p).dropWhile blank := by
  have hsuffix : (s.drop p).dropWhile blank <:+ s :=
    (List.dropWhile_suffix _).trans (List.drop_suffix _ _)
  unfold seek at hne ⊢
  dsimp only at hne ⊢
  split
  case isTrue hnil => exact absurd (if_pos hnil) hne
  case isFalse => exact (List.suffix_iff_eq_drop.mp hsuffix).symm

/-- A scan may as well begin behind what it skips. -/
theorem scan_seek (hne : seek blank s p ≠ npos) :
    scan blank run s (seek blank s p) = scan blank run s p := by
  unfold scan
  dsimp only
  rw [drop_seek hne, List.dropWhile_idempotent]

/-- What is read stands behind what is skipped. -/
theorem seek_lt_scan (hw : (scan blank run s p).1 ≠ []) (hlen : s.length < npos) :
    seek blank s p < (scan blank run s p).2 := by
  have hlt : seek blank s p < s.length := by
    refine (seek_eq blank s p).elim (fun heq => absurd ?_ hw) And.right
    unfold seek at heq
    dsimp only at heq
    split at heq
    case isTrue hnil =>
      unfold scan
      dsimp only
      rw [hnil, List.takeWhile_nil]
    case isFalse => omega
  have hne : seek blank s p ≠ npos := by omega
  have hpos := List.length_pos_iff.mpr hw
  rcases scan_progress blank run s (seek blank s p) with heq | ⟨hle, -⟩
  · rw [scan_seek hne] at heq
    omega
  · rw [scan_seek hne] at hle
    omega

/-- Nothing is read where a character of another kind stands. -/
theorem scan_stopped {c : UInt8} (hne : seek blank s p ≠ npos) (hc : s[seek blank s p]? = some c)
    (hr : run c = false) : scan blank run s p = ([], seek blank s p) := by
  have hhead : ((s.drop p).dropWhile blank).head? = some c := by
    rw [← drop_seek hne, List.head?_drop, hc]
  obtain ⟨t, ht⟩ := List.head?_eq_some_iff.mp hhead
  unfold scan seek
  dsimp only
  rw [ht, List.takeWhile_cons_of_neg (by rw [hr]; decide),
    List.dropWhile_cons_of_neg (by rw [hr]; decide)]

/-! ## What a turn passes -/

/-- How far a turn goes on a line. -/
inductive Stride (E : ConfEnv) (s : Bytes) : RCState × Nat → RCState × Nat → Prop where
  | ended (st : RCState) (p : Nat) : Stride E s (st, p) (st, npos)
  | back (p q : Nat) (hq : findFrom 41 s 0 = some q) :
      Stride E s (.seekendparam, p) (.seektagorend, q + 1)
  | stay (p : Nat) (hc : s[p]? ≠ some 125) : Stride E s (.seektagorend, p) (.seektagname, p)
  | read (st st' : RCState) (p q : Nat) (hst : st ≠ .seekendparam) (hle : E.seekspace s p ≤ q)
      (hpar : ∀ i, p ≤ i → i < q → s[i]? = some 41 → st' = .seekcolentry ∧ q = i + 1) :
      Stride E s (st, p) (st', q)

section

variable {st : RCState} {k' : RCState × Nat}

/-- Behind a word, or behind the line. -/
theorem next_sightWord {w : Bytes × Nat} {found : Sight}
    (h : (sightWord w found).next st = some k') :
    k' = (st, npos) ∨ w.1 ≠ [] ∧ found.next st = some k' := by
  unfold sightWord at h
  split at h
  case isTrue =>
    split at h
    · exact .inl (Option.some.inj h).symm
    · cases h
  case isFalse hne => exact .inr ⟨hne, h⟩

theorem next_sightChar {c : UInt8} (h : (sightChar E s p c).next st = some k') :
    k' = (st, npos) ∨ s[E.seekspace s p]? = some c ∧
      k' = (nextState st [] false, E.seekspace s p + 1) := by
  unfold sightChar at h
  dsimp only at h
  split at h
  case isTrue => exact .inl (Option.some.inj h).symm
  case isFalse =>
    split at h
    case isTrue hc => exact .inr ⟨hc, (Option.some.inj h).symm⟩
    case isFalse => cases h

/-- Behind a time and its unit, or behind the line. -/
theorem next_sightTime (h : (sightTime E s p).next st = some k') :
    k' = (st, npos) ∨ (∃ c, s[(E.getinteger s p).2]? = some c ∧ unitOf c ≠ none) ∧
      k' = (nextState st [] false, (E.getinteger s p).2 + 1) := by
  unfold sightTime at h
  dsimp only at h
  split at h
  case isTrue =>
    split at h
    · exact .inl (Option.some.inj h).symm
    · cases h
  case isFalse =>
    split at h
    case isTrue => cases h
    case isFalse =>
      split at h
      case h_1 u hu =>
        obtain ⟨c, hc, hunit⟩ := Option.bind_eq_some_iff.mp hu
        refine .inr ⟨⟨c, hc, ?_⟩, (Option.some.inj h).symm⟩
        rw [hunit]
        exact Option.some_ne_none u
      case h_2 => cases h

end

/-- Parameters end behind the parenthesis. -/
theorem walk_endparam {k' : RCState × Nat} (hq : findFrom 41 s 0 = some q)
    (h : walk E s (.seekendparam, p) = some k') : k' = (.seektagorend, q + 1) := by
  unfold walk at h
  dsimp only [sight] at h
  rw [hq] at h
  exact (Option.some.inj h).symm

theorem walk_tagorend {k' : RCState × Nat} (hc : s[p]? ≠ some 125)
    (h : walk E s (.seektagorend, p) = some k') : k' = (.seektagname, p) := by
  unfold walk at h
  dsimp only [sight] at h
  rw [if_neg hc] at h
  exact (Option.some.inj h).symm

/-- No closing parenthesis stands between two places. -/
def Clear (s : Bytes) (p q : Nat) : Prop := ∀ i, p ≤ i → i < q → s[i]? ≠ some 41

theorem Clear.succ (h : Clear s p q) (hq : s[q]? ≠ some 41) : Clear s p (q + 1) := by
  intro i hp hi
  by_cases heq : i = q
  · exact heq ▸ hq
  · exact h i hp (by omega)

theorem Clear.trans {m : Nat} (h : Clear s p m) (h' : Clear s m q) : Clear s p q := by
  intro i hp hi
  by_cases hm : i < m
  · exact h i hp hm
  · exact h' i (by omega) hi

/-- A scan passes over no parenthesis. -/
theorem clear_scan (hb : blank 41 = false) (hr : run 41 = false) (s : Bytes) (p : Nat) :
    Clear s p (scan blank run s p).2 := by
  intro i hp hi hc
  rcases scan_between hp hc hi with h | h
  · exact absurd (hb.symm.trans h) Bool.false_ne_true
  · exact absurd (hr.symm.trans h) Bool.false_ne_true

theorem clear_seek (hb : blank 41 = false) (s : Bytes) (p : Nat) : Clear s p (seek blank s p) :=
  fun _ hp hi hc => absurd (hb.symm.trans (seek_between hp hc hi)) Bool.false_ne_true

section

variable {st st' : RCState} {k' : RCState × Nat}

theorem Stride.of_clear (hE : E.Skips blank ident fqdn value) (hst : st ≠ .seekendparam)
    (hle : seek blank s p ≤ q) (hclear : Clear s p q) : Stride E s (st, p) (st', q) :=
  .read st _ p _ hst ((hE.seekspace s p).le.trans hle) fun i hp hi hc => absurd hc (hclear i hp hi)

/-- A word is a stride, -/
theorem stride_word (hE : E.Skips blank ident fqdn value) (hlen : s.length < npos)
    (hst : st ≠ .seekendparam) {word : Bytes}
    (h : (sightWord (E.getidentifier s p) (.piece word 0 false (E.getidentifier s p).2)).next st
      = some k') : Stride E s (st, p) k' := by
  have hpar := hE.marks 41 (by decide)
  rw [hE.getidentifier] at h
  rcases next_sightWord h with rfl | ⟨-, h⟩
  · exact .ended _ _
  · obtain rfl := Option.some.inj h
    exact .of_clear hE hst (skipped_le_scan hlen ident p) (clear_scan hpar.1 hpar.2 s p)

/-- so is a character that is no parenthesis, -/
theorem stride_char (hE : E.Skips blank ident fqdn value) (hst : st ≠ .seekendparam) {c : UInt8}
    (hc : c ≠ 41) (h : (sightChar E s p c).next st = some k') : Stride E s (st, p) k' := by
  rcases next_sightChar h with rfl | ⟨hat, rfl⟩
  · exact .ended _ _
  · rw [hE.seekspace] at hat ⊢
    refine .of_clear hE hst (Nat.le_succ _) ((clear_seek (hE.marks 41 (by decide)).1 s p).succ ?_)
    rw [hat]
    exact fun heq => hc (Option.some.inj heq)

/-- and so is a time. -/
theorem stride_time (hE : E.Skips blank ident fqdn value) (hlen : s.length < npos)
    (hst : st ≠ .seekendparam) (h : (sightTime E s p).next st = some k') :
    Stride E s (st, p) k' := by
  rcases next_sightTime h with rfl | ⟨⟨c, hc, hunit⟩, rfl⟩
  · exact .ended _ _
  · rw [hE.number] at hc ⊢
    refine .of_clear hE hst (Nat.le_succ_of_le (skipped_le_scan hlen isDigit p))
      ((clear_scan (hE.marks 41 (by decide)).1 (by decide) s p).succ ?_)
    rw [hc]
    rintro ⟨⟩
    exact hunit rfl

/-- A function is one, with its opening parenthesis or without. -/
theorem stride_collectfn (hE : E.Skips blank ident fqdn value) (hlen : s.length < npos)
    (h : walk E s (.seekcollectfn, p) = some k') : Stride E s (.seekcollectfn, p) k' := by
  have hpar := hE.marks 41 (by decide)
  have hclear := clear_scan hpar.1 hpar.2 s p
  unfold walk at h
  dsimp only [sight] at h
  rw [hE.getidentifier] at h
  rcases next_sightWord h with rfl | ⟨-, h⟩
  · exact .ended _ _
  · split at h
    case isTrue hm =>
      obtain rfl := Option.some.inj h
      exact .of_clear hE nofun (Nat.le_succ_of_le (skipped_le_scan hlen ident p))
        (hclear.succ (by rw [hm.2]; decide))
    case isFalse =>
      obtain rfl := Option.some.inj h
      exact .of_clear hE nofun (skipped_le_scan hlen ident p) hclear

theorem stride_colentry (hE : E.Skips blank ident fqdn value)
    (h : walk E s (.seekcolentry, p) = some k') : Stride E s (.seekcolentry, p) k' := by
  have hclear := clear_seek (hE.marks 41 (by decide)).1 s p
  unfold walk at h
  dsimp only [sight] at h
  rw [hE.seekspace] at h
  split at h
  case isTrue =>
    obtain rfl := Option.some.inj h
    exact .ended _ _
  case isFalse =>
    split at h
    case isTrue hc =>
      obtain rfl := Option.some.inj h
      exact .of_clear hE nofun (Nat.le_succ _) (hclear.succ (by rw [hc]; decide))
    case isFalse =>
      obtain rfl := Option.some.inj h
      exact .of_clear hE nofun le_rfl hclear

/-- A connection is one, with its port or without. -/
theorem stride_connection (hE : E.Skips blank ident fqdn value) (hlen : s.length < npos)
    (h : walk E s (.seekconnection, p) = some k') : Stride E s (.seekconnection, p) k' := by
  have hpar := (hE.marks 41 (by decide)).1
  have hclear := clear_scan hpar hE.closing.1 s p
  unfold walk at h
  dsimp only [sight] at h
  rw [hE.getfqdn] at h
  rcases next_sightWord h with rfl | ⟨-, h⟩
  · exact .ended _ _
  · split at h
    case isTrue hm =>
      split at h
      case isTrue => cases h
      case isFalse =>
        obtain rfl := Option.some.inj h
        rw [hE.number]
        have hlt := (List.getElem?_eq_some_iff.mp hm.2).1
        have hle : (scan blank fqdn s p).2 + 1
            ≤ (scan blank isDigit s ((scan blank fqdn s p).2 + 1)).2 := le_scan hlen hlt
        exact .of_clear hE nofun ((skipped_le_scan hlen fqdn p).trans (by omega))
          ((hclear.succ (by rw [hm.2]; decide)).trans (clear_scan hpar (by decide) s _))
    case isFalse =>
      obtain rfl := Option.some.inj h
      exact .of_clear hE nofun (skipped_le_scan hlen fqdn p) hclear

/-- **A turn goes on behind the blanks**, or back in the line, or nowhere; it passes a
closing parenthesis only where that ends a frequency or parameters. -/
theorem walk_stride (hE : E.Skips blank ident fqdn value) (hlen : s.length < npos)
    {k : RCState × Nat} (h : walk E s k = some k') : Stride E s k k' := by
  obtain ⟨st, p⟩ := k
  cases st
  case seekcollectfn => exact stride_collectfn hE hlen h
  case seekcolentry => exact stride_colentry hE h
  case seekconnection => exact stride_connection hE hlen h
  case seekendparam =>
    cases hq : findFrom 41 s 0 with
    | none =>
      unfold walk at h
      dsimp only [sight] at h
      rw [hq] at h
      cases h
    | some q =>
      obtain rfl := walk_endparam hq h
      exact .back p q hq
  case seektagorend =>
    by_cases hc : s[p]? = some 125
    · unfold walk at h
      dsimp only [sight] at h
      rw [if_pos hc] at h
      obtain rfl := Option.some.inj h
      have hself := seek_self hc (hE.marks 125 (by decide)).1
      have hnone : Clear s p p := fun i hp hi => absurd hp (by omega)
      exact .of_clear hE nofun (by omega) (hnone.succ (by rw [hc]; decide))
    · obtain rfl := walk_tagorend hc h
      exact .stay p hc
  case seekrddenpar =>
    rcases next_sightChar (p := p) h with rfl | ⟨hc, rfl⟩
    · exact .ended _ _
    · refine .read _ _ p _ nofun (Nat.le_succ _) fun i hp hi hi' => ⟨rfl, ?_⟩
      by_contra hne
      have hseek := hE.seekspace s p
      exact clear_seek (hE.marks 41 (by decide)).1 s p i hp (by omega) hi'
  case seekequal | seekmultiplier | seekhostbegin => exact stride_char hE nofun (by decide) h
  case seekrddtabledef | seekrddtable2nd => exact stride_time hE hlen nofun h
  case seekdeclare | seekhostname | seekserverkey | seekcollect | seekcollectname | seektagname =>
    exact stride_word hE hlen nofun h

end

/-! ## The way back -/

/-- The places of a line before a spot of it that turns come to. -/
theorem exists_crossing {k k' : RCState × Nat} (h : Relation.ReflTransGen (Walks E s) k k')
    (hle : k.2 ≤ q) (hlt : q < k'.2) : ∃ a b, Walks E s a b ∧ a.2 ≤ q ∧ q < b.2 ∧
      Relation.ReflTransGen (Walks E s) b k' := by
  induction h with
  | refl => omega
  | @tail a b _ hab ih =>
    by_cases ha : a.2 ≤ q
    · exact ⟨a, b, hab, ha, hlt, .refl⟩
    · obtain ⟨c, d, hcd, hc, hd, hpath⟩ := ih (by omega)
      exact ⟨c, d, hcd, hc, hd, hpath.tail hab⟩

/-- A walk that ends on the line was on it all along. -/
theorem onLine_of_walks {k k' : RCState × Nat} (h : Relation.ReflTransGen (Walks E s) k k')
    (hk' : OnLine s k'.2) : OnLine s k.2 := by
  rcases h.cases_head with rfl | ⟨c, hc, -⟩
  · exact hk'
  · exact hc.1

/-- The turns of a line begin where the line does. -/
theorem comes_walk (h : Comes E text y) (hin : y.InLine) :
    ∃ st, Relation.ReflTransGen (Walks E y.s) (st, beginning E y.s) (spot y.toCursor) := by
  refine Lib.Turns.invariant (I := fun y => y.InLine →
    ∃ st, Relation.ReflTransGen (Walks E y.s) (st, beginning E y.s) (spot y.toCursor))
    (fun a b ha hab hin => ?_) h (fun hin => absurd rfl hin.1) hin
  by_cases hina : a.InLine
  · obtain ⟨hwalks, hs, -⟩ := walks_of_turn hina hab
    obtain ⟨st, hpath⟩ := ha hina
    rw [hs]
    exact ⟨st, hpath.tail hwalks⟩
  · rcases turn_eq_inl hab with ⟨hina', -⟩ | ⟨-, s, rest, -, rfl⟩
    · exact absurd hina' hina
    · exact ⟨a.r.state, .refl⟩

/-- A reader that returns 0 takes every turn in a line. -/
theorem exists_turn {conf : CollectionsConf} (h : Lib.Returns (turn E) y (.returns 0, conf))
    (hin : y.InLine) : ∃ z, turn E y = .inl z := by
  cases hturn : turn E y with
  | inl z => exact ⟨z, rfl⟩
  | inr r =>
    obtain rfl := h.unique (.of_inr hturn)
    rcases turn_eq_inr hturn with ⟨-, ⟨-, hstops⟩ | ⟨hout, -⟩⟩
    · cases hstops
    · exact absurd hin hout

/-- A tag begins with a character of a name. -/
theorem ident_of_walk (hE : E.Skips blank ident fqdn value) {k' : RCState × Nat} {c : UInt8}
    (h : walk E s (.seektagname, p) = some k') (hne : E.seekspace s p ≠ npos)
    (hc : s[E.seekspace s p]? = some c) : ident c = true := by
  by_contra hident
  rw [hE.seekspace] at hne hc
  unfold walk at h
  dsimp only [sight] at h
  rw [hE.getidentifier, scan_stopped hne hc (Bool.eq_false_iff.mpr hident), sightWord, if_pos rfl,
    if_neg hne] at h
  cases h

/-- A tag may as well be read from where it begins. -/
theorem walk_tagname_seek (hE : E.Skips blank ident fqdn value) (hne : E.seekspace s p ≠ npos) :
    walk E s (.seektagname, E.seekspace s p) = walk E s (.seektagname, p) := by
  rw [hE.seekspace] at hne ⊢
  unfold walk
  dsimp only [sight]
  rw [hE.getidentifier, hE.getidentifier, scan_seek hne]

theorem seek_of_colentry {k' : RCState × Nat} (h : walk E s (.seekcolentry, p) = some k')
    (hon : OnLine s k'.2) : E.seekspace s p ≠ npos := by
  intro hp
  unfold walk at h
  dsimp only [sight] at h
  rw [if_pos hp] at h
  obtain rfl := Option.some.inj h
  exact hon.1 rfl

/-- Where an entry may stand another entry begins, or a tag. -/
theorem walk_colentry {k' : RCState × Nat} (h : walk E s (.seekcolentry, p) = some k')
    (hne : E.seekspace s p ≠ npos) (hc : s[E.seekspace s p]? ≠ some 40) :
    k' = (.seektagname, E.seekspace s p) := by
  unfold walk at h
  dsimp only [sight] at h
  rw [if_neg hne, if_neg hc] at h
  exact (Option.some.inj h).symm

/-- A walk that does not end here goes on. -/
theorem exists_walks {k k' : RCState × Nat} (h : Relation.ReflTransGen (Walks E s) k k')
    (hne : k.1 ≠ k'.1) : ∃ c, Walks E s k c ∧ Relation.ReflTransGen (Walks E s) c k' := by
  rcases h.cases_head with rfl | h
  · exact absurd rfl hne
  · exact h

/-- A line with something to read on it begins at no blank. -/
theorem beginning_le (hE : E.Skips blank ident fqdn value) (hon : OnLine s (beginning E s))
    {c : UInt8} (hc : s[q]? = some c) (hb : blank c = false) : beginning E s ≤ q := by
  have hne := hon.1
  unfold beginning at hne ⊢
  dsimp only at hne ⊢
  rw [hE.seekspace] at hne ⊢
  split
  case isTrue hnpos => exact absurd (if_pos hnpos) hne
  case isFalse =>
    by_contra hq
    have hblank := seek_between (Nat.zero_le q) hc (Nat.not_le.mp hq)
    exact absurd (hb.symm.trans hblank) Bool.false_ne_true

/-- **A reader set back behind an entry** goes round, when it has come from that entry: it
reads the same tag as before. -/
theorem not_returns_of_entry (hE : E.Skips blank ident fqdn value) {k : RCState × Nat}
    (hspot : spot y.toCursor = (.seektagorend, p)) (hin : y.InLine) (hk : k.1 = .seekendparam)
    (hon : OnLine y.s k.2) (hpath : Relation.ReflTransGen (Walks E y.s) (.seekcolentry, p) k)
    (hback : Walks E y.s k (spot y.toCursor)) (conf : CollectionsConf) :
    ¬ Lib.Returns (turn E) y (.returns 0, conf) := by
  intro hreturns
  -- behind the entry the line goes on with a tag
  obtain ⟨c, hbc, hpath⟩ := exists_walks hpath (by rw [hk]; exact nofun)
  have hne := seek_of_colentry hbc.2 (onLine_of_walks hpath hon)
  have hread : ∀ {c : UInt8} {k' : RCState × Nat}, walk E y.s (.seektagname, p) = some k' →
      y.s[E.seekspace y.s p]? = some c → ident c = false → False := fun hwalk hc hident =>
    absurd (hident.symm.trans (ident_of_walk hE hwalk hne hc)) Bool.false_ne_true
  have hnext : y.s[E.seekspace y.s p]? ≠ some 40 → ∃ d, walk E y.s (.seektagname, p) = some d ∧
      Relation.ReflTransGen (Walks E y.s) d k := by
    intro hparen
    obtain rfl := walk_colentry hbc.2 hne hparen
    obtain ⟨d, hcd, hpath⟩ := exists_walks hpath (by rw [hk]; exact nofun)
    exact ⟨d, (walk_tagname_seek hE hne).symm.trans hcd.2, hpath⟩
  have hclose : y.s[p]? ≠ some 125 := by
    intro hclose
    have hmark := hE.marks 125 (by decide)
    have hseek : E.seekspace y.s p = p := by rw [hE.seekspace, seek_self hclose hmark.1]
    rw [← hseek] at hclose
    obtain ⟨d, hwalk, -⟩ := hnext (by rw [hclose]; decide)
    exact hread hwalk hclose hmark.2
  -- and so the reader comes to it again
  obtain ⟨z, hz⟩ := exists_turn hreturns hin
  obtain ⟨hyz, hsz, -⟩ := walks_of_turn hin hz
  have hspotz : spot z.toCursor = (.seektagname, p) := by
    have hwalk := hyz.2
    rw [hspot] at hwalk
    exact walk_tagorend hclose hwalk
  have hinz : z.InLine := by
    show OnLine z.s (spot z.toCursor).2
    rw [hspotz, hsz, show p = (spot y.toCursor).2 by rw [hspot]]
    exact hin
  obtain ⟨w, hw⟩ := exists_turn (hreturns.turns (.single hz)) hinz
  obtain ⟨hzw, hsw, -⟩ := walks_of_turn hinz hw
  rw [hsz] at hsw hzw
  have hwalk := hzw.2
  rw [hspotz] at hwalk
  obtain ⟨d, hd, hpath⟩ := hnext fun hparen => hread hwalk hparen (hE.marks 40 (by decide)).2
  obtain rfl := Option.some.inj (hwalk.symm.trans hd)
  refine not_returns_of_circle ?_ conf ((hreturns.turns (.single hz)).turns (.single hw))
  rw [hsw]
  exact ((Relation.TransGen.tail' hpath hback).tail hyz).tail hzw

/-- **The way back is a circle**: where the text is read to its end, parameters stand before
the first closing parenthesis of their line. -/
theorem not_set_back (hE : E.Skips blank ident fqdn value) {conf : CollectionsConf}
    (h : Reads E text (.returns 0) conf) (hy : Comes E text y) (hin : y.InLine)
    (hlen : y.s.length < npos) (hst : y.r.state = .seekendparam)
    (hq : findFrom 41 y.s 0 = some q) : y.p ≤ q := by
  by_contra hlt
  rw [Nat.not_le] at hlt
  have hpar := (of_findFrom hq).2.1
  obtain ⟨y', hturn⟩ := exists_turn (h.turns hy) hin
  have hreturns := (h.turns hy).turns (.single hturn)
  obtain ⟨hback, hs, -⟩ := walks_of_turn hin hturn
  have hspot : spot y'.toCursor = (.seektagorend, q + 1) := by
    have hwalk := hback.2
    rw [spot, hst] at hwalk
    exact walk_endparam hq hwalk
  -- on its way to the parameters, the reader passes the parenthesis
  obtain ⟨st, hpath⟩ := comes_walk hy hin
  have hbegin := beginning_le hE (onLine_of_walks hpath hin) hpar (hE.marks 41 (by decide)).1
  obtain ⟨a, b, hab, ha, hb, hpath⟩ := exists_crossing hpath hbegin hlt
  cases walk_stride hE hlen hab.2 with
  | ended => exact (onLine_of_walks hpath hin).1 rfl
  | back p q' hq' =>
    obtain rfl := Option.some.inj (hq.symm.trans hq')
    rw [← hspot] at hpath
    refine not_returns_of_circle ?_ conf hreturns
    rw [hs]
    exact Relation.TransGen.tail' hpath hback
  | stay p hc => exact absurd hb (Nat.not_lt.mpr ha)
  | read st st' p q' _ _ hpass =>
    obtain ⟨rfl, rfl⟩ := hpass q ha hb hpar
    have hin' : y'.InLine := by
      have hlt' := hin.2
      obtain ⟨-, hp'⟩ := Prod.mk.inj hspot
      refine ⟨?_, ?_⟩
      · rw [hp']
        omega
      · rw [hp', hs]
        omega
    rw [← hs] at hpath hback
    exact not_returns_of_entry hE hspot hin' hst (hs ▸ hin) hpath hback conf hreturns

end Qigong.Conf
