import Qigong.Conf.Beside

/-!
# Blanks in a configuration

Blanks are put in a text that is accepted, in front of what the reader comes to read
(`Token`). The reader of the text with the blanks goes along with the reader of the other
(`Beside`), turn by turn (`Beside.step`), as no turn reads across the blanks
(`keeps_before`, `past_from`), and accepts it with the same sets. There is an exception:
where a set may end the blanks in front of the closing brace are not skipped, unless the
line is blank before it (`spaced_reads_iff`).
-/

namespace Qigong.Conf

variable {E : ConfEnv} {blank ident fqdn : UInt8 → Bool} {value : Bytes → Int}
variable {a b u bl v text text' : Bytes} {l : List Bytes} {conf : CollectionsConf}
variable {y y' z w y₀ : Reading}

/-! ## The lines -/

theorem linesFrom_ne_nil (cur text : Bytes) : linesFrom cur text ≠ [] := by
  fun_induction linesFrom cur text with
  | case6 _ _ _ _ _ ih => exact ih
  | _ => exact List.cons_ne_nil _ _

/-- The line that a text ends in. -/
def lastLine (text : Bytes) : Bytes := (lines text).getLast (linesFrom_ne_nil [] text)

/-- The lines of a text up to something that ends no line, and from there. -/
theorem linesFrom_split {c : UInt8} (hc : ¬ (c = 10 ∨ c = 13)) {cur a : Bytes}
    (h : linesFrom cur a = l ++ [u]) (t : Bytes) :
    linesFrom cur (a ++ c :: t) = l ++ linesFrom u (c :: t) := by
  have hcons : ∀ {cur : Bytes} {ls l : List Bytes}, ls ≠ [] → cur :: ls = l ++ [u] →
      ∃ l', l = cur :: l' ∧ ls = l' ++ [u] := by
    intro cur ls l hne h
    cases l with
    | nil => exact absurd (List.cons.inj h).2 hne
    | cons d l => exact ⟨l, by rw [(List.cons.inj h).1], (List.cons.inj h).2⟩
  have hone : ∀ {cur : Bytes} {l : List Bytes}, [cur] = l ++ [u] → l = [] ∧ u = cur := by
    intro cur l h
    obtain ⟨rfl, heq⟩ := List.append_inj' ((List.nil_append _).trans h) rfl
    cases heq
    exact ⟨rfl, rfl⟩
  fun_induction linesFrom cur a generalizing l with
  | case1 cur =>
    obtain ⟨rfl, rfl⟩ := hone h
    rfl
  | case2 cur d hd =>
    have hpair : isEolPair d c = false := by
      obtain ⟨h10, h13⟩ := not_or.mp hc
      simp [isEolPair, h10, h13]
    obtain ⟨l', rfl, hl'⟩ := hcons (List.cons_ne_nil _ _) h
    obtain ⟨rfl, rfl⟩ := hone hl'
    rw [List.singleton_append, linesFrom, if_pos hd, hpair]
    rfl
  | case3 cur d hd =>
    obtain ⟨rfl, rfl⟩ := hone h
    rw [List.singleton_append, linesFrom, if_neg hd]
    rfl
  | case4 cur d e rest hd hp ih =>
    obtain ⟨l', rfl, hl'⟩ := hcons (linesFrom_ne_nil _ _) h
    rw [List.cons_append, List.cons_append, linesFrom, if_pos hd, if_pos hp, ih hl', List.cons_append]
  | case5 cur d e rest hd hp ih =>
    obtain ⟨l', rfl, hl'⟩ := hcons (linesFrom_ne_nil _ _) h
    rw [List.cons_append, List.cons_append, linesFrom, if_pos hd, if_neg hp, ← List.cons_append,
      ih hl', List.cons_append]
  | case6 cur d e rest hd ih =>
    rw [List.cons_append, List.cons_append, linesFrom, if_neg hd]
    exact ih h

/-- What a line begins with. -/
theorem linesFrom_append_cur {cur v : Bytes} (h : linesFrom cur b = v :: l) (u : Bytes) :
    linesFrom (u ++ cur) b = (u ++ v) :: l := by
  fun_induction linesFrom cur b generalizing v with
  | case1 cur =>
    cases h
    rfl
  | case2 cur c hc =>
    cases h
    rw [linesFrom, if_pos hc]
  | case3 cur c hc =>
    cases h
    rw [linesFrom, if_neg hc, List.append_assoc]
  | case4 cur c d t hc hp ih =>
    cases h
    rw [linesFrom, if_pos hc, if_pos hp]
  | case5 cur c d t hc hp ih =>
    cases h
    rw [linesFrom, if_pos hc, if_neg hp]
  | case6 cur c d t hc ih =>
    rw [linesFrom, if_neg hc, List.append_assoc]
    exact ih h

theorem linesFrom_unbroken (hbl : Unbroken bl) (cur : Bytes) (c : UInt8) (t : Bytes) :
    linesFrom cur (bl ++ c :: t) = linesFrom (cur ++ bl) (c :: t) := by
  induction bl generalizing cur with
  | nil => rw [List.nil_append, List.append_nil]
  | cons d bl ih =>
    obtain ⟨e, t', heq⟩ : ∃ e t', bl ++ c :: t = e :: t' := by
      cases bl with
      | nil => exact ⟨_, _, rfl⟩
      | cons e bl => exact ⟨_, _, rfl⟩
    rw [List.cons_append, heq, linesFrom, if_neg (not_or.mpr (hbl d List.mem_cons_self)), ← heq,
      ih (fun e he => hbl e (List.mem_cons_of_mem _ he)), List.append_assoc, List.singleton_append]

/-- What a line begins with the text begins with. -/
theorem head_of_lines {c : UInt8} {v : Bytes} (h : lines b = (c :: v) :: l) :
    ¬ (c = 10 ∨ c = 13) ∧ ∃ t, b = c :: t := by
  unfold lines at h
  match b with
  | [] => cases h
  | [d] =>
    rw [linesFrom] at h
    split at h
    case isTrue => cases h
    case isFalse hd =>
      cases h
      exact ⟨hd, [], rfl⟩
  | d :: e :: t =>
    rw [linesFrom] at h
    split at h
    case isTrue => split at h <;> cases h
    case isFalse hd =>
      obtain ⟨w, l', heq⟩ := List.exists_cons_of_ne_nil (linesFrom_ne_nil [] (e :: t))
      rw [List.nil_append, ← List.append_nil [d], linesFrom_append_cur heq] at h
      cases h
      exact ⟨hd, _, rfl⟩

/-- **The lines of a text with blanks in it** are those of the text, but for one. -/
theorem lines_insert {c : UInt8} (h : lines b = (c :: v) :: l) (hbl : Unbroken bl) (a : Bytes) :
    lines (a ++ (bl ++ b)) = (lines a).dropLast ++ (lastLine a ++ (bl ++ c :: v)) :: l := by
  obtain ⟨hc, t, rfl⟩ := head_of_lines h
  have hlast : linesFrom [] a = (lines a).dropLast ++ [lastLine a] :=
    (List.dropLast_append_getLast (linesFrom_ne_nil [] a)).symm
  have hline := linesFrom_append_cur h (lastLine a ++ bl)
  have hunbroken := linesFrom_unbroken hbl (lastLine a) c t
  rw [List.append_nil, List.append_assoc] at hline
  rw [hline] at hunbroken
  rw [← hunbroken]
  cases bl with
  | nil => exact linesFrom_split hc hlast t
  | cons d bl =>
    exact linesFrom_split (not_or.mpr (hbl d List.mem_cons_self)) hlast (bl ++ c :: t)

/-- The line that is read, and those to be read, are lines of the text. -/
theorem line_suffix (h : Comes E text y) : y.rest <:+ lines text ∧
    (y.InLine → y.s :: y.rest <:+ lines text) := by
  refine Lib.Turns.invariant (I := fun y => y.rest <:+ lines text ∧
    (y.InLine → y.s :: y.rest <:+ lines text)) (fun a b ha hab => ?_) h
    ⟨List.suffix_refl _, fun hin => absurd rfl hin.1⟩
  rcases turn_eq_inl hab with ⟨hin, -, hs, hrest⟩ | ⟨-, s, rest, hrest, rfl⟩
  · rw [hs, hrest]
    exact ⟨ha.1, fun _ => ha.2 hin⟩
  · rw [hrest] at ha
    exact ⟨(List.suffix_cons _ _).trans ha.1, fun _ => ha.1⟩

theorem length_le_of_mem_linesFrom {cur : Bytes} :
    ∀ s ∈ linesFrom cur text, s.length ≤ cur.length + text.length := by
  fun_induction linesFrom cur text with
  | case1 cur => simp
  | case2 cur c hc => simp
  | case3 cur c hc => simp
  | case4 cur c d t hc hp ih =>
    intro s hs
    rcases List.mem_cons.mp hs with rfl | hs
    · exact Nat.le_add_right _ _
    · have hle := ih s hs
      simp only [List.length_cons, List.length_nil] at hle ⊢
      omega
  | case5 cur c d t hc hp ih =>
    intro s hs
    rcases List.mem_cons.mp hs with rfl | hs
    · exact Nat.le_add_right _ _
    · have hle := ih s hs
      simp only [List.length_cons, List.length_nil] at hle ⊢
      omega
  | case6 cur c d t hc ih =>
    intro s hs
    have hle := ih s hs
    simp only [List.length_append, List.length_cons, List.length_nil] at hle ⊢
    omega

/-! ## Along a line -/

theorem length_lt_of_inLine (hlen : text.length < npos) (hy : Comes E text y) (hin : y.InLine) :
    y.s.length < npos := by
  have hmem := ((line_suffix hy).2 hin).subset List.mem_cons_self
  have hle := length_le_of_mem_linesFrom y.s hmem
  rw [List.length_nil, Nat.zero_add] at hle
  exact hle.trans_lt hlen

/-- **A turn goes forth**, from behind the blanks, or looks for a tag. -/
theorem goes_forth (hE : E.Skips blank ident fqdn value) (hlen : text.length < npos)
    (hreads : Reads E text (.returns 0) conf) (hy : Comes E text y) (hin : y.InLine)
    (hturn : turn E y = .inl z) :
    y.p ≤ z.p ∧ (y.r.state = .seekendparam → y.p < z.p) ∧ (y.r.state ≠ .seekendparam →
      seek blank y.s y.p ≤ z.p ∨ z.p = y.p ∧ z.r.state = .seektagname) := by
  have hs := length_lt_of_inLine hlen hy hin
  have hlt := hin.2
  have hseek := seek_eq blank y.s y.p
  have hback := fun hst q hq => not_set_back hE hreads hy hin hs hst (q := q) hq
  have hstride := walk_stride hE hs (walks_of_turn hin hturn).1.2
  generalize hk : spot y.toCursor = k at hstride
  generalize hk' : spot z.toCursor = k' at hstride
  cases hstride with
  | ended st p =>
    obtain ⟨-, rfl⟩ := Prod.mk.inj hk
    obtain ⟨-, hz⟩ := Prod.mk.inj hk'
    rw [hz]
    exact ⟨by omega, fun _ => by omega, fun _ => .inl (by omega)⟩
  | back p q hq =>
    obtain ⟨hst, rfl⟩ := Prod.mk.inj hk
    obtain ⟨-, hz⟩ := Prod.mk.inj hk'
    have hle := hback hst q hq
    rw [hz]
    exact ⟨by omega, fun _ => by omega, fun hne => absurd hst hne⟩
  | stay p hc =>
    obtain ⟨hst, rfl⟩ := Prod.mk.inj hk
    obtain ⟨hst', hz⟩ := Prod.mk.inj hk'
    rw [hz]
    exact ⟨le_rfl, fun h => absurd (hst.symm.trans h) nofun, fun _ => .inr ⟨rfl, hst'⟩⟩
  | read st st' p q hst hle =>
    obtain ⟨rfl, rfl⟩ := Prod.mk.inj hk
    obtain ⟨-, hz⟩ := Prod.mk.inj hk'
    rw [hE.seekspace] at hle
    rw [hz]
    refine ⟨?_, fun h => absurd h hst, fun _ => .inl hle⟩
    rcases hseek with heq | ⟨hge, -⟩ <;> omega

/-- The lines left get no more. -/
theorem rest_suffix (h : Lib.Turns (turn E) y z) : z.rest <:+ y.rest := by
  refine Lib.Turns.invariant (I := fun z => z.rest <:+ y.rest) (fun a b ha hab => ?_) h
    (List.suffix_refl _)
  rcases turn_eq_inl hab with ⟨-, -, -, hrest⟩ | ⟨-, s, rest, hrest, rfl⟩
  · rw [hrest]
    exact ha
  · rw [hrest] at ha
    exact (List.suffix_cons _ _).trans ha

/-- A turn that leads to no other line is one in a line. -/
theorem inLine_of_turns (hturn : turn E y = .inl w) (h : Lib.Turns (turn E) w z)
    (hrest : z.rest = y.rest) : y.InLine ∧ w.s = y.s ∧ w.rest = y.rest := by
  rcases turn_eq_inl hturn with ⟨hin, -, hs, hw⟩ | ⟨-, s, rest, hy, rfl⟩
  · exact ⟨hin, hs, hw⟩
  · have hle := (rest_suffix h).length_le
    rw [hrest, hy, List.length_cons] at hle
    exact absurd hle (Nat.not_succ_le_self _)

/-- What is read before a place of a line. -/
theorem early_of_turns (hE : E.Skips blank ident fqdn value) (hlen : text.length < npos)
    (hreads : Reads E text (.returns 0) conf) {n : Nat} (hp : y.p ≤ n)
    (hst : y.r.state ≠ .seekendparam) (h : Lib.Turns (turn E) z y) :
    Comes E text z → z.rest = y.rest → z.p ≤ n ∧ (z.r.state = .seekendparam → z.p < n) := by
  induction h using Relation.ReflTransGen.head_induction_on with
  | refl => exact fun _ _ => ⟨hp, fun h => absurd h hst⟩
  | @head z w hzw hw ih =>
    intro hz hrest
    obtain ⟨hin, -, hrest'⟩ := inLine_of_turns hzw hw hrest.symm
    obtain ⟨hle, hlt, -⟩ := goes_forth hE hlen hreads hz hin hzw
    have hwn := (ih (hz.tail hzw) (hrest'.trans hrest)).1
    exact ⟨hle.trans hwn, fun h => (hlt h).trans_le hwn⟩

/-- What is read behind a place of a line. -/
theorem late_of_turns (hE : E.Skips blank ident fqdn value) (hlen : text.length < npos)
    (hreads : Reads E text (.returns 0) conf) {n : Nat} (hn : n ≤ npos) (hy : Comes E text y)
    (hp : n ≤ if y.r.state = .seekendparam then y.p else seek blank y.s y.p)
    (h : Lib.Turns (turn E) y z) :
    z.rest = y.rest → n ≤ if z.r.state = .seekendparam then z.p else seek blank z.s z.p := by
  induction h with
  | refl => exact fun _ => hp
  | @tail z w hz hzw ih =>
    intro hrest
    have hle := (rest_suffix (.single hzw)).length_le
    have hz' : z.rest = y.rest := (rest_suffix hz).eq_of_length_le (hrest ▸ hle)
    obtain ⟨hin, hs, -⟩ := inLine_of_turns hzw .refl (hrest.trans hz'.symm)
    obtain ⟨-, hlt, hseek⟩ := goes_forth hE hlen hreads (hy.trans hz) hin hzw
    have hnz := ih hz'
    have hbehind : n ≤ w.p → n ≤ if w.r.state = .seekendparam then w.p else seek blank w.s w.p := by
      intro hnw
      split
      · exact hnw
      · rcases seek_eq blank w.s w.p with heq | ⟨hge, -⟩
        · exact heq ▸ hn
        · exact hnw.trans hge
    by_cases hst : z.r.state = .seekendparam
    · rw [if_pos hst] at hnz
      exact hbehind (hnz.trans (hlt hst).le)
    · rw [if_neg hst] at hnz
      rcases hseek hst with hle | ⟨hp, hst'⟩
      · exact hbehind (hnz.trans hle)
      · rwa [hst', if_neg nofun, hs, hp]

/-- No word begins with a closing brace, and no time. -/
theorem walk_brace (hE : E.Skips blank ident fqdn value) {s : Bytes} {st : RCState} {p : Nat}
    (hst : st ≠ .seekendparam ∧ st ≠ .seektagorend ∧ st ≠ .seekcolentry)
    (hne : E.seekspace s p ≠ npos) (hc : s[E.seekspace s p]? = some 125) :
    walk E s (st, p) = none := by
  have hword : ∀ run found, run 125 = false →
      (sightWord (scan blank run s p) found).next st = none := by
    intro run found hrun
    rw [hE.seekspace] at hne hc
    rw [scan_stopped hne hc hrun, sightWord, if_pos rfl, if_neg hne]
    rfl
  have hchar : ∀ c, c ≠ 125 → (sightChar E s p c).next st = none := by
    intro c hc'
    unfold sightChar
    dsimp only
    rw [if_neg hne, hc, if_neg fun heq => hc' (Option.some.inj heq).symm]
    rfl
  have htime : (sightTime E s p).next st = none := by
    rw [hE.seekspace] at hne hc
    unfold sightTime
    dsimp only
    rw [hE.number, scan_stopped hne hc (by decide), if_pos hE.number_nil, if_neg hne]
    rfl
  have hident := (hE.marks 125 (by decide)).2
  unfold walk
  cases st <;> dsimp only [sight]
  case seekendparam => exact absurd rfl hst.1
  case seektagorend => exact absurd rfl hst.2.1
  case seekcolentry => exact absurd rfl hst.2.2
  case seekequal | seekrddenpar | seekmultiplier | seekhostbegin => exact hchar _ (by decide)
  case seekrddtabledef | seekrddtable2nd => exact htime
  case seekconnection =>
    rw [hE.getfqdn]
    exact hword fqdn _ hE.closing.2
  case seekdeclare | seekhostname | seekserverkey | seekcollect | seekcollectname | seektagname
    | seekcollectfn =>
    rw [hE.getidentifier]
    exact hword ident _ hident

/-- **A closing brace** is read where a set may end, and there only. -/
theorem tagorend_of_brace (hE : E.Skips blank ident fqdn value)
    (hreads : Reads E text (.returns 0) conf) (hy : Comes E text y) (hin : y.InLine)
    (hst : y.r.state ≠ .seekendparam) (hne : E.seekspace y.s y.p ≠ npos)
    (hc : y.s[E.seekspace y.s y.p]? = some 125) :
    y.r.state = .seektagorend ∧ E.seekspace y.s y.p = y.p := by
  obtain ⟨z, hz⟩ := exists_turn (hreads.turns hy) hin
  obtain ⟨hwalks, hs, -⟩ := walks_of_turn hin hz
  have hwalk := hwalks.2
  have hmark := hE.marks 125 (by decide)
  -- a tag is read neither here nor at the brace
  have htag : ∀ p, spot z.toCursor = (.seektagname, p) → p = y.p ∨ p = E.seekspace y.s y.p →
      False := by
    intro p hspot hp
    have hinz : z.InLine := by
      show OnLine z.s (spot z.toCursor).2
      rw [hspot, hs]
      rcases hp with rfl | rfl
      · exact hin
      · exact ⟨hne, (List.getElem?_eq_some_iff.mp hc).1⟩
    obtain ⟨w, hw⟩ := exists_turn ((hreads.turns hy).turns (.single hz)) hinz
    have hread := (walks_of_turn hinz hw).1.2
    rw [hspot, hs] at hread
    have hident : ident 125 = true := by
      rcases hp with rfl | rfl
      · exact ident_of_walk hE hread hne hc
      · rw [walk_tagname_seek hE hne] at hread
        exact ident_of_walk hE hread hne hc
    exact absurd (hmark.2.symm.trans hident) Bool.false_ne_true
  unfold spot at hwalk
  by_cases horend : y.r.state = .seektagorend
  · refine ⟨horend, ?_⟩
    by_cases hp : y.s[y.p]? = some 125
    · rw [hE.seekspace, seek_self hp hmark.1]
    · rw [horend] at hwalk
      exact (htag _ (walk_tagorend hp hwalk) (.inl rfl)).elim
  · by_cases hentry : y.r.state = .seekcolentry
    · rw [hentry] at hwalk
      exact (htag _ (walk_colentry hwalk hne (by rw [hc]; decide)) (.inr rfl)).elim
    · rw [walk_brace hE ⟨hst, horend, hentry⟩ hne hc] at hwalk
      cases hwalk

/-! ## The two texts -/

/-- The next thing that the reader reads, behind blanks, is what the text goes on with here,
and it is not the text of parameters. -/
structure Token (E : ConfEnv) (a b : Bytes) (y : Reading) : Prop where
  comes : Comes E (a ++ b) y
  inLine : y.InLine
  state : y.r.state ≠ .seekendparam
  found : E.seekspace y.s y.p ≠ npos
  here : lines b = y.s.drop (E.seekspace y.s y.p) :: y.rest

/-- The line of a token. -/
theorem Token.line (hE : E.Skips blank ident fqdn value) (h : Token E a b y) :
    ∃ c t, y.s = lastLine a ++ c :: t ∧ blank c = false ∧ lines b = (c :: t) :: y.rest ∧
      seek blank y.s y.p = (lastLine a).length := by
  have hfound := h.found
  have hhere := h.here
  rw [hE.seekspace] at hfound hhere
  have hlt := ((seek_eq blank y.s y.p).resolve_left hfound).2
  obtain ⟨c, t, hdrop⟩ := List.exists_cons_of_length_pos (l := y.s.drop (seek blank y.s y.p)) (by
    rw [List.length_drop]
    omega)
  have hc : blank c = false := by
    have hhead := List.head?_dropWhile_not blank (y.s.drop y.p)
    rw [← drop_seek hfound, hdrop] at hhead
    simpa using hhead
  rw [hdrop] at hhere
  have hline : y.s = lastLine a ++ c :: t := by
    have hlines := lines_insert hhere unbroken_nil a
    rw [List.nil_append, List.nil_append] at hlines
    have hsuffix := (line_suffix h.comes).2 h.inLine
    have hsuffix' := List.suffix_append (lines a).dropLast ((lastLine a ++ c :: t) :: y.rest)
    rw [← hlines] at hsuffix'
    exact (List.cons.inj
      ((List.suffix_of_suffix_length_le hsuffix hsuffix' le_rfl).eq_of_length_le le_rfl)).1
  refine ⟨c, t, hline, hc, hhere, ?_⟩
  have hrest := congrArg List.length hdrop
  have hall := congrArg List.length hline
  rw [List.length_drop] at hrest
  rw [List.length_append] at hall
  omega

/-- The readers go along, up to a turn of the first. -/
theorem exists_beside (hE : E.Skips blank ident fqdn value) (hlen : text.length < npos)
    (hreads : Reads E text (.returns 0) conf) (g : Gap blank u bl v) {ls : List Bytes}
    (htext : lines text = ls ++ (u ++ v) :: l) (htext' : lines text' = ls ++ (u ++ (bl ++ v)) :: l)
    (hkeeps : ∀ z w, Comes E text z → turn E z = .inl w → Lib.Turns (turn E) w y →
      z.InLine → z.s = u ++ v → z.rest = l → Keeps E blank u v (spot z.toCursor))
    (h : Comes E text z) :
    Lib.Turns (turn E) z y → ∃ z', Comes E text' z' ∧ Beside blank u bl v l z z' := by
  induction h with
  | refl =>
    refine fun _ => ⟨begin text', .refl, ?_⟩
    unfold begin
    rw [htext, htext']
    exact .before _ _ _
  | @tail z w hz hzw ih =>
    intro hwy
    obtain ⟨z', hz', hbeside⟩ := ih (.head hzw hwy)
    obtain ⟨w', hzw', hbeside'⟩ := hbeside.step hE g (hkeeps z w hz hzw hwy)
      (fun hin hst q hq =>
        not_set_back hE hreads hz hin (length_lt_of_inLine hlen hz hin) hst hq) hzw
    exact ⟨w', hz'.tail hzw', hbeside'⟩

/-- The readers end beside each other. -/
theorem Beside.ends (g : Gap blank u bl v) (h : Beside blank u bl v l z z')
    (hturn : turn E z = .inr (.returns 0, conf)) : turn E z' = .inr (.returns 0, conf) := by
  obtain ⟨hconf, ⟨-, hstops⟩ | ⟨hout, hrest, hstop⟩⟩ := turn_eq_inr hturn
  · cases hstops
  · cases h with
    | before x s ls => exact absurd hrest (List.append_ne_nil_of_right_ne_nil _ (List.cons_ne_nil _ _))
    | on r conf' p p' h =>
      dsimp only at hrest hconf hstop
      subst hrest hconf
      have hout' : ¬ (⟨⟨r, conf, p'⟩, u ++ (bl ++ v), []⟩ : Reading).InLine :=
        mt (h.onLine_iff g).mpr hout
      rw [turn_eq_of_not_inLine hout']
      dsimp only
      rw [← hstop]
    | behind _ h => exact hturn

/-- A turn before the token ends before it. -/
theorem keeps_before (hE : E.Skips blank ident fqdn value) (hlen : (a ++ b).length < npos)
    (hreads : Reads E (a ++ b) (.returns 0) conf) (h : Token E a b y)
    (hseek : seek blank y.s y.p = u.length) (hz : Comes E (a ++ b) z) (hturn : turn E z = .inl w)
    (hwy : Lib.Turns (turn E) w y) (hs : z.s = u ++ v) (hrest : z.rest = y.rest) :
    Keeps E blank u v (spot z.toCursor) := by
  obtain ⟨hin, -, hrest'⟩ := inLine_of_turns hturn hwy hrest.symm
  have hp : y.p ≤ u.length := by
    rcases seek_eq blank y.s y.p with heq | ⟨hle, -⟩
    · exact absurd ((hE.seekspace _ _).trans heq) h.found
    · exact hseek ▸ hle
  have hwalk := (walks_of_turn hin hturn).1.2
  rw [hs] at hwalk
  refine .inl fun k' hk' => ?_
  obtain rfl := Option.some.inj (hwalk.symm.trans hk')
  exact early_of_turns hE hlen hreads hp h.state hwy (hz.tail hturn) (hrest'.trans hrest)

/-- A turn from the token on begins there. -/
theorem past_from (hE : E.Skips blank ident fqdn value) (hlen : (a ++ b).length < npos)
    (hreads : Reads E (a ++ b) (.returns 0) conf) (h : Token E a b y)
    (hseek : seek blank y.s y.p = u.length) (hyz : Lib.Turns (turn E) y z) (hs : z.s = u ++ v)
    (hrest : z.rest = y.rest) : Past blank u v (spot z.toCursor) := by
  have hu : u.length ≤ npos := by
    rcases seek_eq blank y.s y.p with heq | ⟨-, hlt⟩
    · exact absurd ((hE.seekspace _ _).trans heq) h.found
    · have hlt' := length_lt_of_inLine hlen h.comes h.inLine
      omega
  have hlate := late_of_turns hE hlen hreads hu h.comes (by rw [if_neg h.state, hseek]) hyz hrest
  rwa [hs] at hlate

/-- The lines of the two texts, and the place of the token in its own. -/
structure Spaced (blank : UInt8 → Bool) (a b bl v : Bytes) (y : Reading) : Prop where
  line : y.s = lastLine a ++ v
  head : v.head? = b.head?
  place : seek blank y.s y.p = (lastLine a).length
  gap : Gap blank (lastLine a) bl v
  without : lines (a ++ b) = (lines a).dropLast ++ (lastLine a ++ v) :: y.rest
  spaced : lines (a ++ (bl ++ b)) = (lines a).dropLast ++ (lastLine a ++ (bl ++ v)) :: y.rest

theorem Token.spaced (hE : E.Skips blank ident fqdn value) (h : Token E a b y)
    (hlen : (a ++ (bl ++ b)).length < npos) (hbl : ∀ c ∈ bl, c = 32 ∨ c = 9) (hne : bl ≠ []) :
    ∃ v, Spaced blank a b bl v y := by
  obtain ⟨c, t, hs, hc, hb, hseek⟩ := h.line hE
  have hunbroken : Unbroken bl := by
    intro d hd
    rcases hbl d hd with rfl | rfl <;> decide
  have hwithout := lines_insert hb unbroken_nil a
  rw [List.nil_append, List.nil_append] at hwithout
  have hspaced := lines_insert hb hunbroken a
  refine ⟨c :: t, hs, ?_, hseek, ⟨hbl, hne, ⟨c, t, rfl, hc⟩, ?_⟩, hwithout, hspaced⟩
  · obtain ⟨-, t', rfl⟩ := head_of_lines hb
    rfl
  · have hmem : lastLine a ++ (bl ++ c :: t) ∈ linesFrom [] (a ++ (bl ++ b)) := by
      rw [← lines, hspaced]
      exact List.mem_append_right _ List.mem_cons_self
    have hle := length_le_of_mem_linesFrom _ hmem
    rw [List.length_nil, Nat.zero_add] at hle
    exact hle.trans_lt hlen

/-- The text with the blanks is accepted, but for a closing brace. -/
theorem reads_spaced (hE : E.Skips blank ident fqdn value) (hlen : (a ++ b).length < npos)
    (hreads : Reads E (a ++ b) (.returns 0) conf) (h : Token E a b y) (hv : Spaced blank a b bl v y)
    (hbrace : b.head? = some 125 → Blanks blank (lastLine a)) :
    Reads E (a ++ (bl ++ b)) (.returns 0) conf := by
  obtain ⟨z, hz, hend⟩ := Lib.returns_iff.mp hreads
  rw [← hv.head] at hbrace
  obtain ⟨z', hz', hbeside⟩ := exists_beside (y := z) hE hlen hreads hv.gap hv.without hv.spaced
    (fun x w hx hturn _ _ hs hrest => by
      have hunique : Relator.RightUnique fun a b => turn E a = .inl b :=
        fun a b c hab hac => Sum.inl.inj (hab.symm.trans hac)
      rcases Relation.ReflTransGen.total_of_right_unique hunique h.comes hx with hyx | hxy
      · exact .inr ⟨past_from hE hlen hreads h hv.place hyx hs hrest, hbrace⟩
      · rcases hxy.cases_head with rfl | ⟨w', hw', hwy⟩
        · exact .inr ⟨past_from hE hlen hreads h hv.place .refl hs hrest, hbrace⟩
        · exact keeps_before hE hlen hreads h hv.place hx hw' hwy hs hrest) hz .refl
  exact Lib.returns_iff.mpr ⟨z', hz', hbeside.ends hv.gap hend⟩

/-- Where the text with the blanks is accepted they are not in front of a closing brace, or
the line is blank before it. -/
theorem blank_of_reads (hE : E.Skips blank ident fqdn value) (hlen : (a ++ b).length < npos)
    (hreads : Reads E (a ++ b) (.returns 0) conf) (h : Token E a b y) (hv : Spaced blank a b bl v y)
    (hreads' : Reads E (a ++ (bl ++ b)) (.returns 0) conf) (hbrace : b.head? = some 125) :
    Blanks blank (lastLine a) := by
  by_contra hu
  obtain ⟨y', hy', hbeside⟩ := exists_beside (y := y) hE hlen hreads hv.gap hv.without hv.spaced
    (fun x w hx hturn hwy _ hs hrest =>
      keeps_before hE hlen hreads h hv.place hx hturn hwy hs hrest) h.comes .refl
  -- the reader is at the brace
  have hhead : v.head? = some 125 := hv.head.trans hbrace
  have hplace : E.seekspace y.s y.p = (lastLine a).length := (hE.seekspace _ _).trans hv.place
  have hc : y.s[E.seekspace y.s y.p]? = some 125 := by
    rw [hplace, hv.line, getElem?_head, hhead]
  obtain ⟨horend, hp⟩ := tagorend_of_brace hE hreads h.comes h.inLine h.state h.found hc
  rw [hplace] at hp
  have hin := h.inLine
  generalize hl : y.rest = l at hbeside
  cases hbeside with
  | before x s ls =>
    have hlen := congrArg List.length hl
    rw [List.length_append, List.length_cons] at hlen
    omega
  | behind _ hlt => exact absurd hl (fun heq => absurd (heq ▸ hlt) (Nat.lt_irrefl _))
  | on r conf' p p' hshift =>
    have hin' : (⟨⟨r, conf', p'⟩, lastLine a ++ (bl ++ v), l⟩ : Reading).InLine :=
      (hshift.onLine_iff hv.gap).mp hin
    cases hshift with
    | late _ hp' hlevel hblank => exact hu (hblank horend hp.symm)
    | early =>
      dsimp only at hp
      subst hp
      -- and so is the other, but blanks are before it
      obtain ⟨d, t, rfl, hd⟩ := hv.gap.token
      have hskip : Blanks blank bl := fun c hc => (hE.blank_of (hv.gap.blanks c hc)).1
      have hseek : E.seekspace (lastLine a ++ (bl ++ d :: t)) (lastLine a).length
          = (lastLine a ++ bl).length := by
        rw [hE.seekspace]
        exact seek_at (lastLine a) hskip hd t
      have hlen' := hv.gap.short
      rw [← List.append_assoc, List.length_append] at hlen'
      obtain ⟨-, hp'⟩ := tagorend_of_brace hE hreads' hy' hin' (by rw [horend]; exact nofun)
        (by rw [hseek]; omega) (by rw [hseek, ← List.append_assoc, getElem?_head, hhead])
      have hpos := List.length_pos_iff.mpr hv.gap.ne_nil
      rw [hseek, List.length_append] at hp'
      dsimp only at hp'
      omega

/-- **Blanks in front of a token** change nothing, but in front of a closing brace: there
they are accepted where the line is blank before it. -/
theorem spaced_reads_iff (hE : E.Skips blank ident fqdn value)
    (hlen : (a ++ (bl ++ b)).length < npos) (hreads : Reads E (a ++ b) (.returns 0) conf)
    (hbl : ∀ c ∈ bl, c = 32 ∨ c = 9) (h : Token E a b y) :
    Reads E (a ++ (bl ++ b)) (.returns 0) conf ↔
      (bl ≠ [] → b.head? = some 125 → Blanks blank (lastLine a)) := by
  by_cases hne : bl = []
  · subst hne
    exact ⟨fun _ hne => absurd rfl hne, fun _ => hreads⟩
  · obtain ⟨v, hv⟩ := h.spaced hE hlen hbl hne
    have hlen' : (a ++ b).length < npos := by
      simp only [List.length_append] at hlen ⊢
      omega
    exact ⟨fun hreads' _ hbrace => blank_of_reads hE hlen' hreads h hv hreads' hbrace,
      fun hbrace => reads_spaced hE hlen' hreads h hv (hbrace hne)⟩

/-! ## A closing brace -/

theorem sampleEnv_skips (fns : List Bytes) : (sampleEnv fns).Skips isBlank isIdent isFqdn
    fun digits => digits.foldl (fun n c => n * 10 + (c.toNat - 48 : Nat)) 0 where
  toDescribed := sampleEnv_described fns
  number _ _ := rfl
  number_nil := rfl
  tab := by decide
  closing := by decide

theorem exists_token {n : Nat} (h : (Lib.after (turn E) n (begin (a ++ b))).any (fun y =>
    decide (y.InLine ∧ y.r.state ≠ .seekendparam ∧ E.seekspace y.s y.p ≠ npos ∧
      lines b = y.s.drop (E.seekspace y.s y.p) :: y.rest)) = true) : ∃ y, Token E a b y := by
  obtain ⟨y, hafter, hat⟩ := (Option.any_eq_true _ _).mp h
  obtain ⟨hin, hst, hne, hhere⟩ := of_decide_eq_true hat
  exact ⟨y, .of_after hafter, hin, hst, hne, hhere⟩

/-- A collect up to its last tag. -/
def upToEnd : Bytes := str "host h \x7b\ncollect c k (10s x 5D)\na=f"

/-- On a line of its own the closing brace may stand behind blanks. -/
theorem spaced_reads_iff_own_line :
    ∃ conf, Reads (sampleEnv [str "f"]) (upToEnd ++ str "\n" ++ str "\x7d\n") (.returns 0) conf ∧
      Reads (sampleEnv [str "f"]) (upToEnd ++ str "\n" ++ (str "\t " ++ str "\x7d\n"))
        (.returns 0) conf := by
  have hreads : ∃ conf, Reads (sampleEnv [str "f"]) (upToEnd ++ str "\n" ++ str "\x7d\n")
      (.returns 0) conf := exists_reads_of_loop (n := 40) (by decide +kernel)
  have htoken : ∃ y, Token (sampleEnv [str "f"]) (upToEnd ++ str "\n") (str "\x7d\n") y :=
    exists_token (n := 19) (by decide +kernel)
  obtain ⟨conf, hreads⟩ := hreads
  obtain ⟨y, htoken⟩ := htoken
  exact ⟨conf, hreads, (spaced_reads_iff (sampleEnv_skips _) (by decide) hreads
    (forall_mem_of_all (by decide)) htoken).mpr fun _ _ => by decide⟩

/-- Behind a tag it may not. -/
theorem blank_before_brace_fails :
    ∃ a b conf y, (sampleEnv [str "f"]).Skips isBlank isIdent isFqdn
        (fun digits => digits.foldl (fun n c => n * 10 + (c.toNat - 48 : Nat)) 0) ∧
      Reads (sampleEnv [str "f"]) (a ++ b) (.returns 0) conf ∧ Token (sampleEnv [str "f"]) a b y ∧
      ¬ ∃ conf', Reads (sampleEnv [str "f"]) (a ++ (str " " ++ b)) (.returns 0) conf' := by
  have hreads : ∃ conf, Reads (sampleEnv [str "f"]) (upToEnd ++ str "\x7d\n") (.returns 0) conf :=
    exists_reads_of_loop (n := 40) (by decide +kernel)
  have hreads' : ∃ conf, Reads (sampleEnv [str "f"]) (upToEnd ++ (str " " ++ str "\x7d\n"))
      (.returns (-1)) conf := exists_reads_of_loop (n := 40) (by decide +kernel)
  have htoken : ∃ y, Token (sampleEnv [str "f"]) upToEnd (str "\x7d\n") y :=
    exists_token (n := 18) (by decide +kernel)
  obtain ⟨conf, hreads⟩ := hreads
  obtain ⟨conf', hreads'⟩ := hreads'
  obtain ⟨y, htoken⟩ := htoken
  refine ⟨_, _, conf, y, sampleEnv_skips _, hreads, htoken, fun ⟨conf'', h⟩ => ?_⟩
  exact absurd (Stop.returns.inj (congrArg Prod.fst (h.unique hreads'))) (by decide)

end Qigong.Conf
