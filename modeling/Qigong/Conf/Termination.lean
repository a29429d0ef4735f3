import Mathlib.Data.Finset.Card
import Mathlib.Data.Finset.Prod
import Mathlib.Data.Prod.Lex
import Qigong.Conf.Steps

/-!
# When the reader ends

Behind the parameters of a measure function the reader goes on at the first closing
parenthesis of the *line*. When that one stands before the parameters, the reader is set
back, and it comes to the same parameters again if the line reads on to them from there
(`Stuck`). This is the only way the loops do not end: `readconf` returns exactly where no
position it comes to is such a one, and no set it closes has intervals that cannot be
divided (`readconf_returns_iff`).

The measure of the loops: the lines left, the names that no set has yet, whether the line
can lead to parameters again (`Settled`), and what is left of the line.
-/

namespace Qigong.Conf

/-! ## What is relied on -/

/-- A position of a line the inner loop goes on at. -/
def OnLine (s : Bytes) (p : Nat) : Prop := p ≠ npos ∧ p < s.length

/-- A scan from `p` may leave the position at `q`. -/
def Onward (s : Bytes) (p q : Nat) : Prop := q = npos ∨ p ≤ q ∧ q < s.length

/-- What is relied on in the scanners: none goes back, at the end of the string each gives
`npos`, and a word that is read is left behind. -/
structure ConfScanners.Advances (S : ConfScanners) : Prop where
  seekspace : ∀ s p, Onward s p (S.seekspace s p)
  getidentifier : ∀ s p, Onward s p (S.getidentifier s p).2
  getinteger : ∀ s p, Onward s p (S.getinteger s p).2
  getfqdn : ∀ s p, Onward s p (S.getfqdn s p).2
  identifier : ∀ s p, (S.getidentifier s p).1 ≠ [] →
    (S.getidentifier s p).2 = npos ∨ p < (S.getidentifier s p).2
  fqdn : ∀ s p, (S.getfqdn s p).1 ≠ [] → (S.getfqdn s p).2 = npos ∨ p < (S.getfqdn s p).2

variable {E : ConfEnv} {s : Bytes} {x x' : Cursor} {y y' : Reading}

/-! ## The line reads on to parameters -/

/-- From a position of the line, looking for this, the reader reads tags and their
functions up to an opened parenthesis with something behind it, and closes no set. -/
inductive Reopens (E : ConfEnv) (s : Bytes) : RCState → Nat → Prop where
  | endparam {p : Nat} (hp : OnLine s p) : Reopens E s .seekendparam p
  | tagorend {p : Nat} (hp : OnLine s p) (hc : s[p]? ≠ some 125)
      (h : Reopens E s .seektagname p) : Reopens E s .seektagorend p
  | tagname {p : Nat} (hp : OnLine s p) (hn : (E.getidentifier s p).1 ≠ [])
      (hc : (E.getidentifier s p).1 ≠ str "collect")
      (h : Reopens E s .seekequal (E.getidentifier s p).2) : Reopens E s .seektagname p
  | equal {p : Nat} (hp : OnLine s p) (hq : E.seekspace s p ≠ npos)
      (hc : s[E.seekspace s p]? = some 61)
      (h : Reopens E s .seekcollectfn (E.seekspace s p + 1)) : Reopens E s .seekequal p
  | fnparam {p : Nat} (hp : OnLine s p) (hn : (E.getidentifier s p).1 ≠ [])
      (hk : E.known (E.getidentifier s p).1 = true)
      (hc : (E.getidentifier s p).2 ≠ npos ∧ s[(E.getidentifier s p).2]? = some 40)
      (h : Reopens E s .seekendparam ((E.getidentifier s p).2 + 1)) : Reopens E s .seekcollectfn p
  | fn {p : Nat} (hp : OnLine s p) (hn : (E.getidentifier s p).1 ≠ [])
      (hk : E.known (E.getidentifier s p).1 = true)
      (hc : ¬ ((E.getidentifier s p).2 ≠ npos ∧ s[(E.getidentifier s p).2]? = some 40))
      (h : Reopens E s .seektagorend (E.getidentifier s p).2) : Reopens E s .seekcollectfn p

/-- The reader is at parameters, the first closing parenthesis of the line stands before
them, and from there the line reads on to parameters. -/
def Stuck (E : ConfEnv) (y : Reading) : Prop :=
  y.InLine ∧ y.r.state = .seekendparam ∧ y.r.pcurcs.isSome = true ∧
    ∃ q, findFrom 41 y.s 0 = some q ∧ q < y.p ∧ Reopens E y.s .seektagorend (q + 1)

/-- The reader closes a set, and a division of its intervals has no result. -/
def Traps (E : ConfEnv) (y : Reading) : Prop :=
  y.InLine ∧ (y.r.state = .seektagorend ∧ y.s[y.p]? = some 125 ∨
      y.r.state = .seektagname ∧ (E.getidentifier y.s y.p).1 = str "collect") ∧
    ∃ cs, y.r.pcurcs = some cs ∧ cs.validate_freqs E.beyond = none

theorem Reopens.onLine {st : RCState} {p : Nat} (h : Reopens E s st p) : OnLine s p := by
  cases h <;> assumption

/-! ## The reader that is stuck goes round -/

/-- On a line, a turn is one of `readstate`. -/
theorem turn_of_readstate (hin : y.InLine) (h : readstate E y.s y.toCursor = .ok x) :
    turn E y = .inl { y with toCursor := x } := by
  rw [turn, if_pos hin, h]

/-- A set is being read at parameters of this line, at or behind a position. -/
structure AtParams (s : Bytes) (p : Nat) (y : Reading) : Prop where
  line : y.s = s
  inLine : OnLine s y.p
  state : y.r.state = .seekendparam
  pcurcs : y.r.pcurcs.isSome = true
  behind : p ≤ y.p

/-- One turn, and what is reached behind it. -/
theorem reaches_of_turn {p q : Nat} (hline : y.s = s) (hin : OnLine s y.p)
    (hturn : readstate E s y.toCursor = .ok x) (hle : p ≤ q)
    (h : ∃ z, Lib.Turns (turn E) { y with toCursor := x } z ∧ AtParams s q z) :
    ∃ z, Lib.Turns (turn E) y z ∧ AtParams s p z := by
  subst hline
  obtain ⟨z, hz, hat⟩ := h
  exact ⟨z, .head (turn_of_readstate hin hturn) hz, { hat with behind := hle.trans hat.behind }⟩

/-- The reader comes to the parameters the line reads on to. -/
theorem Reopens.reaches (hS : E.Advances) {st : RCState} {p : Nat} (h : Reopens E s st p) :
    ∀ y : Reading, y.s = s → y.r.state = st → y.p = p → y.r.pcurcs.isSome = true →
      ∃ z, Lib.Turns (turn E) y z ∧ AtParams s p z := by
  -- each way to read on is a turn of the reader
  induction h with
  | endparam hp =>
    rintro y rfl hst rfl hcs
    exact ⟨y, .refl, rfl, hp, hst, hcs, le_rfl⟩
  | tagorend hp hc h ih =>
    rintro y rfl hst rfl hcs
    refine reaches_of_turn (x := { y.toCursor with r := { y.r with state := .seektagname } })
      rfl hp ?_ le_rfl (ih _ rfl rfl rfl hcs)
    simp only [readstate, hst, if_neg hc]
  | tagname hp hn hc h ih =>
    rintro y rfl hst rfl hcs
    refine reaches_of_turn rfl hp (x := { y.toCursor with
        r := { y.r with tagmp_tagname := (E.getidentifier y.s y.p).1, state := .seekequal }
        p := (E.getidentifier y.s y.p).2 }) ?_ ?_ (ih _ rfl rfl rfl hcs)
    · simp only [readstate, hst, readword, if_neg hn, if_neg hc]
    · exact ((hS.getidentifier y.s y.p).resolve_left h.onLine.1).1
  | equal hp hq hc h ih =>
    rintro y rfl hst rfl hcs
    refine reaches_of_turn rfl hp (x := { y.toCursor with
        r := { y.r with state := .seekcollectfn }
        p := E.seekspace y.s y.p + 1 }) ?_ ?_ (ih _ rfl rfl rfl hcs)
    · simp only [readstate, hst, expect, if_neg hq, if_pos hc]
    · exact Nat.le_succ_of_le ((hS.seekspace y.s y.p).resolve_left hq).1
  | fnparam hp hn hk hc h ih =>
    rintro y rfl hst rfl hcs
    refine reaches_of_turn rfl hp (x := { y.toCursor with
        r := { y.r with tagmp_fn := (E.getidentifier y.s y.p).1, state := .seekendparam }
        p := (E.getidentifier y.s y.p).2 + 1 }) ?_ ?_ (ih _ rfl rfl rfl hcs)
    · simp only [readstate, hst, readword, if_neg hn, if_pos hk, if_pos hc]
    · exact Nat.le_succ_of_le ((hS.getidentifier y.s y.p).resolve_left hc.1).1
  | fn hp hn hk hc h ih =>
    rintro y rfl hst rfl hcs
    obtain ⟨cs, hcs⟩ := Option.isSome_iff_exists.mp hcs
    refine reaches_of_turn rfl hp (x := { y.toCursor with
        r := { y.r with
          tagmp_fn := (E.getidentifier y.s y.p).1
          tagmp_params := []
          pcurcs := some (cs.push_point ⟨y.r.tagmp_tagname, (E.getidentifier y.s y.p).1, []⟩)
          state := .seektagorend }
        p := (E.getidentifier y.s y.p).2 }) ?_ ?_ (ih _ rfl rfl rfl rfl)
    · simp only [readstate, hst, readword, if_neg hn, if_pos hk, if_neg hc, endpoint,
        ReadConf.push_point, hcs, Option.map_some]
    · exact ((hS.getidentifier y.s y.p).resolve_left h.onLine.1).1

/-- **The reader that is stuck comes to be stuck again.** -/
theorem Stuck.again (hS : E.Advances) (h : Stuck E y) :
    ∃ z w, turn E y = .inl z ∧ Lib.Turns (turn E) z w ∧ Stuck E w := by
  obtain ⟨hin, hst, hcs, q, hq, hlt, hre⟩ := h
  obtain ⟨cs, hcs⟩ := Option.isSome_iff_exists.mp hcs
  set params := (y.s.drop y.p).take ((findFrom 41 y.s y.p).getD npos - y.p) with hparams
  set z : Reading := { y with
    r := { y.r with
      tagmp_params := params
      pcurcs := some (cs.push_point ⟨y.r.tagmp_tagname, y.r.tagmp_fn, params⟩)
      state := .seektagorend }
    p := q + 1 } with hz
  have hturn : turn E y = .inl z := by
    refine turn_of_readstate hin ?_
    simp only [readstate, hst, hq, endpoint, ReadConf.push_point, hcs, Option.map_some, ← hparams]
  obtain ⟨w, hw, hat⟩ := hre.reaches hS z rfl rfl rfl rfl
  refine ⟨z, w, hturn, hw, ?_⟩
  have hline := hat.line
  refine ⟨?_, hat.state, hat.pcurcs, q, hline ▸ hq, hat.behind, hline ▸ hre⟩
  show OnLine w.s w.p
  rw [hline]
  exact hat.inLine

/-! ## The line leads to no parameters -/

/-- The states between two tags. -/
def inTag : RCState → Bool
  | .seektagorend | .seektagname | .seekequal | .seekcollectfn | .seekendparam => true
  | _ => false

/-- The line leads to no parameters before a set is closed. -/
structure Settled (E : ConfEnv) (s : Bytes) (x : Cursor) : Prop where
  tag : inTag x.r.state = true
  closed : ¬ Reopens E s x.r.state x.p

/-- A set put in makes another configuration. -/
theorem push_back_ne {conf conf' : CollectionsConf} {cs : CollectionSet}
    (h : conf.push_back cs = some conf') : conf' ≠ conf := by
  rintro rfl
  obtain ⟨hnone, hins⟩ := CollectionsConf.push_back_eq_some.mp h
  have hself := Lib.OrdMap.find?_insert_self conf' cs.fullkey cs
  rw [← hins, hnone] at hself
  cases hself

/-- It stays so until a set is closed. -/
theorem Settled.step (h : Settled E s x) (hstep : Step E s x x') (hin : OnLine s x.p)
    (hconf : x'.conf = x.conf) : Settled E s x' := by
  have hclosed := h.closed
  cases hstep with
  | lineEnds => exact ⟨h.tag, fun hr => hr.onLine.1 rfl⟩
  | tagnext hst hc => exact ⟨rfl, fun hr => hclosed (hst ▸ .tagorend hin hc hr)⟩
  | tagname n p hst hi hn hc =>
    obtain ⟨rfl, rfl⟩ := Prod.mk.inj hi
    exact ⟨rfl, fun hr => hclosed (hst ▸ .tagname hin hn hc hr)⟩
  | equal hst hc hp => exact ⟨rfl, fun hr => hclosed (hst ▸ .equal hin hp hc hr)⟩
  | parambegin n p hst hi hn hk hp hc =>
    obtain ⟨rfl, rfl⟩ := Prod.mk.inj hi
    exact ⟨rfl, fun hr => hclosed (hst ▸ .fnparam hin hn hk ⟨hp, hc⟩ hr)⟩
  | fn n p cs hst hi hn hk hc =>
    obtain ⟨rfl, rfl⟩ := Prod.mk.inj hi
    exact ⟨rfl, fun hr => hclosed (hst ▸ .fn hin hn hk hc hr)⟩
  -- parameters are where the line would be read on from
  | param q params cs hst => exact absurd (hst ▸ .endparam hin) hclosed
  | close cs cs' conf _ _ _ _ hpush => exact absurd hconf (push_back_ne hpush)
  | closeCollect p cs cs' conf _ _ _ _ hpush => exact absurd hconf (push_back_ne hpush)
  | host p hst | serverkey p hst | hostname n p hst | serverkeyname n p hst | hostbegin hst
  | collect p hst | collectname n p hst | connection fqdn q p curcs_port port hst
  | freqbegin hst | nofreq hst | interval v hst | multiplier hst | duration v hst
  | freqend cs hst =>
    have htag := h.tag
    rw [hst] at htag
    cases htag

/-! ## What is left of the line -/

/-- What is left of the line; two states go on to another without leaving anything. -/
def ahead (s : Bytes) (x : Cursor) : Nat :=
  2 * (if x.p = npos then 0 else s.length - x.p) +
    if x.r.state = .seektagorend ∨ x.r.state = .seekcolentry then 1 else 0

/-- A turn that reads on leaves less ahead. -/
theorem ahead_lt_of_lt (hin : OnLine s x.p) (h : x'.p = npos ∨ x.p < x'.p) :
    ahead s x' < ahead s x := by
  have hle : ∀ st : RCState, (if st = .seektagorend ∨ st = .seekcolentry then 1 else 0) ≤ 1 := by
    intro st
    split <;> decide
  have hx' := hle x'.r.state
  unfold ahead
  rw [if_neg hin.1]
  have hlt := hin.2
  split <;> omega

/-- One that stays leaves less ahead where it goes from a state that may end something to the next
tag. -/
theorem ahead_lt_of_le (hin : OnLine s x.p) (hle : x'.p = npos ∨ x.p ≤ x'.p)
    (hst : x.r.state = .seektagorend ∨ x.r.state = .seekcolentry)
    (hst' : x'.r.state = .seektagname) : ahead s x' < ahead s x := by
  rcases hle with hp | hle
  · exact ahead_lt_of_lt hin (.inl hp)
  · have hlt := hin.2
    unfold ahead
    rw [if_neg hin.1, if_pos hst, hst']
    simp only [reduceCtorEq, or_self, ↓reduceIte]
    split <;> omega

/-- **A turn that is not set back leaves less of the line.** -/
theorem Step.ahead_lt (hS : E.Advances) (h : Step E s x x') (hin : OnLine s x.p)
    (hback : ∀ q, x.r.state = .seekendparam → findFrom 41 s 0 = some q → x.p ≤ q) :
    ahead s x' < ahead s x := by
  have hword : ∀ {n : Bytes} {p : Nat}, E.getidentifier s x.p = (n, p) → n ≠ [] →
      p = npos ∨ x.p < p := by
    intro n p hi hn
    have hne := hS.identifier s x.p
    rw [hi] at hne
    exact hne hn
  have hspace : E.seekspace s x.p ≠ npos → x.p ≤ E.seekspace s x.p := fun hp =>
    ((hS.seekspace s x.p).resolve_left hp).1
  have hint : (E.getinteger s x.p).2 ≠ npos → x.p ≤ (E.getinteger s x.p).2 := fun hp =>
    ((hS.getinteger s x.p).resolve_left hp).1
  -- a word, an integer or a character is consumed, or the state goes on
  cases h with
  | lineEnds => exact ahead_lt_of_lt hin (.inl rfl)
  | host p _ hi | serverkey p _ hi | collect p _ hi | closeCollect p _ _ _ _ hi =>
    exact ahead_lt_of_lt hin (hword hi (by decide))
  | hostname n p _ hi hn | serverkeyname n p _ hi hn | collectname n p _ hi hn
  | tagname n p _ hi hn | fn n p _ _ hi hn => exact ahead_lt_of_lt hin (hword hi hn)
  | parambegin n p _ hi hn _ hp =>
    exact ahead_lt_of_lt hin (.inr (Nat.lt_succ_of_lt ((hword hi hn).resolve_left hp)))
  | hostbegin _ _ hp | freqbegin _ hp | multiplier _ hp | freqend _ _ hp | equal _ _ hp =>
    exact ahead_lt_of_lt hin (.inr (Nat.lt_succ_of_le (hspace hp)))
  | interval _ _ hp | duration _ _ hp =>
    exact ahead_lt_of_lt hin (.inr (Nat.lt_succ_of_le (hint hp)))
  | nofreq hst hp => exact ahead_lt_of_le hin (.inr (hspace hp)) (.inr hst) rfl
  | tagnext hst => exact ahead_lt_of_le hin (.inr le_rfl) (.inl hst) rfl
  | close => exact ahead_lt_of_lt hin (.inr (Nat.lt_succ_self _))
  | param q _ _ hst hq => exact ahead_lt_of_lt hin (.inr (Nat.lt_succ_of_le (hback q hst hq)))
  | connection fqdn q p _ _ _ hi hn hp =>
    have hq : q = npos ∨ x.p < q := by
      have hne := hS.fqdn s x.p
      rw [hi] at hne
      exact hne hn
    refine ahead_lt_of_lt hin ?_
    rcases hp with rfl | ⟨hqn, -, rfl⟩
    · exact hq
    · have hlt := hq.resolve_left hqn
      exact (hS.getinteger s (q + 1)).imp_right fun hle =>
        hlt.trans_le (Nat.le_of_succ_le hle.1)

/-! ## The names that are left -/

/-- The identifiers of a text, and the empty one. -/
def words (E : ConfEnv) (ls : List Bytes) : List Bytes :=
  [] :: ls.flatMap fun s => (List.range s.length).map fun p => (E.getidentifier s p).1

/-- The full keys a set can be given. -/
def names (E : ConfEnv) (ls : List Bytes) : Finset Bytes :=
  ((words E ls).toFinset ×ˢ (words E ls).toFinset ×ˢ (words E ls).toFinset).image fun w =>
    CollectionSet.fullkeyOf w.1 (CollectionSet.keyOf w.2.1 w.2.2)

/-- The names that no set of the configuration has. -/
def free (E : ConfEnv) (ls : List Bytes) (conf : CollectionsConf) : Finset Bytes :=
  (names E ls).filter fun k => conf.find? k = none

/-- The reader has its names from the text. -/
structure Named (E : ConfEnv) (ls : List Bytes) (r : ReadConf) : Prop where
  serverkey : r.serverkey ∈ words E ls
  metaname : r.metaname ∈ words E ls
  curcs_name : r.curcs_name ∈ words E ls
  pcurcs : ∀ cs, r.pcurcs = some cs → cs.fullkey ∈ names E ls

variable {ls : List Bytes}

theorem nil_mem_words : ([] : Bytes) ∈ words E ls := List.mem_cons_self

/-- What is read as an identifier is a word of the text. -/
theorem identifier_mem_words (hs : s ∈ ls) {p : Nat} (hin : OnLine s p) :
    (E.getidentifier s p).1 ∈ words E ls :=
  List.mem_cons_of_mem _ (List.mem_flatMap.mpr
    ⟨s, hs, List.mem_map.mpr ⟨p, List.mem_range.mpr hin.2, rfl⟩⟩)

/-- The key of a set is made of words of the text. -/
theorem mem_names {serverkey metaname name : Bytes} (hs : serverkey ∈ words E ls)
    (hm : metaname ∈ words E ls) (hn : name ∈ words E ls) :
    CollectionSet.fullkeyOf serverkey (CollectionSet.keyOf metaname name) ∈ names E ls := by
  refine Finset.mem_image.mpr ⟨(serverkey, metaname, name), ?_, rfl⟩
  simp only [Finset.mem_product, List.mem_toFinset]
  exact ⟨hs, hm, hn⟩

/-- A turn takes the names it holds from the line. -/
theorem Named.step (h : Named E ls x.r) (hstep : Step E s x x') (hs : s ∈ ls)
    (hin : OnLine s x.p) : Named E ls x'.r := by
  have hword : ∀ {n : Bytes} {p : Nat}, E.getidentifier s x.p = (n, p) → n ∈ words E ls := by
    intro n p hi
    have hmem := identifier_mem_words (E := E) hs hin
    rwa [hi] at hmem
  cases hstep with
  | lineEnds | host | serverkey | hostbegin | collect | freqbegin | nofreq | interval | multiplier
  | duration | tagnext | tagname | equal | parambegin => exact { h with }
  | hostname n p _ hi => exact { h with metaname := hword hi }
  | serverkeyname n p _ hi => exact { h with serverkey := hword hi }
  | collectname n p _ hi => exact { h with curcs_name := hword hi }
  | connection =>
    refine { h with pcurcs := fun cs hcs => ?_ }
    obtain rfl := Option.some.inj hcs
    exact mem_names h.serverkey h.metaname h.curcs_name
  | freqend cs _ _ hcs | fn _ _ cs _ _ _ _ _ hcs | param _ _ cs _ _ _ hcs =>
    refine { h with pcurcs := fun cs' hcs' => ?_ }
    obtain rfl := Option.some.inj hcs'
    exact h.pcurcs cs hcs
  | close => exact { h with metaname := nil_mem_words, pcurcs := fun _ hcs => (nomatch hcs) }
  | closeCollect => exact { h with pcurcs := fun _ hcs => (nomatch hcs) }

/-- A set that is put in the configuration takes a name that was free. -/
theorem free_push_back {conf conf' : CollectionsConf} {cs : CollectionSet}
    (hcs : cs.fullkey ∈ names E ls) (h : conf.push_back cs = some conf') :
    (free E ls conf').card < (free E ls conf).card := by
  obtain ⟨hnone, rfl⟩ := CollectionsConf.push_back_eq_some.mp h
  refine Finset.card_lt_card (Finset.ssubset_iff_of_subset ?_ |>.mpr ⟨cs.fullkey, ?_, ?_⟩)
  · intro k hk
    obtain ⟨hk, hfree⟩ := Finset.mem_filter.mp hk
    refine Finset.mem_filter.mpr ⟨hk, ?_⟩
    rw [Lib.OrdMap.find?_insert] at hfree
    split at hfree
    case isTrue => cases hfree
    case isFalse => exact hfree
  · exact Finset.mem_filter.mpr ⟨hcs, hnone⟩
  · intro hmem
    have hself := (Finset.mem_filter.mp hmem).2
    rw [Lib.OrdMap.find?_insert_self] at hself
    cases hself

/-- The configuration grows where a set is closed, and only there. -/
theorem Step.conf (h : Step E s x x') (hn : Named E ls x.r) :
    x'.conf = x.conf ∨ (free E ls x'.conf).card < (free E ls x.conf).card := by
  cases h with
  | close cs cs' conf _ _ hcs hv hpush | closeCollect p cs cs' conf _ _ hcs hv hpush =>
    have hkey := CollectionSet.fullkey_of_validate_freqs hv
    exact .inr (free_push_back (hkey ▸ hn.pcurcs cs hcs) hpush)
  | _ => exact .inl rfl

/-! ## What throws -/

/-- **A turn throws where it closes a set whose intervals cannot be divided**, and only
there. -/
theorem traps_iff (hS : E.Advances) :
    Traps E y ↔ ∃ e, turn E y = .inr (.throws e, y.conf) := by
  constructor
  · rintro ⟨hin, hst, cs, hcs, hv⟩
    refine ⟨.overflow, ?_⟩
    have hclose : ∀ p next, close E y.toCursor p next = .error (.throws .overflow) := by
      intro p next
      simp only [close, hcs, hv]
    have hstate : readstate E y.s y.toCursor = .error (.throws .overflow) := by
      rcases hst with ⟨hst, hc⟩ | ⟨hst, hi⟩
      · simp only [readstate, hst, if_pos hc, hclose]
      · have hne : (E.getidentifier y.s y.p).1 ≠ [] := by rw [hi]; decide
        simp only [readstate, hst, readword, if_neg hne, if_pos hi, hclose]
    rw [turn, if_pos hin, hstate]
  · rintro ⟨e, h⟩
    obtain ⟨-, ⟨hin, hstop⟩ | ⟨-, -, he⟩⟩ := turn_eq_inr h
    case inr => cases he
    cases hstop with
    | beyond hp hlt =>
      exact absurd ((hS.getinteger y.s y.p).resolve_left hp).2 (Nat.not_lt.mpr hlt.le)
    | traps cs hst hcs hv => exact ⟨hin, hst, cs, hcs, hv⟩

/-! ## The loops end -/

open Classical in
/-- The measure of the loops. -/
noncomputable def measure (E : ConfEnv) (ls : List Bytes) (y : Reading) : ℕ ×ₗ ℕ ×ₗ ℕ ×ₗ ℕ :=
  toLex (y.rest.length, toLex ((free E ls y.conf).card,
    toLex (if Settled E y.s y.toCursor then 0 else 1, ahead y.s y.toCursor)))

/-- What the loops keep: the lines are those of the text, and so are the names. -/
structure Within (E : ConfEnv) (ls : List Bytes) (y : Reading) : Prop where
  line : y.s = [] ∨ y.s ∈ ls
  rest : y.rest ⊆ ls
  named : Named E ls y.r

theorem Within.mem_of_inLine (h : Within E ls y) (hin : y.InLine) : y.s ∈ ls := by
  refine h.line.resolve_left fun hnil => ?_
  have hlt := hin.2
  rw [hnil] at hlt
  exact Nat.not_lt_zero _ hlt

theorem within_begin (text : Bytes) : Within E (lines text) (begin text) where
  line := .inl rfl
  rest := List.Subset.refl _
  named := ⟨nil_mem_words, nil_mem_words, nil_mem_words, fun _ hcs => (nomatch hcs)⟩

/-- The loops stay within the text. -/
theorem Within.turn (h : Within E ls y) (hturn : turn E y = .inl y') : Within E ls y' := by
  rcases turn_eq_inl hturn with ⟨hin, hstep, hs, hrest⟩ | ⟨-, s, rest, hrest, rfl⟩
  · exact ⟨hs ▸ h.line, hrest ▸ h.rest, h.named.step hstep (h.mem_of_inLine hin) hin⟩
  · have hmem := h.rest
    rw [hrest] at hmem
    exact ⟨.inr (hmem List.mem_cons_self), List.subset_of_cons_subset hmem, h.named⟩

/-- **A turn of the loops takes the measure down, where the reader is not stuck.** -/
theorem measure_lt (hS : E.Advances) (h : Within E ls y) (hstuck : ¬ Stuck E y)
    (hturn : turn E y = .inl y') : measure E ls y' < measure E ls y := by
  unfold measure
  rw [Prod.Lex.toLex_lt_toLex]
  rcases turn_eq_inl hturn with ⟨hin, hstep, hs, hrest⟩ | ⟨-, s, rest, hrest, rfl⟩
  case inr => exact .inl (by rw [hrest]; exact Nat.lt_succ_self _)
  refine .inr ⟨congrArg List.length hrest, ?_⟩
  rw [Prod.Lex.toLex_lt_toLex, hs]
  rcases hstep.conf h.named with hconf | hlt
  case inr => exact .inl hlt
  refine .inr ⟨by rw [hconf], ?_⟩
  rw [Prod.Lex.toLex_lt_toLex]
  by_cases hback : ∀ q, y.r.state = .seekendparam → findFrom 41 y.s 0 = some q → y.p ≤ q
  · -- the position goes on, and a line that leads to no parameters still does not
    have hahead := hstep.ahead_lt hS hin hback
    by_cases hset : Settled E y.s y.toCursor
    · exact .inr ⟨by rw [if_pos hset, if_pos (hset.step hstep hin hconf)], hahead⟩
    · rw [if_neg hset]
      split
      · exact .inl Nat.zero_lt_one
      · exact .inr ⟨rfl, hahead⟩
  · -- the reader is set back, and is not stuck
    push Not at hback
    obtain ⟨q, hst, hq, hlt⟩ := hback
    have hopen : ¬ Settled E y.s y.toCursor := fun hset =>
      hset.closed (hst ▸ .endparam hin)
    obtain ⟨q', cs, hq', hcs, hst', hp'⟩ := hstep.of_endparam hst
    obtain rfl := Option.some.inj (hq.symm.trans hq')
    have hsome : y.r.pcurcs.isSome = true := by rw [hcs]; rfl
    have hclosed : Settled E y.s y'.toCursor := by
      refine ⟨by rw [hst']; rfl, fun hr => hstuck ⟨hin, hst, hsome, q, hq, hlt, ?_⟩⟩
      rwa [hst', hp'] at hr
    rw [if_neg hopen, if_pos hclosed]
    exact .inl Nat.zero_lt_one

/-- The reader that never is stuck ends. -/
theorem ends (hS : E.Advances) (text : Bytes) (h : ∀ y, Comes E text y → ¬ Stuck E y) :
    ∃ r, Lib.Returns (turn E) (begin text) r := by
  refine Lib.exists_returns (I := fun y => Comes E text y ∧ Within E (lines text) y)
    (measure E (lines text)) ?_ ⟨.refl, within_begin text⟩
  rintro y y' ⟨hcomes, hy⟩ hturn
  exact ⟨⟨hcomes.tail hturn, hy.turn hturn⟩, measure_lt hS hy (h y hcomes) hturn⟩

/-- **When the reader returns.** `readconf` returns, on a text, exactly where it comes
neither to parameters behind which it is set back for ever, nor to the end of a set whose
intervals cannot be divided. -/
theorem readconf_returns_iff (hS : E.Advances) (text : Bytes) :
    (∃ code conf, Reads E text (.returns code) conf) ↔
      ∀ y, Comes E text y → ¬ Stuck E y ∧ ¬ Traps E y := by
  constructor
  · rintro ⟨code, conf, hreads⟩ y hcomes
    have hy := hreads.turns hcomes
    refine ⟨fun hstuck => ?_, fun htraps => ?_⟩
    · exact Lib.not_returns (fun a ha => Stuck.again hS ha) hstuck _ hy
    · obtain ⟨e, he⟩ := (traps_iff hS).mp htraps
      cases hy.unique (.of_inr he)
  · intro h
    obtain ⟨⟨how, conf⟩, hreads⟩ := ends hS text fun y hy => (h y hy).1
    cases how with
    | returns code => exact ⟨code, conf, hreads⟩
    | throws e =>
      obtain ⟨y, hcomes, hturn⟩ := Lib.returns_iff.mp hreads
      obtain ⟨rfl, -⟩ := turn_eq_inr hturn
      exact absurd ((traps_iff hS).mpr ⟨e, hturn⟩) (h y hcomes).2

/-! ## Two texts -/

theorem sampleEnv_advances (fns : List Bytes) : (sampleEnv fns).Advances := by
  have hscan : ∀ (run : UInt8 → Bool) s p, Onward s p (scan isBlank run s p).2 := fun run s p =>
    (scan_progress isBlank run s p).imp_right fun h => ⟨Nat.le_of_add_right_le h.1, h.2⟩
  have hword : ∀ (run : UInt8 → Bool) s p, (scan isBlank run s p).1 ≠ [] →
      (scan isBlank run s p).2 = npos ∨ p < (scan isBlank run s p).2 := fun run s p hne =>
    (scan_progress isBlank run s p).imp_right fun h =>
      Nat.lt_of_lt_of_le (Nat.lt_add_of_pos_right (List.length_pos_iff.mpr hne)) h.1
  refine ⟨fun s p => ?_, hscan isIdent, hscan isDigit, hscan isFqdn, hword isIdent, hword isFqdn⟩
  show Onward s p (seek isBlank s p)
  unfold seek Onward
  dsimp only
  split
  case isTrue => exact .inl rfl
  case isFalse h =>
    have hle := (List.dropWhile_suffix (l := s.drop p) isBlank).length_le
    rw [List.length_drop] at hle
    have hpos := List.length_pos_iff.mpr h
    omega

/-- A run within so many turns. -/
theorem exists_reads_of_loop {text : Bytes} {n : Nat} {how : Stop}
    (h : (Lib.loop (turn E) n (begin text)).any (fun r => r.1 == how) = true) :
    ∃ conf, Reads E text how conf := by
  obtain ⟨⟨how', conf⟩, hloop, hhow⟩ := (Option.any_eq_true _ _).mp h
  obtain rfl : how' = how := beq_iff_eq.mp hhow
  exact ⟨conf, n, hloop⟩

/-- A text that is read to its end. -/
def oneOnALine : Bytes := str "host h \x7b\ncollect c k (10s x 5D)\na=f(x)\nb=f(y)\n\x7d\n"

theorem readconf_returns_iff_oneOnALine :
    (∃ code conf, Reads (sampleEnv [str "f"]) oneOnALine (.returns code) conf) ∧
      ¬ ∃ y, Comes (sampleEnv [str "f"]) oneOnALine y ∧
        (Stuck (sampleEnv [str "f"]) y ∨ Traps (sampleEnv [str "f"]) y) := by
  have hzero : ∃ conf, Reads (sampleEnv [str "f"]) oneOnALine (.returns 0) conf :=
    exists_reads_of_loop (n := 40) (by decide +kernel)
  have hreads : ∃ code conf, Reads (sampleEnv [str "f"]) oneOnALine (.returns code) conf :=
    ⟨0, hzero⟩
  refine ⟨hreads, fun ⟨y, hcomes, hbad⟩ => ?_⟩
  obtain ⟨hstuck, htraps⟩ :=
    (readconf_returns_iff (sampleEnv_advances _) oneOnALine).mp hreads y hcomes
  exact hbad.elim hstuck htraps

/-- Two tags with parameters on a line. -/
def twoOnALine : Bytes := str "host h \x7b\ncollect c k (10s x 5D)\na=f(x) b=f(y)\n\x7d\n"

/-- The reader does not return on two tags with parameters on a line. -/
theorem twoOnALine_endless :
    (sampleEnv [str "f"]).Advances ∧
      ¬ ∃ code conf, Reads (sampleEnv [str "f"]) twoOnALine (.returns code) conf := by
  refine ⟨sampleEnv_advances _, ?_⟩
  -- at the second parameters the reader is stuck
  have hany : (Lib.after (turn (sampleEnv [str "f"])) 23 (begin twoOnALine)).any (fun y =>
      y.s == str "a=f(x) b=f(y)" && y.p == 11 && y.r.state == .seekendparam &&
        y.r.pcurcs.isSome) = true := by decide +kernel
  obtain ⟨y, hy, hat⟩ := (Option.any_eq_true _ _).mp hany
  simp only [Bool.and_eq_true, beq_iff_eq] at hat
  obtain ⟨⟨⟨hs, hp⟩, hst⟩, hcs⟩ := hat
  have hstuck : Stuck (sampleEnv [str "f"]) y := by
    refine ⟨?_, hst, hcs, 5, by rw [hs]; decide, by rw [hp]; decide, ?_⟩
    · show OnLine y.s y.p
      rw [hs, hp]
      exact ⟨by decide, by decide⟩
    · rw [hs]
      exact .tagorend ⟨by decide, by decide⟩ (by decide) (.tagname ⟨by decide, by decide⟩
        (by decide) (by decide) (.equal ⟨by decide, by decide⟩ (by decide) (by decide)
          (.fnparam ⟨by decide, by decide⟩ (by decide) (by decide) (by decide)
            (.endparam ⟨by decide, by decide⟩))))
  rintro ⟨code, conf, hreads⟩
  exact Lib.not_returns (fun a ha => Stuck.again (sampleEnv_advances _) ha) hstuck _
    (hreads.turns (.of_after hy))

end Qigong.Conf
