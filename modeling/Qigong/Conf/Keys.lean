import Qigong.Conf.Steps

/-!
# Whose rrd a set has

The configuration takes a set when no other has its full key; the rrd of the set is named
by its key, which leaves the server key out. So the sets of a configuration that is read
without an error have an rrd each exactly where no two collects of the text have one key
under different server keys (`one_rrd_each_iff`).

What carries this over a whole run: a set is being read exactly in the states behind its
connection (`building`), and what the reader and the configuration hold are the collects
declared so far, no more (`Taken.declared`) and no fewer (`Taken.mono`).
-/

namespace Qigong.Conf

variable {E : ConfEnv} {s : Bytes} {x x' : Cursor} {y y' z : Reading} {text : Bytes}
  {k n : Bytes}

/-! ## The collects of a text -/

/-- What the names of a set are made of. -/
structure Declaration where
  serverkey : Bytes
  metaname : Bytes
  name : Bytes

namespace Declaration

def key (d : Declaration) : Bytes := CollectionSet.keyOf d.metaname d.name

def fullkey (d : Declaration) : Bytes := CollectionSet.fullkeyOf d.serverkey d.key

end Declaration

def ReadConf.declaration (r : ReadConf) : Declaration := ⟨r.serverkey, r.metaname, r.curcs_name⟩

/-- The reader comes to the connection of a collect, and finds one. -/
def Declares (E : ConfEnv) (y : Reading) (d : Declaration) : Prop :=
  y.InLine ∧ y.r.state = .seekconnection ∧ (E.getfqdn y.s y.p).1 ≠ [] ∧ y.r.declaration = d

/-! ## The states with a set -/

/-- The states in which a set is being read. -/
def building : RCState → Bool
  | .seekdeclare | .seekhostname | .seekserverkey | .seekhostbegin | .seekcollect
  | .seekcollectname | .seekconnection => false
  | _ => true

theorem Step.building (h : Step E s x x') (hx : x.r.pcurcs.isSome = building x.r.state) :
    x'.r.pcurcs.isSome = building x'.r.state := by
  cases h with
  | lineEnds => exact hx
  | host p hst | serverkey p hst | hostname n p hst | serverkeyname n p hst | hostbegin hst
  | collect p hst | collectname n p hst | freqbegin hst | nofreq hst | interval v hst
  | multiplier hst | duration v hst | tagnext hst | tagname n p hst | equal hst
  | parambegin n p hst =>
    rw [hst] at hx
    exact hx
  | connection | freqend | fn | param | close | closeCollect => rfl

theorem comes_building (h : Comes E text y) : y.r.pcurcs.isSome = building y.r.state :=
  turns_invariant (I := fun r _ => r.pcurcs.isSome = building r.state)
    (fun _ _ _ hstep hx => hstep.building hx) h rfl

/-! ## The sets that are there -/

/-- A set of these names is being read, or is in the configuration. -/
def Taken (x : Cursor) (k n : Bytes) : Prop :=
  (∃ cs, x.r.pcurcs = some cs ∧ cs.fullkey = k ∧ cs.key = n) ∨
    ∃ cs, x.conf.find? k = some cs ∧ cs.key = n

theorem taken_of_eq (hcs : x'.r.pcurcs = x.r.pcurcs) (hconf : x'.conf = x.conf) :
    Taken x' k n ↔ Taken x k n := by
  rw [Taken, Taken, hcs, hconf]

/-- What is added to a set leaves its names. -/
theorem taken_of_names {cs cs' : CollectionSet} (hcs : x.r.pcurcs = some cs)
    (hcs' : x'.r.pcurcs = some cs') (hfull : cs'.fullkey = cs.fullkey) (hkey : cs'.key = cs.key)
    (hconf : x'.conf = x.conf) : Taken x' k n ↔ Taken x k n := by
  simp only [Taken, hcs, hcs', hconf, Option.some.injEq, exists_eq_left', hfull, hkey]

/-- A set that is closed goes from the reader to the configuration. -/
theorem taken_close {cs cs' : CollectionSet} (hcs : x.r.pcurcs = some cs)
    (hv : cs.validate_freqs E.beyond = some (cs', 0)) (hpush : x.conf.push_back cs' = some x'.conf)
    (hnone : x'.r.pcurcs = none) : Taken x' k n ↔ Taken x k n := by
  obtain ⟨hfree, hins⟩ := CollectionsConf.push_back_eq_some.mp hpush
  have hfull := CollectionSet.fullkey_of_validate_freqs hv
  have hkey := CollectionSet.key_of_validate_freqs hv
  simp only [Taken, hcs, hnone, hins, Lib.OrdMap.find?_insert, reduceCtorEq, false_and, exists_false,
    false_or, Option.some.injEq, exists_eq_left', ← hfull, ← hkey]
  by_cases hk : k = cs'.fullkey
  · subst hk
    simp [hfree]
  · simp [hk, Ne.symm hk]

/-- **What one turn adds**: the set of a collect that is declared. -/
theorem Step.taken (h : Step E s x x') (hx : x.r.pcurcs.isSome = Conf.building x.r.state) :
    Taken x' k n ↔ Taken x k n ∨
      x.r.state = .seekconnection ∧ (E.getfqdn s x.p).1 ≠ [] ∧ x'.r.pcurcs.isSome = true ∧
        x.r.declaration.fullkey = k ∧ x.r.declaration.key = n := by
  have hold : x.r.state ≠ .seekconnection → (Taken x' k n ↔ Taken x k n) →
      (Taken x' k n ↔ Taken x k n ∨ x.r.state = .seekconnection ∧ (E.getfqdn s x.p).1 ≠ [] ∧
        x'.r.pcurcs.isSome = true ∧ x.r.declaration.fullkey = k ∧ x.r.declaration.key = n) := by
    intro hne htaken
    simp only [htaken, hne, false_and, or_false]
  cases h with
  | lineEnds =>
    rw [taken_of_eq (x := x) rfl rfl]
    refine ⟨.inl, fun h => h.resolve_right ?_⟩
    rintro ⟨hst, -, hcs, -⟩
    have hno : x.r.pcurcs.isSome = true := hcs
    rw [hx, hst] at hno
    cases hno
  | host p hst | serverkey p hst | hostname m p hst | serverkeyname m p hst | hostbegin hst
  | collect p hst | collectname m p hst | freqbegin hst | nofreq hst | interval v hst
  | multiplier hst | duration v hst | tagnext hst | tagname m p hst | equal hst
  | parambegin m p hst =>
    exact hold (by rw [hst]; decide) (taken_of_eq rfl rfl)
  | freqend cs hst _ hcs | fn m p cs hst _ _ _ _ hcs | param q params cs hst _ _ hcs =>
    exact hold (by rw [hst]; decide) (taken_of_names hcs rfl rfl rfl rfl)
  | close cs cs' conf hst _ hcs hv hpush | closeCollect p cs cs' conf hst _ hcs hv hpush =>
    exact hold (by rw [hst]; decide) (taken_close hcs hv hpush rfl)
  -- the set begins with the connection, and none is built before
  | connection fqdn q p curcs_port port hst hi hn =>
    have hnone : x.r.pcurcs = none := by
      rw [hst] at hx
      exact Option.isSome_eq_false_iff.mp hx |> Option.isNone_iff_eq_none.mp
    simp only [Taken, hnone, hst, hi, reduceCtorEq, false_and, exists_false, false_or,
      Option.some.injEq, exists_eq_left', true_and, ne_eq, hn, not_false_eq_true, Option.isSome_some]
    exact or_comm

/-- What the reader and the configuration hold has been declared. -/
theorem Taken.declared (h : Comes E text y) (ht : Taken y.toCursor k n) :
    ∃ z d, Comes E text z ∧ Declares E z d ∧ d.fullkey = k ∧ d.key = n := by
  induction h with
  | refl =>
    rcases ht with ⟨cs, hcs, -⟩ | ⟨cs, hcs, -⟩
    · cases hcs
    · cases hcs
  | tail hz hturn ih =>
    rcases turn_eq_inl hturn with ⟨hin, hstep, -, -⟩ | ⟨-, s, rest, -, rfl⟩
    · rcases (hstep.taken (comes_building hz)).mp ht with ht | ⟨hst, hi, -, hk, hn⟩
      · exact ih ht
      · exact ⟨_, _, hz, ⟨hin, hst, hi, rfl⟩, hk, hn⟩
    · exact ih ht

/-- What the reader or the configuration holds stays. -/
theorem Taken.mono (hy : Comes E text y) (ht : Taken y.toCursor k n)
    (h : Lib.Turns (turn E) y z) : Taken z.toCursor k n := by
  induction h with
  | refl => exact ht
  | tail hz hturn ih =>
    rcases turn_eq_inl hturn with ⟨-, hstep, -, -⟩ | ⟨-, s, rest, -, rfl⟩
    · exact (hstep.taken (comes_building (hy.trans hz))).mpr (.inl ih)
    · exact ih

/-! ## A text that is read without an error -/

/-- The last turn of a text that is read without an error: nothing is being read. -/
theorem turn_eq_zero {conf : CollectionsConf} (hz : Comes E text z)
    (h : turn E z = .inr (.returns 0, conf)) : z.r.pcurcs = none ∧ z.conf = conf := by
  obtain ⟨rfl, ⟨-, hstop⟩ | ⟨-, -, hcode⟩⟩ := turn_eq_inr h
  · cases hstop
  · refine ⟨?_, rfl⟩
    have hst : z.r.state = .seekdeclare := by
      by_contra hne
      rw [if_neg hne] at hcode
      cases hcode
    have hnone := comes_building hz
    rw [hst] at hnone
    exact Option.isNone_iff_eq_none.mp (Option.isSome_eq_false_iff.mp hnone)

/-- A collect that is declared is being read after the turn. -/
theorem Declares.taken {d : Declaration} (hy : Comes E text y) (h : Declares E y d)
    (hturn : turn E y = .inl z) : Taken z.toCursor d.fullkey d.key := by
  obtain ⟨hin, hst, hi, rfl⟩ := h
  have hcs : z.r.pcurcs.isSome = true := by
    rw [turn, if_pos hin] at hturn
    split at hturn
    case h_2 => cases hturn
    case h_1 x hx =>
      cases hturn
      simp only [readstate, hst, readword, if_neg hi] at hx
      split at hx
      case isFalse =>
        obtain ⟨-, rfl⟩ := newset_ok hx
        rfl
      case isTrue =>
        split at hx
        · cases hx
        · obtain ⟨-, rfl⟩ := newset_ok hx
          rfl
  rcases turn_eq_inl hturn with ⟨-, hstep, -, -⟩ | ⟨hout, -⟩
  · exact (hstep.taken (comes_building hy)).mpr (.inr ⟨hst, hi, hcs, rfl, rfl⟩)
  · exact absurd hin hout

/-- The collects that are declared are the sets of the configuration. -/
theorem declared_iff {conf : CollectionsConf} (h : Reads E text (.returns 0) conf) :
    (∃ y d, Comes E text y ∧ Declares E y d ∧ d.fullkey = k ∧ d.key = n) ↔
      ∃ cs, conf.find? k = some cs ∧ cs.key = n := by
  constructor
  · rintro ⟨y, d, hy, hd, rfl, rfl⟩
    obtain ⟨z, hyz, hz⟩ := Lib.returns_iff.mp (Lib.Returns.turns h hy)
    obtain ⟨hnone, rfl⟩ := turn_eq_zero (hy.trans hyz) hz
    rcases Relation.ReflTransGen.cases_head hyz with rfl | ⟨w, hw, hwz⟩
    · -- a reader at a connection does not leave without an error
      obtain ⟨-, ⟨-, hstop⟩ | ⟨hout, -⟩⟩ := turn_eq_inr hz
      · cases hstop
      · exact absurd hd.1 hout
    · rcases (hd.taken hy hw).mono (hy.tail hw) hwz with ⟨cs, hcs, -⟩ | hconf
      · rw [hnone] at hcs
        cases hcs
      · exact hconf
  · rintro ⟨cs, hcs, rfl⟩
    obtain ⟨z, hz, hturn⟩ := Lib.returns_iff.mp h
    obtain ⟨-, rfl⟩ := turn_eq_zero hz hturn
    exact Taken.declared hz (.inr ⟨cs, hcs, rfl⟩)

/-- **When the sets have an rrd each.** In a configuration that is read without an error,
no two sets have one key exactly where no two collects of the text have one key under
different server keys. -/
theorem one_rrd_each_iff {conf : CollectionsConf} (h : Reads E text (.returns 0) conf) :
    (∀ k k' cs cs', conf.find? k = some cs → conf.find? k' = some cs' → cs.key = cs'.key → k = k') ↔
      ∀ y y' d d', Comes E text y → Comes E text y' → Declares E y d → Declares E y' d' →
        d.key = d'.key → d.serverkey = d'.serverkey := by
  constructor
  · intro hsets y y' d d' hy hy' hd hd' hkey
    obtain ⟨cs, hcs, hn⟩ := (declared_iff h).mp ⟨y, d, hy, hd, rfl, rfl⟩
    obtain ⟨cs', hcs', hn'⟩ := (declared_iff h).mp ⟨y', d', hy', hd', rfl, rfl⟩
    have hfull := hsets _ _ cs cs' hcs hcs' (by rw [hn, hn', hkey])
    unfold Declaration.fullkey at hfull
    rw [hkey] at hfull
    exact CollectionSet.fullkeyOf_inj.mp hfull
  · intro hdecl k k' cs cs' hcs hcs' hkey
    obtain ⟨y, d, hy, hd, rfl, hn⟩ := (declared_iff h).mpr ⟨cs, hcs, rfl⟩
    obtain ⟨y', d', hy', hd', rfl, hn'⟩ := (declared_iff h).mpr ⟨cs', hcs', rfl⟩
    have hdkey : d.key = d'.key := hn.trans (hkey.trans hn'.symm)
    have hserver := hdecl y y' d d' hy hy' hd hd' hdkey
    unfold Declaration.fullkey
    rw [hdkey, hserver]

/-- One host and one collect, under two server keys. -/
def twoServerkeys : Bytes :=
  str "serverkey a\nhost h \x7b\ncollect c k (10s x 5D)\nt=f\n\x7d\n" ++
    str "serverkey b\nhost h \x7b\ncollect c k (10s x 5D)\nt=f\n\x7d\n"

/-- The text is read, and its two sets have one key. -/
theorem reads_twoServerkeys :
    ∃ conf cs cs', Reads (sampleEnv [str "f"]) twoServerkeys (.returns 0) conf ∧
      conf.find? (str "a_h_c") = some cs ∧ conf.find? (str "b_h_c") = some cs' ∧
        cs.key = cs'.key := by
  have hany : (Lib.loop (turn (sampleEnv [str "f"])) 60 (begin twoServerkeys)).any (fun r =>
      r.1 == .returns 0 && (r.2.find? (str "a_h_c")).any (fun cs => cs.key == str "h_c") &&
        (r.2.find? (str "b_h_c")).any (fun cs => cs.key == str "h_c")) = true := by decide +kernel
  obtain ⟨⟨how, conf⟩, hloop, hsets⟩ := (Option.any_eq_true _ _).mp hany
  simp only [Bool.and_eq_true, beq_iff_eq, Option.any_eq_true] at hsets
  obtain ⟨⟨rfl, cs, hcs, hkey⟩, cs', hcs', hkey'⟩ := hsets
  exact ⟨conf, cs, cs', ⟨60, hloop⟩, hcs, hcs', hkey.trans hkey'.symm⟩

/-- Two collects of `twoServerkeys` have one key under different server keys. -/
theorem one_rrd_each_iff_twoServerkeys :
    ¬ ∀ y y' d d', Comes (sampleEnv [str "f"]) twoServerkeys y →
      Comes (sampleEnv [str "f"]) twoServerkeys y' → Declares (sampleEnv [str "f"]) y d →
        Declares (sampleEnv [str "f"]) y' d' → d.key = d'.key → d.serverkey = d'.serverkey := by
  obtain ⟨conf, cs, cs', hreads, hcs, hcs', hkey⟩ := reads_twoServerkeys
  intro h
  have hone := (one_rrd_each_iff hreads).mpr h _ _ cs cs' hcs hcs' hkey
  exact absurd hone (by decide)

/-- A configuration that is read without an error, and two of its sets with one rrd. -/
theorem shared_rrd :
    ¬ ∀ text conf, Reads (sampleEnv [str "f"]) text (.returns 0) conf →
      ∀ k k' cs cs', conf.find? k = some cs → conf.find? k' = some cs' → cs.key = cs'.key →
        k = k' := by
  obtain ⟨conf, cs, cs', hreads, hcs, hcs', hkey⟩ := reads_twoServerkeys
  intro h
  exact absurd (h _ conf hreads _ _ cs cs' hcs hcs' hkey) (by decide)

end Qigong.Conf
