import Qigong.Conf.ReadConf

/-!
# What a turn of the reader can do

`Step` lists what one turn of the inner loop of `readconf` can do, guards included
(`readstate_step`). What holds of every turn is read off this list; the definitions of
the turns are not unfolded again.
-/

namespace Qigong.Conf

variable {E : ConfEnv} {s : Bytes} {x x' : Cursor}

/-! ## Lines -/

/-- Free of what ends a line of the configuration. -/
def Unbroken (s : Bytes) : Prop := ∀ c ∈ s, c ≠ 10 ∧ c ≠ 13

instance (s : Bytes) : Decidable (Unbroken s) :=
  List.decidableBAll (fun c => c ≠ 10 ∧ c ≠ 13) s

theorem Unbroken.of_subset {t : Bytes} (hs : Unbroken s) (h : t ⊆ s) : Unbroken t :=
  fun c hc => hs c (h hc)

theorem unbroken_nil : Unbroken [] := fun _ h => (nomatch h)

theorem Unbroken.append {t : Bytes} (hs : Unbroken s) (ht : Unbroken t) : Unbroken (s ++ t) :=
  fun c hc => (List.mem_append.mp hc).elim (hs c) (ht c)

/-- What one turn of the inner loop can do. -/
inductive Step (E : ConfEnv) (s : Bytes) : Cursor → Cursor → Prop where
  | lineEnds (x : Cursor) (hst : x.r.state ≠ .seekendparam) : Step E s x { x with p := npos }
  | host (x : Cursor) (p : Nat) (hst : x.r.state = .seekdeclare)
      (hi : E.getidentifier s x.p = (str "host", p)) :
      Step E s x { x with r := { x.r with state := .seekhostname }, p := p }
  | serverkey (x : Cursor) (p : Nat) (hst : x.r.state = .seekdeclare)
      (hi : E.getidentifier s x.p = (str "serverkey", p)) :
      Step E s x { x with r := { x.r with state := .seekserverkey }, p := p }
  | hostname (x : Cursor) (n : Bytes) (p : Nat) (hst : x.r.state = .seekhostname)
      (hi : E.getidentifier s x.p = (n, p)) (hn : n ≠ []) :
      Step E s x { x with r := { x.r with metaname := n, state := .seekhostbegin }, p := p }
  | serverkeyname (x : Cursor) (n : Bytes) (p : Nat) (hst : x.r.state = .seekserverkey)
      (hi : E.getidentifier s x.p = (n, p)) (hn : n ≠ []) :
      Step E s x { x with r := { x.r with serverkey := n, state := .seekdeclare }, p := p }
  | hostbegin (x : Cursor) (hst : x.r.state = .seekhostbegin)
      (hc : s[E.seekspace s x.p]? = some 123) (hp : E.seekspace s x.p ≠ npos) :
      Step E s x { x with r := { x.r with state := .seekcollect }, p := E.seekspace s x.p + 1 }
  | collect (x : Cursor) (p : Nat) (hst : x.r.state = .seekcollect)
      (hi : E.getidentifier s x.p = (str "collect", p)) :
      Step E s x { x with r := { x.r with state := .seekcollectname }, p := p }
  | collectname (x : Cursor) (n : Bytes) (p : Nat) (hst : x.r.state = .seekcollectname)
      (hi : E.getidentifier s x.p = (n, p)) (hn : n ≠ []) :
      Step E s x { x with r := { x.r with curcs_name := n, state := .seekconnection }, p := p }
  | connection (x : Cursor) (fqdn : Bytes) (q p : Nat) (curcs_port port : Int)
      (hst : x.r.state = .seekconnection) (hi : E.getfqdn s x.p = (fqdn, q)) (hn : fqdn ≠ [])
      (hp : p = q ∨ q ≠ npos ∧ s[q]? = some 58 ∧ p = (E.getinteger s (q + 1)).2)
      (hm : x.r.metaname ≠ []) :
      Step E s x { x with
        r := { x.r with
          curcs_fqdn := fqdn
          curcs_port := curcs_port
          pcurcs := some (.make x.r.serverkey x.r.curcs_name x.r.metaname fqdn port)
          state := .seekcolentry }
        p := p }
  | freqbegin (x : Cursor) (hst : x.r.state = .seekcolentry) (hp : E.seekspace s x.p ≠ npos) :
      Step E s x { x with r := { x.r with state := .seekrddtabledef }, p := E.seekspace s x.p + 1 }
  | nofreq (x : Cursor) (hst : x.r.state = .seekcolentry) (hp : E.seekspace s x.p ≠ npos) :
      Step E s x { x with r := { x.r with state := .seektagname }, p := E.seekspace s x.p }
  | interval (x : Cursor) (v : Int) (hst : x.r.state = .seekrddtabledef)
      (hp : (E.getinteger s x.p).2 ≠ npos) (hv : v < 2 ^ 63) :
      Step E s x { x with
        r := { x.r with freq := { x.r.freq with interval := v }, state := .seekmultiplier }
        p := (E.getinteger s x.p).2 + 1 }
  | multiplier (x : Cursor) (hst : x.r.state = .seekmultiplier) (hp : E.seekspace s x.p ≠ npos) :
      Step E s x { x with r := { x.r with state := .seekrddtable2nd }, p := E.seekspace s x.p + 1 }
  | duration (x : Cursor) (v : Int) (hst : x.r.state = .seekrddtable2nd)
      (hp : (E.getinteger s x.p).2 ≠ npos) :
      Step E s x { x with
        r := { x.r with freq := { x.r.freq with duration := v }, state := .seekrddenpar }
        p := (E.getinteger s x.p).2 + 1 }
  | freqend (x : Cursor) (cs : CollectionSet) (hst : x.r.state = .seekrddenpar)
      (hp : E.seekspace s x.p ≠ npos) (hcs : x.r.pcurcs = some cs) :
      Step E s x { x with
        r := { x.r with pcurcs := some (cs.push_freq x.r.freq), state := .seekcolentry }
        p := E.seekspace s x.p + 1 }
  | tagnext (x : Cursor) (hst : x.r.state = .seektagorend) (hc : s[x.p]? ≠ some 125) :
      Step E s x { x with r := { x.r with state := .seektagname } }
  | tagname (x : Cursor) (n : Bytes) (p : Nat) (hst : x.r.state = .seektagname)
      (hi : E.getidentifier s x.p = (n, p)) (hn : n ≠ []) (hc : n ≠ str "collect") :
      Step E s x { x with r := { x.r with tagmp_tagname := n, state := .seekequal }, p := p }
  | equal (x : Cursor) (hst : x.r.state = .seekequal) (hc : s[E.seekspace s x.p]? = some 61)
      (hp : E.seekspace s x.p ≠ npos) :
      Step E s x { x with r := { x.r with state := .seekcollectfn }, p := E.seekspace s x.p + 1 }
  | parambegin (x : Cursor) (n : Bytes) (p : Nat) (hst : x.r.state = .seekcollectfn)
      (hi : E.getidentifier s x.p = (n, p)) (hn : n ≠ []) (hk : E.known n = true)
      (hp : p ≠ npos) (hc : s[p]? = some 40) :
      Step E s x { x with r := { x.r with tagmp_fn := n, state := .seekendparam }, p := p + 1 }
  | fn (x : Cursor) (n : Bytes) (p : Nat) (cs : CollectionSet) (hst : x.r.state = .seekcollectfn)
      (hi : E.getidentifier s x.p = (n, p)) (hn : n ≠ []) (hk : E.known n = true)
      (hc : ¬ (p ≠ npos ∧ s[p]? = some 40)) (hcs : x.r.pcurcs = some cs) :
      Step E s x { x with
        r := { x.r with
          tagmp_fn := n
          tagmp_params := []
          pcurcs := some (cs.push_point ⟨x.r.tagmp_tagname, n, []⟩)
          state := .seektagorend }
        p := p }
  | param (x : Cursor) (q : Nat) (params : Bytes) (cs : CollectionSet)
      (hst : x.r.state = .seekendparam) (hq : findFrom 41 s 0 = some q)
      (hparams : params = (s.drop x.p).take ((findFrom 41 s x.p).getD npos - x.p))
      (hcs : x.r.pcurcs = some cs) :
      Step E s x { x with
        r := { x.r with
          tagmp_params := params
          pcurcs := some (cs.push_point ⟨x.r.tagmp_tagname, x.r.tagmp_fn, params⟩)
          state := .seektagorend }
        p := q + 1 }
  | close (x : Cursor) (cs cs' : CollectionSet) (conf : CollectionsConf)
      (hst : x.r.state = .seektagorend) (hc : s[x.p]? = some 125) (hcs : x.r.pcurcs = some cs)
      (hv : cs.validate_freqs E.beyond = some (cs', 0)) (hconf : x.conf.push_back cs' = some conf) :
      Step E s x ⟨{ x.r with pcurcs := none, metaname := [], state := .seekdeclare }, conf, x.p + 1⟩
  | closeCollect (x : Cursor) (p : Nat) (cs cs' : CollectionSet) (conf : CollectionsConf)
      (hst : x.r.state = .seektagname) (hi : E.getidentifier s x.p = (str "collect", p))
      (hcs : x.r.pcurcs = some cs) (hv : cs.validate_freqs E.beyond = some (cs', 0))
      (hconf : x.conf.push_back cs' = some conf) :
      Step E s x ⟨{ x.r with pcurcs := none, state := .seekcollectname }, conf, p⟩

/-! ## The families -/

/-- A character is found behind blanks, or the line is over. -/
theorem expect_ok {c : UInt8} {found : ReadConf → Option ReadConf}
    (h : expect E s x c found = .ok x') :
    x' = { x with p := npos } ∨ ∃ r, E.seekspace s x.p ≠ npos ∧
      s[E.seekspace s x.p]? = some c ∧ found x.r = some r ∧
      x' = { x with r := r, p := E.seekspace s x.p + 1 } := by
  unfold expect at h
  dsimp only at h
  split at h
  case isTrue => exact .inl (Except.ok.inj h).symm
  case isFalse hp =>
    split at h
    case isFalse => cases h
    case isTrue hc =>
      split at h
      · exact .inr ⟨_, hp, hc, ‹_›, (Except.ok.inj h).symm⟩
      · cases h

/-- A word is found, or the line is over. -/
theorem readword_ok {i : Bytes × Nat} {found : Bytes → Nat → Outcome}
    (h : readword x i found = .ok x') :
    x' = { x with p := npos } ∨ i.1 ≠ [] ∧ found i.1 i.2 = .ok x' := by
  unfold readword at h
  split at h
  case isFalse hn => exact .inr ⟨hn, h⟩
  case isTrue =>
    split at h
    · exact .inl (Except.ok.inj h).symm
    · cases h

/-- A time is found with its unit, or the line is over. It is a `long`. -/
theorem readtime_ok {found : Int → ReadConf} (h : readtime E s x found = .ok x') :
    x' = { x with p := npos } ∨ ∃ v, (E.getinteger s x.p).2 ≠ npos ∧ v < 2 ^ 63 ∧
      x' = { x with r := found v, p := (E.getinteger s x.p).2 + 1 } := by
  unfold readtime at h
  dsimp only at h
  split at h
  case isTrue =>
    split at h
    case isTrue => exact .inl (Except.ok.inj h).symm
    case isFalse =>
      split at h
      · cases h
      · cases h
  case isFalse =>
    split at h
    case isTrue => cases h
    case isFalse hp =>
      split at h
      · exact .inr ⟨_, hp, Int.bmod_lt (by decide), (Except.ok.inj h).symm⟩
      · cases h

/-- A set is closed where one is open whose frequencies are valid, without a warning, and whose
key is new. -/
theorem close_ok {p : Nat} {next : ReadConf → ReadConf} (h : close E x p next = .ok x') :
    ∃ cs cs' conf, x.r.pcurcs = some cs ∧ cs.validate_freqs E.beyond = some (cs', 0) ∧
      x.conf.push_back cs' = some conf ∧ x' = ⟨next { x.r with pcurcs := none }, conf, p⟩ := by
  unfold close at h
  split at h
  case h_1 => cases h
  case h_2 cs hcs =>
    split at h
    case h_1 => cases h
    case h_2 cs' nbw hv =>
      split at h
      case isTrue => cases h
      case isFalse hnbw =>
        obtain rfl : nbw = 0 := not_not.mp hnbw
        split at h
        case h_1 => cases h
        case h_2 conf hconf => exact ⟨cs, cs', conf, hcs, hv, hconf, (Except.ok.inj h).symm⟩

/-- A measure point is added to the set that is open. -/
theorem endpoint_ok {r : ReadConf} {p : Nat} (h : endpoint x r p = .ok x') :
    ∃ cs, r.pcurcs = some cs ∧ x' = { x with
      r := { r with
        pcurcs := some (cs.push_point ⟨r.tagmp_tagname, r.tagmp_fn, r.tagmp_params⟩)
        state := .seektagorend }
      p := p } := by
  unfold endpoint ReadConf.push_point at h
  cases hcs : r.pcurcs with
  | none => rw [hcs] at h; cases h
  | some cs =>
    rw [hcs] at h
    exact ⟨cs, rfl, (Except.ok.inj h).symm⟩

theorem newset_ok {r : ReadConf} {port : Int} {p : Nat} (h : newset x r port p = .ok x') :
    r.metaname ≠ [] ∧ x' = { x with
      r := { r with
        pcurcs := some (.make r.serverkey r.curcs_name r.metaname r.curcs_fqdn port)
        state := .seekcolentry }
      p := p } := by
  unfold newset at h
  split at h
  case isTrue => cases h
  case isFalse hm => exact ⟨hm, (Except.ok.inj h).symm⟩

/-! ## All the states -/

/-- A state that waits for a character: what it does behind it, or the end of the line. -/
theorem Step.of_expect {c : UInt8} {found : ReadConf → Option ReadConf}
    (hne : x.r.state ≠ .seekendparam)
    (hfound : ∀ r, E.seekspace s x.p ≠ npos → s[E.seekspace s x.p]? = some c → found x.r = some r →
      Step E s x { x with r := r, p := E.seekspace s x.p + 1 })
    (h : expect E s x c found = .ok x') : Step E s x x' := by
  obtain rfl | ⟨r, hp, hc, hr, rfl⟩ := expect_ok h
  · exact .lineEnds x hne
  · exact hfound r hp hc hr

theorem Step.of_readword {i : Bytes × Nat} {found : Bytes → Nat → Outcome}
    (hne : x.r.state ≠ .seekendparam)
    (hfound : i.1 ≠ [] → found i.1 i.2 = .ok x' → Step E s x x')
    (h : readword x i found = .ok x') : Step E s x x' := by
  obtain rfl | ⟨hn, h⟩ := readword_ok h
  · exact .lineEnds x hne
  · exact hfound hn h

theorem Step.of_readtime {found : Int → ReadConf} (hne : x.r.state ≠ .seekendparam)
    (hfound : ∀ v, (E.getinteger s x.p).2 ≠ npos → v < 2 ^ 63 →
      Step E s x { x with r := found v, p := (E.getinteger s x.p).2 + 1 })
    (h : readtime E s x found = .ok x') : Step E s x x' := by
  obtain rfl | ⟨v, hp, hv, rfl⟩ := readtime_ok h
  · exact .lineEnds x hne
  · exact hfound v hp hv

/-- **A turn of the inner loop does one of these.** -/
theorem readstate_step (h : readstate E s x = .ok x') : Step E s x x' := by
  unfold readstate at h
  -- only the state of a parameter never ends a line
  by_cases hparam : x.r.state = .seekendparam
  · rw [hparam] at h
    dsimp only at h
    split at h
    case h_1 => cases h
    case h_2 q hq =>
      obtain ⟨cs, hcs, rfl⟩ := endpoint_ok h
      exact .param x q _ cs hparam hq rfl hcs
  cases hst : x.r.state <;> rw [hst] at h <;> dsimp only at h
  case seekendparam => exact absurd hst hparam
  -- the head of a host, and that of a collect
  case seekdeclare =>
    refine .of_readword hparam (fun _ h => ?_) h
    split at h
    case isTrue hi =>
      cases h
      exact .host x _ hst (Prod.ext hi rfl)
    case isFalse =>
      split at h
      case isTrue hi =>
        cases h
        exact .serverkey x _ hst (Prod.ext hi rfl)
      case isFalse => cases h
  case seekhostname =>
    refine .of_readword hparam (fun hn h => ?_) h
    cases h
    exact .hostname x _ _ hst rfl hn
  case seekserverkey =>
    refine .of_readword hparam (fun hn h => ?_) h
    cases h
    exact .serverkeyname x _ _ hst rfl hn
  case seekhostbegin =>
    refine .of_expect hparam (fun r hp hc hr => ?_) h
    cases hr
    exact .hostbegin x hst hc hp
  case seekcollect =>
    refine .of_readword hparam (fun _ h => ?_) h
    split at h
    case isTrue hi =>
      cases h
      exact .collect x _ hst (Prod.ext hi rfl)
    case isFalse => cases h
  case seekcollectname =>
    refine .of_readword hparam (fun hn h => ?_) h
    cases h
    exact .collectname x _ _ hst rfl hn
  case seekconnection =>
    refine .of_readword hparam (fun hn h => ?_) h
    split at h
    case isTrue hq =>
      split at h
      case isTrue => cases h
      case isFalse =>
        obtain ⟨hm, rfl⟩ := newset_ok h
        exact .connection x _ _ _ _ _ hst rfl hn (.inr ⟨hq.1, hq.2, rfl⟩) hm
    case isFalse =>
      obtain ⟨hm, rfl⟩ := newset_ok h
      exact .connection x _ _ _ _ _ hst rfl hn (.inl rfl) hm
  -- the frequencies
  case seekcolentry =>
    split at h
    case isTrue =>
      cases h
      exact .lineEnds x hparam
    case isFalse hp =>
      split at h
      · cases h
        exact .freqbegin x hst hp
      · cases h
        exact .nofreq x hst hp
  case seekrddtabledef => exact .of_readtime hparam (fun v hp hv => .interval x v hst hp hv) h
  case seekmultiplier =>
    refine .of_expect hparam (fun r hp _ hr => ?_) h
    cases hr
    exact .multiplier x hst hp
  case seekrddtable2nd => exact .of_readtime hparam (fun v hp _ => .duration x v hst hp) h
  case seekrddenpar =>
    refine .of_expect hparam (fun r hp _ hr => ?_) h
    obtain ⟨r', hr', rfl⟩ := Option.map_eq_some_iff.mp hr
    obtain ⟨cs, hcs, rfl⟩ := Option.map_eq_some_iff.mp hr'
    exact .freqend x cs hst hp hcs
  -- the tags, and the ends of a collect
  case seektagorend =>
    split at h
    case isTrue hc =>
      obtain ⟨cs, cs', conf, hcs, hv, hconf, rfl⟩ := close_ok h
      exact .close x cs cs' conf hst hc hcs hv hconf
    case isFalse hc =>
      cases h
      exact .tagnext x hst hc
  case seektagname =>
    refine .of_readword hparam (fun hn h => ?_) h
    split at h
    case isTrue hi =>
      obtain ⟨cs, cs', conf, hcs, hv, hconf, rfl⟩ := close_ok h
      exact .closeCollect x _ cs cs' conf hst (Prod.ext hi rfl) hcs hv hconf
    case isFalse hc =>
      cases h
      exact .tagname x _ _ hst rfl hn hc
  case seekequal =>
    refine .of_expect hparam (fun r hp hc hr => ?_) h
    cases hr
    exact .equal x hst hc hp
  case seekcollectfn =>
    refine .of_readword hparam (fun hn h => ?_) h
    split at h
    case isFalse => cases h
    case isTrue hk =>
      split at h
      case isTrue hc =>
        cases h
        exact .parambegin x _ _ hst rfl hn hk hc.1 hc.2
      case isFalse hc =>
        obtain ⟨cs, hcs, rfl⟩ := endpoint_ok h
        exact .fn x _ _ cs hst rfl hn hk hc hcs

/-! ## Errors -/

/-- How one turn of the inner loop can leave `readconf`. -/
inductive Stops (E : ConfEnv) (s : Bytes) (x : Cursor) : Stop → Prop where
  | fails : Stops E s x (.returns (-1))
  | beyond (hp : (E.getinteger s x.p).2 ≠ npos) (hlt : s.length < (E.getinteger s x.p).2) :
      Stops E s x (.throws .out_of_range)
  | traps (cs : CollectionSet)
      (hst : x.r.state = .seektagorend ∧ s[x.p]? = some 125 ∨
        x.r.state = .seektagname ∧ (E.getidentifier s x.p).1 = str "collect")
      (hcs : x.r.pcurcs = some cs) (hv : cs.validate_freqs E.beyond = none) :
      Stops E s x (.throws .overflow)

variable {e : Stop}

/-- Another character is a failure. -/
theorem expect_error {c : UInt8} {found : ReadConf → Option ReadConf}
    (h : expect E s x c found = .error e) : Stops E s x e := by
  unfold expect at h
  dsimp only at h
  split at h
  · cases h
  split at h
  · split at h
    · cases h
    · cases h
      exact .fails
  · cases h
    exact .fails

theorem readword_error {i : Bytes × Nat} {found : Bytes → Nat → Outcome}
    (hfound : found i.1 i.2 = .error e → Stops E s x e) (h : readword x i found = .error e) :
    Stops E s x e := by
  unfold readword at h
  split at h
  · split at h
    · cases h
    · cases h
      exact .fails
  · exact hfound h

/-- A time fails, or the complaint about it quotes what is behind the end of the line. -/
theorem readtime_error {found : Int → ReadConf} (h : readtime E s x found = .error e) :
    Stops E s x e := by
  unfold readtime at h
  dsimp only at h
  split at h
  case isTrue =>
    split at h
    case isTrue => cases h
    case isFalse hp =>
      -- the complaint quotes the rest of the line, if there is such a position
      split at h
      case isTrue hlt =>
        cases h
        exact .beyond hp hlt
      case isFalse =>
        cases h
        exact .fails
  case isFalse =>
    split at h
    · cases h
      exact .fails
    · split at h
      · cases h
      · cases h
        exact .fails

/-- Closing fails, or traps in the frequencies. -/
theorem close_error {p : Nat} {next : ReadConf → ReadConf}
    (hst : x.r.state = .seektagorend ∧ s[x.p]? = some 125 ∨
      x.r.state = .seektagname ∧ (E.getidentifier s x.p).1 = str "collect")
    (h : close E x p next = .error e) : Stops E s x e := by
  unfold close at h
  split at h
  case h_1 =>
    cases h
    exact .fails
  case h_2 cs hcs =>
    split at h
    case h_1 hv =>
      cases h
      exact .traps cs hst hcs hv
    case h_2 =>
      split at h
      · cases h
        exact .fails
      · split at h
        · cases h
          exact .fails
        · cases h

theorem endpoint_error {r : ReadConf} {p : Nat} (h : endpoint x r p = .error e) :
    Stops E s x e := by
  unfold endpoint at h
  split at h
  · cases h
    exact .fails
  · cases h

theorem newset_error {r : ReadConf} {port : Int} {p : Nat} (h : newset x r port p = .error e) :
    Stops E s x e := by
  unfold newset at h
  split at h
  · cases h
    exact .fails
  · cases h

/-- **A turn of the inner loop leaves `readconf` in one of these ways**, if it does. -/
theorem readstate_error (h : readstate E s x = .error e) : Stops E s x e := by
  unfold readstate at h
  -- by what is expected: a character, a time, a word
  cases hst : x.r.state <;> rw [hst] at h <;> dsimp only at h
  case seekequal | seekrddenpar | seekmultiplier | seekhostbegin => exact expect_error h
  case seekrddtabledef | seekrddtable2nd => exact readtime_error h
  case seekcollectname | seekhostname | seekserverkey =>
    refine readword_error (fun h => ?_) h
    cases h
  case seekdeclare =>
    refine readword_error (fun h => ?_) h
    split at h
    · cases h
    split at h
    · cases h
    · cases h
      exact .fails
  case seekcollect =>
    refine readword_error (fun h => ?_) h
    split at h
    · cases h
    · cases h
      exact .fails
  case seekconnection =>
    refine readword_error (fun h => ?_) h
    split at h
    · split at h
      · cases h
        exact .fails
      · exact newset_error h
    · exact newset_error h
  case seekcolentry =>
    split at h
    · cases h
    split at h
    · cases h
    · cases h
  case seektagorend =>
    split at h
    case isTrue hc => exact close_error (.inl ⟨hst, hc⟩) h
    case isFalse => cases h
  case seektagname =>
    refine readword_error (fun h => ?_) h
    split at h
    case isTrue hi => exact close_error (.inr ⟨hst, hi⟩) h
    case isFalse => cases h
  case seekcollectfn =>
    refine readword_error (fun h => ?_) h
    split at h
    · split at h
      · cases h
      · exact endpoint_error h
    · cases h
      exact .fails
  case seekendparam =>
    split at h
    · cases h
      exact .fails
    · exact endpoint_error h

/-- The turn at parameters. -/
theorem Step.of_endparam (h : Step E s x x') (hst : x.r.state = .seekendparam) :
    ∃ q cs, findFrom 41 s 0 = some q ∧ x.r.pcurcs = some cs ∧
      x'.r.state = .seektagorend ∧ x'.p = q + 1 := by
  -- every other step is of another state
  cases h with
  | lineEnds hne => exact absurd hst hne
  | param q params cs _ hq _ hcs => exact ⟨q, cs, hq, hcs, rfl, rfl⟩
  | host _ hst' | serverkey _ hst' | hostname _ _ hst' | serverkeyname _ _ hst' | hostbegin hst'
  | collect _ hst' | collectname _ _ hst' | connection _ _ _ _ _ hst' | freqbegin hst'
  | nofreq hst' | interval _ hst' | multiplier hst' | duration _ hst' | freqend _ hst'
  | tagnext hst' | tagname _ _ hst' | equal hst' | parambegin _ _ hst' | fn _ _ _ hst'
  | close _ _ _ hst' | closeCollect _ _ _ _ hst' =>
    rw [hst] at hst'
    cases hst'

/-! ## The loops -/

/-- A turn of the loops is one of the inner loop, or goes to the next line. -/
theorem turn_eq_inl {y y' : Reading} (h : turn E y = .inl y') :
    y.InLine ∧ Step E y.s y.toCursor y'.toCursor ∧ y'.s = y.s ∧ y'.rest = y.rest ∨
      ¬ y.InLine ∧ ∃ s rest, y.rest = s :: rest ∧
        y' = { y with p := beginning E s, s := s, rest := rest } := by
  unfold turn at h
  split at h
  case isTrue hin =>
    split at h
    case h_1 x hx =>
      cases h
      exact .inl ⟨hin, readstate_step hx, rfl, rfl⟩
    case h_2 => cases h
  case isFalse hin =>
    split at h
    case h_1 s rest hrest =>
      cases h
      exact .inr ⟨hin, s, rest, hrest, rfl⟩
    case h_2 => cases h

/-- A turn in a line is one of `readstate`. -/
theorem turn_inLine {y y' : Reading} (hin : y.InLine) (h : turn E y = .inl y') :
    readstate E y.s y.toCursor = .ok y'.toCursor := by
  unfold turn at h
  rw [if_pos hin] at h
  split at h
  case h_1 x hx =>
    cases h
    exact hx
  case h_2 => cases h

/-- The loops end in an error of the inner loop, or behind the last line. -/
theorem turn_eq_inr {y : Reading} {conf : CollectionsConf} (h : turn E y = .inr (e, conf)) :
    conf = y.conf ∧ (y.InLine ∧ Stops E y.s y.toCursor e ∨
      ¬ y.InLine ∧ y.rest = [] ∧ e = .returns (if y.r.state = .seekdeclare then 0 else -1)) := by
  unfold turn at h
  -- the loops end in a line at an error, between lines at the end of the text
  split at h
  case isTrue hin =>
    split at h
    case h_1 => cases h
    case h_2 e' he =>
      cases h
      exact ⟨rfl, .inl ⟨hin, readstate_error he⟩⟩
  case isFalse hin =>
    split at h
    case h_1 => cases h
    case h_2 hrest =>
      cases h
      exact ⟨rfl, .inr ⟨hin, hrest, rfl⟩⟩

/-- What is kept by the turns of the inner loop, whatever the line, and wherever the
position is put, is kept by the loops. -/
theorem turns_invariant {I : ReadConf → CollectionsConf → Prop}
    (hstep : ∀ s x x', Step E s x x' → I x.r x.conf → I x'.r x'.conf) {y y' : Reading}
    (h : Lib.Turns (turn E) y y') (hy : I y.r y.conf) : I y'.r y'.conf := by
  refine Lib.Turns.invariant (I := fun y => I y.r y.conf) (fun a b ha hab => ?_) h hy
  -- going to the next line changes neither what is read nor what is held
  rcases turn_eq_inl hab with ⟨-, hx, -, -⟩ | ⟨-, s, rest, -, rfl⟩
  · exact hstep _ _ _ hx ha
  · exact ha

end Qigong.Conf
