import Qigong.Conf.Scanning
import Qigong.Conf.Termination

/-!
# What a turn sees of the line

A turn reads one piece of the line, and does something with it (`readstate_eq`): what it
sees depends on the line, the place in it and the state alone (`sight`), and what it does
does not depend on the place (`placed_act`). So the states and the places that the reader
comes through on a line are a walk that knows nothing of what the reader holds (`walk`).
-/

namespace Qigong.Conf

variable {E : ConfEnv} {s : Bytes} {x x' : Cursor} {y y' z : Reading}

/-! ## Seeing and doing -/

/-- What a turn sees: that the line is over, that something is wrong, or a piece of the
line (a word or a number, and whether a mark stands at it) and the place behind. -/
inductive Sight where
  | ended
  | wrong (e : Stop)
  | piece (word : Bytes) (number : Int) (mark : Bool) (q : Nat)

/-- A word, and what is seen with it. -/
def sightWord (i : Bytes × Nat) (found : Sight) : Sight :=
  if i.1 = [] then
    if i.2 = npos then .ended else .wrong (.returns (-1))
  else found

/-- A character behind blanks. -/
def sightChar (E : ConfEnv) (s : Bytes) (p : Nat) (c : UInt8) : Sight :=
  let q := E.seekspace s p
  if q = npos then .ended
  else if s[q]? = some c then .piece [] 0 false (q + 1)
  else .wrong (.returns (-1))

/-- A time. -/
def sightTime (E : ConfEnv) (s : Bytes) (p : Nat) : Sight :=
  let v := E.getinteger s p
  if v.1 = 0 then
    if v.2 = npos then .ended
    else .wrong (if s.length < v.2 then .throws .out_of_range else .returns (-1))
  else if v.2 = npos then .wrong (.returns (-1))
  else
    match s[v.2]?.bind unitOf with
    | some u => .piece [] (mulLong v.1 u) false (v.2 + 1)
    | none => .wrong (.returns (-1))

/-- What a turn sees, looking for this at this place. -/
def sight (E : ConfEnv) (s : Bytes) (st : RCState) (p : Nat) : Sight :=
  match st with
  | .seekendparam =>
    match findFrom 41 s 0 with
    | none => .wrong (.returns (-1))
    | some q => .piece ((s.drop p).take ((findFrom 41 s p).getD npos - p)) 0 false (q + 1)
  | .seekcollectfn =>
    let i := E.getidentifier s p
    sightWord i (if i.2 ≠ npos ∧ s[i.2]? = some 40 then .piece i.1 0 true (i.2 + 1)
      else .piece i.1 0 false i.2)
  | .seektagorend => if s[p]? = some 125 then .piece [] 0 true (p + 1) else .piece [] 0 false p
  | .seekcolentry =>
    let q := E.seekspace s p
    if q = npos then .ended
    else if s[q]? = some 40 then .piece [] 0 true (q + 1)
    else .piece [] 0 false q
  | .seekconnection =>
    let i := E.getfqdn s p
    sightWord i (if i.2 ≠ npos ∧ s[i.2]? = some 58 then
        let v := E.getinteger s (i.2 + 1)
        if v.1 = 0 then .wrong (.returns (-1)) else .piece i.1 (v.1.bmod (2 ^ 32)) true v.2
      else .piece i.1 defaultPort false i.2)
  | .seekequal => sightChar E s p 61
  | .seekrddenpar => sightChar E s p 41
  | .seekmultiplier => sightChar E s p 120
  | .seekhostbegin => sightChar E s p 123
  | .seekrddtabledef | .seekrddtable2nd => sightTime E s p
  | .seekdeclare | .seekhostname | .seekserverkey | .seekcollect | .seekcollectname
  | .seektagname =>
    let i := E.getidentifier s p
    sightWord i (.piece i.1 0 false i.2)

/-- What a turn does with a piece of the line. -/
def act (E : ConfEnv) (x : Cursor) (word : Bytes) (number : Int) (mark : Bool) (q : Nat) : Outcome :=
  match x.r.state with
  | .seekendparam => endpoint x { x.r with tagmp_params := word } q
  | .seekcollectfn =>
    if E.known word then
      if mark then .ok { x with r := { x.r with tagmp_fn := word, state := .seekendparam }, p := q }
      else endpoint x { x.r with tagmp_fn := word, tagmp_params := [] } q
    else failed
  | .seekequal => .ok { x with r := { x.r with state := .seekcollectfn }, p := q }
  | .seektagorend =>
    if mark then close E x q fun r => { r with metaname := [], state := .seekdeclare }
    else .ok { x with r := { x.r with state := .seektagname }, p := q }
  | .seektagname =>
    if word = str "collect" then close E x q fun r => { r with state := .seekcollectname }
    else .ok { x with r := { x.r with tagmp_tagname := word, state := .seekequal }, p := q }
  | .seekrddenpar =>
    match x.r.push_freq with
    | none => failed
    | some r => .ok { x with r := { r with state := .seekcolentry }, p := q }
  | .seekrddtable2nd =>
    .ok { x with
      r := { x.r with freq := { x.r.freq with duration := number }, state := .seekrddenpar }
      p := q }
  | .seekmultiplier => .ok { x with r := { x.r with state := .seekrddtable2nd }, p := q }
  | .seekrddtabledef =>
    .ok { x with
      r := { x.r with freq := { x.r.freq with interval := number }, state := .seekmultiplier }
      p := q }
  | .seekcolentry =>
    .ok { x with r := { x.r with state := if mark then .seekrddtabledef else .seektagname }, p := q }
  | .seekconnection =>
    newset x { x.r with
      curcs_fqdn := word
      curcs_port := if mark then number else x.r.curcs_port } number q
  | .seekcollect =>
    if word = str "collect" then .ok { x with r := { x.r with state := .seekcollectname }, p := q }
    else failed
  | .seekcollectname =>
    .ok { x with r := { x.r with curcs_name := word, state := .seekconnection }, p := q }
  | .seekdeclare =>
    if word = str "host" then .ok { x with r := { x.r with state := .seekhostname }, p := q }
    else if word = str "serverkey" then
      .ok { x with r := { x.r with state := .seekserverkey }, p := q }
    else failed
  | .seekhostname =>
    .ok { x with r := { x.r with metaname := word, state := .seekhostbegin }, p := q }
  | .seekserverkey =>
    .ok { x with r := { x.r with serverkey := word, state := .seekdeclare }, p := q }
  | .seekhostbegin => .ok { x with r := { x.r with state := .seekcollect }, p := q }

/-- What a turn does with what it sees. -/
def Sight.run (E : ConfEnv) (x : Cursor) : Sight → Outcome
  | .ended => .ok { x with p := npos }
  | .wrong e => .error e
  | .piece word number mark q => act E x word number mark q

/-- A state that reads a word sees it, or that the line is over, or that there is none. -/
theorem readword_eq {i : Bytes × Nat} {found : Bytes → Nat → Outcome} {w : Sight}
    (h : found i.1 i.2 = w.run E x) : readword x i found = (sightWord i w).run E x := by
  unfold readword sightWord
  split
  · split
    · rfl
    · rfl
  · exact h

/-- A state that waits for a character sees it, or that the line is over, or another one. -/
theorem expect_eq {c : UInt8} {found : ReadConf → Option ReadConf}
    (h : ∀ q, (match found x.r with | some r => .ok { x with r := r, p := q } | none => failed)
      = act E x [] 0 false q) : expect E s x c found = (sightChar E s x.p c).run E x := by
  unfold expect sightChar
  dsimp only
  split
  · rfl
  · split
    · exact h _
    · rfl

/-- A state that reads a time sees it with its unit, or what is wrong with it. -/
theorem readtime_eq {found : Int → ReadConf}
    (h : ∀ v q, .ok { x with r := found v, p := q } = act E x [] v false q) :
    readtime E s x found = (sightTime E s x.p).run E x := by
  unfold readtime sightTime
  dsimp only
  split
  · split
    · rfl
    · split
      · rfl
      · rfl
  · split
    · rfl
    · cases s[(E.getinteger s x.p).2]?.bind unitOf with
      | some u => exact h _ _
      | none => rfl

/-- **A turn sees a piece of the line and does something with it.** -/
theorem readstate_eq : readstate E s x = (sight E s x.r.state x.p).run E x := by
  obtain ⟨⟨st, _, _, _, _, _, _, _, _, pcurcs, _⟩, conf, p⟩ := x
  -- one case for each state; those that read with one reader share it
  cases st <;> dsimp only [readstate, sight]
  case seekendparam =>
    cases findFrom 41 s 0 with
    | none => rfl
    | some q => rfl
  case seekcollectfn =>
    refine readword_eq ?_
    by_cases hk : E.known (E.getidentifier s p).1 = true
    · rw [if_pos hk]
      split
      · exact (if_pos hk).symm
      · exact (if_pos hk).symm
    · rw [if_neg hk]
      split
      · exact (if_neg hk).symm
      · exact (if_neg hk).symm
  case seektagorend =>
    split
    · rfl
    · rfl
  case seekcolentry =>
    split
    · rfl
    · split
      · rfl
      · rfl
  case seekconnection =>
    refine readword_eq ?_
    split
    · split
      · rfl
      · rfl
    · rfl
  case seekrddenpar =>
    refine expect_eq fun q => ?_
    -- `push_freq` fails where no set is open
    cases pcurcs with
    | none => rfl
    | some cs => rfl
  case seekequal | seekmultiplier | seekhostbegin => exact expect_eq fun q => rfl
  case seekrddtabledef | seekrddtable2nd => exact readtime_eq fun v q => rfl
  case seekdeclare | seekhostname | seekserverkey | seekcollect | seekcollectname | seektagname =>
    exact readword_eq rfl

/-! ## The place does not matter -/

/-- What is looked for behind a piece. -/
def nextState (st : RCState) (word : Bytes) (mark : Bool) : RCState :=
  match st with
  | .seekendparam => .seektagorend
  | .seekcollectfn => if mark then .seekendparam else .seektagorend
  | .seekequal => .seekcollectfn
  | .seektagorend => if mark then .seekdeclare else .seektagname
  | .seektagname => if word = str "collect" then .seekcollectname else .seekequal
  | .seekrddenpar => .seekcolentry
  | .seekrddtable2nd => .seekrddenpar
  | .seekmultiplier => .seekrddtable2nd
  | .seekrddtabledef => .seekmultiplier
  | .seekcolentry => if mark then .seekrddtabledef else .seektagname
  | .seekconnection => .seekcolentry
  | .seekcollect => .seekcollectname
  | .seekcollectname => .seekconnection
  | .seekdeclare => if word = str "host" then .seekhostname else .seekserverkey
  | .seekhostname => .seekhostbegin
  | .seekserverkey => .seekdeclare
  | .seekhostbegin => .seekcollect

/-- From any place and to any place, this goes on looking for that, and does the same. -/
def Placed (f : (p q : Nat) → Outcome) (st : RCState) : Prop :=
  ∀ p q x', f p q = .ok x' →
    x'.p = q ∧ x'.r.state = st ∧ ∀ p' q', f p' q' = .ok { x' with p := q' }

section

variable {r : ReadConf} {conf : CollectionsConf} {st : RCState}

/-- An outcome that returns the place it is given. -/
theorem placed_ok (hst : r.state = st) : Placed (fun _ q => .ok ⟨r, conf, q⟩) st := by
  intro p q x' h
  obtain rfl := Except.ok.inj h
  exact ⟨rfl, hst, fun _ _ => rfl⟩

theorem placed_failed : Placed (fun _ _ => failed) st := fun _ _ _ h => nomatch h

/-- A measure point is closed in the same way at any place. -/
theorem placed_endpoint (r' : ReadConf) :
    Placed (fun p q => endpoint ⟨r, conf, p⟩ r' q) .seektagorend := by
  unfold endpoint
  cases r'.push_point with
  | none => exact placed_failed
  | some r' => exact placed_ok rfl

theorem placed_close {next : ReadConf → ReadConf} (hnext : ∀ r, (next r).state = st) :
    Placed (fun p q => close E ⟨r, conf, p⟩ q next) st := by
  unfold close
  dsimp only
  split
  · exact placed_failed
  · split
    · exact fun _ _ _ h => nomatch h
    · split
      · exact placed_failed
      · split
        · exact placed_failed
        · exact placed_ok (hnext _)

theorem placed_newset (r' : ReadConf) (port : Int) :
    Placed (fun p q => newset ⟨r, conf, p⟩ r' port q) .seekcolentry := by
  unfold newset
  split
  · exact placed_failed
  · exact placed_ok rfl

/-- **What is done with a piece** does not depend on the place. -/
theorem placed_act (r : ReadConf) (conf : CollectionsConf) (word : Bytes) (number : Int)
    (mark : Bool) : Placed (fun p q => act E ⟨r, conf, p⟩ word number mark q)
      (nextState r.state word mark) := by
  obtain ⟨st, _, _, _, _, _, _, _, _, pcurcs, _⟩ := r
  -- what a state does with its piece, state by state
  cases st <;> dsimp only [act, nextState]
  case seekendparam => exact placed_endpoint _
  case seekcollectfn =>
    split
    · cases mark with
      | true => exact placed_ok rfl
      | false => exact placed_endpoint _
    · exact placed_failed
  case seektagorend =>
    cases mark with
    | true =>
      simp only [↓reduceIte]
      exact placed_close fun _ => rfl
    | false => exact placed_ok rfl
  case seektagname =>
    split
    · exact placed_close fun _ => rfl
    · exact placed_ok rfl
  case seekrddenpar =>
    cases pcurcs with
    | none => exact placed_failed
    | some cs => exact placed_ok rfl
  case seekconnection => exact placed_newset _ _
  case seekcollect =>
    split
    · exact placed_ok rfl
    · exact placed_failed
  case seekdeclare =>
    split
    · exact placed_ok rfl
    · split
      · exact placed_ok rfl
      · exact placed_failed
  case seekequal | seekrddtable2nd | seekmultiplier | seekrddtabledef | seekcolentry
    | seekcollectname | seekhostname | seekserverkey | seekhostbegin => exact placed_ok rfl

end

/-! ## Along a line -/

/-- What a reader looks for, and where. -/
def spot (x : Cursor) : RCState × Nat := (x.r.state, x.p)

/-- The spot behind what is seen. -/
def Sight.next (st : RCState) : Sight → Option (RCState × Nat)
  | .ended => some (st, npos)
  | .wrong _ => none
  | .piece word _ mark q => some (nextState st word mark, q)

/-- The spot behind a turn on a line. -/
def walk (E : ConfEnv) (s : Bytes) (k : RCState × Nat) : Option (RCState × Nat) :=
  (sight E s k.1 k.2).next k.1

/-- A turn on a line goes from one spot to another. -/
def Walks (E : ConfEnv) (s : Bytes) (k k' : RCState × Nat) : Prop :=
  OnLine s k.2 ∧ walk E s k = some k'

/-- A turn goes to the spot behind what it sees. -/
theorem walk_of_readstate (h : readstate E s x = .ok x') : walk E s (spot x) = some (spot x') := by
  rw [readstate_eq] at h
  unfold walk spot
  dsimp only
  -- what is done behind the piece may fail, but not go elsewhere
  cases hsee : sight E s x.r.state x.p with
  | ended =>
    rw [hsee] at h
    obtain rfl := Except.ok.inj h
    rfl
  | wrong e =>
    rw [hsee] at h
    cases h
  | piece word number mark q =>
    rw [hsee] at h
    obtain ⟨rfl, hst, -⟩ := placed_act x.r x.conf word number mark x.p q x' h
    rw [Sight.next, ← hst]

/-- A turn on a line is a step of the walk, on the same line and before the same rest. -/
theorem walks_of_turn (hin : y.InLine) (h : turn E y = .inl y') :
    Walks E y.s (spot y.toCursor) (spot y'.toCursor) ∧ y'.s = y.s ∧ y'.rest = y.rest := by
  rcases turn_eq_inl h with ⟨-, -, hs, hrest⟩ | ⟨hout, -⟩
  · exact ⟨⟨hin, walk_of_readstate (turn_inLine hin h)⟩, hs, hrest⟩
  · exact absurd hin hout

/-- A walk that comes back does so from each of its spots. -/
theorem walks_again {k k' : RCState × Nat} (h : Relation.TransGen (Walks E s) k k)
    (hstep : Walks E s k k') : Relation.TransGen (Walks E s) k' k' := by
  obtain ⟨c, hc, hback⟩ := Relation.TransGen.head'_iff.mp h
  -- the walk is deterministic: its first step is the one taken
  obtain rfl : c = k' := Option.some.inj (hc.2.symm.trans hstep.2)
  exact Relation.TransGen.tail' hback hstep

/-- **A reader that walks in a circle** does not come to the end of the text. -/
theorem not_returns_of_circle
    (h : Relation.TransGen (Walks E y.s) (spot y.toCursor) (spot y.toCursor))
    (conf : CollectionsConf) : ¬ Lib.Returns (turn E) y (.returns 0, conf) := by
  have hin : ∀ {a : Reading}, Relation.TransGen (Walks E a.s) (spot a.toCursor) (spot a.toCursor) →
      a.InLine := by
    intro a ha
    obtain ⟨c, hc, -⟩ := Relation.TransGen.head'_iff.mp ha
    exact hc.1
  intro hreturns
  obtain ⟨z, hz, hend⟩ := Lib.returns_iff.mp hreturns
  -- the circle is an invariant of the turns, and so the reader stays in its line
  have hcircle : Relation.TransGen (Walks E z.s) (spot z.toCursor) (spot z.toCursor) := by
    refine Lib.Turns.invariant (I := fun a =>
      Relation.TransGen (Walks E a.s) (spot a.toCursor) (spot a.toCursor)) (fun a b ha hab => ?_) hz h
    obtain ⟨hwalks, hs, -⟩ := walks_of_turn (hin ha) hab
    rw [hs]
    exact walks_again ha hwalks
  rcases turn_eq_inr hend with ⟨-, ⟨-, hstops⟩ | ⟨hout, -⟩⟩
  · cases hstops
  · exact hout (hin hcircle)

end Qigong.Conf
