import Qigong.Collect.Runs

/-!
# What a session leaves to the next

The connection's socket is seen here at its ends (`SocketEvent`): what `::read` gives is
cut into lines, and what stands in `bufout` is written. A session that ends in
`reconnect_hook` leaves both buffers to the next one: neither it, nor the `opencrypt` that
follows, empties them. So the next session is what it would be with empty buffers
(`StartsClean`) exactly where they are empty when the session ends
(`starts_clean_iff`); a line that is cut off runs into the first line of the next session
(`partial_line_left`).
-/

namespace Qigong.Collect

open Crypt CollectingConn
open CryptConnection (cutLines tooLong)

variable {P : Platform} {S : Scanners} {c c' : CollectingConn P}

/-! ## The ends of the socket -/

/-- What happens at the socket: the connection is polled, `::read` gives a chunk (an empty
one when the peer has hung up), a part of `bufout` is written by qiconn, or qiconn calls
`reconnect_hook`. -/
inductive SocketEvent where
  | poll (env : PollEnv)
  | readable (now : Int) (rand : Nat) (envs : Nat → LineEnv) (chunk : Bytes)
  | writable (n : Nat)
  | reconnect_hook (now : Int) (rand : Nat)

/-- What is seen of a session: the lines passed to `prelineread`, and the bytes put on the
socket. -/
inductive Seen where
  | passed (line : Bytes)
  | put (bytes : Bytes)
deriving DecidableEq, Repr

namespace CollectingConn

/-- The lines of a chunk, one after the other, up to one that is not returned from. -/
def passLines (S : Scanners) (now : Int) (envs : Nat → LineEnv) :
    CollectingConn P → List Bytes → List Seen × Option (CollectingConn P)
  | c, [] => ([], some c)
  | c, l :: ls =>
    match step S ⟨c, []⟩ (.line now (envs ls.length) l) with
    | none => ([.passed l], none)
    | some w =>
      let r := passLines S now envs w.conn ls
      (.passed l :: r.1, r.2)

/-- The end of `CryptConnection::read` (qicrypt.cpp:699–706): the line under way, and the
peer that has hung up. -/
def endRead (now : Int) (rand : Nat) (chunk bufin : Bytes) (c : CollectingConn P) :
    CollectingConn P :=
  let c := { c with crypt := { c.crypt with bufin := bufin } }
  let c := if tooLong c.crypt.maxpendsize bufin then
    { c with crypt := c.crypt.schedule_for_destruction } else c
  if chunk = [] then c.reconnect_hook now rand else c

/-- `CryptConnection::read` (qicrypt.cpp:650–708), on what `::read` gives. -/
def read (S : Scanners) (now : Int) (rand : Nat) (envs : Nat → LineEnv) (chunk : Bytes)
    (c : CollectingConn P) : List Seen × Option (CollectingConn P) :=
  let cut := cutLines c.crypt.bufin chunk
  let r := passLines S now envs c cut.1
  (r.1, r.2.map (endRead now rand chunk cut.2))

/-- qiconn writes the first bytes of `bufout`. -/
def writeOut (n : Nat) (c : CollectingConn P) : CollectingConn P :=
  { c with crypt := { c.crypt with bufout := c.crypt.bufout.drop n } }

/-- What is seen of an event, and the connection behind it. There is nothing to read or to
write where there is no socket. -/
def atSocket (S : Scanners) (c : CollectingConn P) :
    SocketEvent → List Seen × Option (CollectingConn P)
  | .poll env => ([], some (c.poll env).1)
  | .readable now rand envs chunk =>
    if 0 ≤ c.fd then c.read S now rand envs chunk else ([], none)
  | .writable n =>
    if 0 ≤ c.fd then ([.put (c.crypt.bufout.take n)], some (c.writeOut n)) else ([], none)
  | .reconnect_hook now rand => ([], some (c.reconnect_hook now rand))

/-- What is seen of a run of events. -/
def observe (S : Scanners) : CollectingConn P → List SocketEvent → List Seen
  | _, [] => []
  | c, e :: es =>
    let r := c.atSocket S e
    r.1 ++ match r.2 with
      | some c => observe S c es
      | none => []

/-- The connection with nothing left in its buffers. -/
def emptied (c : CollectingConn P) : CollectingConn P :=
  { c with crypt := { c.crypt with out := [], bufin := [], bufout := [] } }

/-- The sessions behind a `reconnect_hook` are those of a connection with empty buffers. -/
def StartsClean (S : Scanners) (now : Int) (rand : Nat) (c : CollectingConn P) : Prop :=
  ∀ es, observe S (c.reconnect_hook now rand) es = observe S (c.emptied.reconnect_hook now rand) es

end CollectingConn

/-- One event at the socket, `none` when it cannot happen or is not returned from. -/
def socketStep (S : Scanners) (c : CollectingConn P) (e : SocketEvent) : Option (CollectingConn P) :=
  (c.atSocket S e).2

/-! ## Nothing is left in `out` -/

theorem passLines_gated {now : Int} {envs : Nat → LineEnv} {ls : List Bytes} (hc : Gated c)
    (h : (c.passLines S now envs ls).2 = some c') : Gated c' := by
  induction ls generalizing c with
  | nil =>
    obtain rfl := Option.some.inj h
    exact hc
  | cons l ls ih =>
    rw [passLines] at h
    cases hs : step S ⟨c, []⟩ (.line now (envs ls.length) l) with
    | none => rw [hs] at h; cases h
    | some w =>
      rw [hs] at h
      exact ih (step_gated hc hs) h

theorem endRead_gated {now : Int} {rand : Nat} {chunk bufin : Bytes} (hc : Gated c) :
    Gated (c.endRead now rand chunk bufin) := by
  have hlast : ∀ d : CollectingConn P, Gated d →
      Gated (if chunk = [] then d.reconnect_hook now rand else d) := by
    intro d hd
    split
    · exact reconnect_hook_gated hd now rand
    · exact hd
  -- too long a line dooms the connection, and leaves its `out` alone
  refine hlast _ ?_
  split <;> exact ⟨hc.accepted, hc.talking, hc.out⟩

/-- **Step lemma**: between events nothing is left in `out`. -/
theorem socketStep_gated {e : SocketEvent} (hc : Gated c) (h : socketStep S c e = some c') :
    Gated c' := by
  unfold socketStep at h
  cases e with
  | poll env =>
    obtain rfl := Option.some.inj h
    exact (poll_gated hc env).1
  | readable now rand envs chunk =>
    rw [atSocket] at h
    split at h
    case isFalse => cases h
    case isTrue =>
      obtain ⟨d, hd, rfl⟩ := Option.map_eq_some_iff.mp h
      exact endRead_gated (passLines_gated hc hd)
  | writable n =>
    rw [atSocket] at h
    split at h
    case isFalse => cases h
    case isTrue =>
      obtain rfl := Option.some.inj h
      exact ⟨hc.accepted, hc.talking, hc.out⟩
  | reconnect_hook now rand =>
    obtain rfl := Option.some.inj h
    exact reconnect_hook_gated hc now rand

/-! ## What the next session begins with -/

/-- `reconnect_hook` leaves the buffers as they are. -/
theorem reconnect_hook_buffers (now : Int) (rand : Nat) (c : CollectingConn P) :
    (c.reconnect_hook now rand).crypt = c.crypt.closecrypt ∧
      (c.reconnect_hook now rand).state = .needtoconnect ∧
      (c.reconnect_hook now rand).is_collecting = false ∧
      c.emptied.reconnect_hook now rand = (c.reconnect_hook now rand).emptied := by
  obtain ⟨crypt, fd, lastattempt, delay_reconnect, state⟩ := c
  cases state <;> exact ⟨rfl, rfl, rfl, rfl⟩

theorem emptied_of_empty (hout : c.crypt.out = []) (hin : c.crypt.bufin = [])
    (hbufout : c.crypt.bufout = []) : c.emptied = c := by
  -- a record is what its fields are
  have heta : c = { c with crypt := { c.crypt with
      out := c.crypt.out, bufin := c.crypt.bufin, bufout := c.crypt.bufout } } := rfl
  rw [hout, hin, hbufout] at heta
  exact heta.symm

/-- A poll that connects, and draws a salt. -/
def connects (c : CollectingConn P) : PollEnv where
  now := c.lastattempt + c.delay_reconnect + 1
  newfd := 0
  urandom := some [1, 2, 3, 4]
  rand := 0

/-- The first record of a session, where nothing was left in `out`. -/
def saltRecord : Bytes := base64_encode [1, 2, 3, 4] ++ CryptConnection.recordEnd

/-- `opencrypt` adds to `bufout`, and leaves `bufin`. -/
theorem poll_connects (hs : c.state = .needtoconnect) (hcoll : c.is_collecting = false)
    (htd : c.crypt.tdout = none) (hout : c.crypt.out = []) :
    (c.poll (connects c)).1.fd = 0 ∧
      (c.poll (connects c)).1.crypt.bufin = c.crypt.bufin ∧
      (c.poll (connects c)).1.crypt.bufout = c.crypt.bufout ++ saltRecord := by
  have hwake : c.wake (connects c) = (c, []) := by
    unfold wake
    rw [if_neg (by simp [hcoll])]
  have hdelay : c.delay_reconnect < (connects c).now - c.lastattempt := by
    simp only [connects]
    omega
  have hflush := CryptConnection.flush_clear (c := { c.crypt with
    salt1 := [1, 2, 3, 4], out := c.crypt.out ++ [1, 2, 3, 4], challenging := .WaitingRemoteSalt })
    htd (.inl rfl)
  -- the salt is all there is to flush
  have hopen : c.crypt.opencrypt (connects c).urandom = _ := hflush
  unfold CollectingConn.poll
  simp only [hwake, hs]
  have hfd : 0 ≤ (connects c).newfd := Int.le_refl 0
  rw [pollConnect, if_pos hdelay, if_pos hfd]
  dsimp only
  rw [hopen]
  refine ⟨rfl, rfl, ?_⟩
  dsimp only
  rw [hout]
  rfl

/-- What a connection puts on its socket first is what stands in its `bufout`. -/
theorem observe_put (hs : c.state = .needtoconnect) (hcoll : c.is_collecting = false)
    (htd : c.crypt.tdout = none) (hout : c.crypt.out = []) (n : Nat) :
    observe S c [.poll (connects c), .writable n]
      = [.put ((c.crypt.bufout ++ saltRecord).take n)] := by
  obtain ⟨hfd, -, hbuf⟩ := poll_connects hs hcoll htd hout
  have hlive : 0 ≤ (c.poll (connects c)).1.fd := hfd ▸ Int.le_refl 0
  simp only [observe, atSocket, if_pos hlive, hbuf, List.nil_append, List.append_nil]

/-- The first line it passes on begins with what stands in its `bufin`. -/
theorem observe_passed (hs : c.state = .needtoconnect) (hcoll : c.is_collecting = false)
    (htd : c.crypt.tdout = none) (hout : c.crypt.out = []) (envs : Nat → LineEnv) :
    (observe S c [.poll (connects c), .readable 0 0 envs [10]]).head?
      = some (.passed c.crypt.bufin) := by
  obtain ⟨hfd, hbuf, -⟩ := poll_connects hs hcoll htd hout
  -- a line end alone ends the line under way
  have hcut : cutLines c.crypt.bufin [10] = ([c.crypt.bufin], []) := by
    rw [cutLines, if_pos (by decide)]
  have hlive : 0 ≤ (c.poll (connects c)).1.fd := hfd ▸ Int.le_refl 0
  simp only [observe, atSocket, if_pos hlive, List.nil_append, CollectingConn.read, hbuf, hcut,
    passLines]
  cases step S ⟨(c.poll (connects c)).1, []⟩ (.line 0 (envs [].length) c.crypt.bufin) <;> rfl

/-- **A new session starts clean exactly where the old one left nothing** in its buffers:
every line received was ended, and all that was flushed was written. -/
theorem starts_clean_iff {key : Option QiCrKey} {crypt : CryptConnection P}
    (hcrypt : CryptConnection.withKey P key = .ok crypt) (t₀ : Int) (sets : List CollectionSet)
    {es : List SocketEvent}
    (h : Lib.run (socketStep S) (start t₀ crypt sets).conn es = some c) (now : Int) (rand : Nat) :
    StartsClean S now rand c ↔ c.crypt.bufin = [] ∧ c.crypt.bufout = [] := by
  have hstart : Gated (start t₀ crypt sets).conn := (start_sound hcrypt t₀ sets).1
  have hg : Gated c := Lib.run_invariant (fun _ _ _ hd he => socketStep_gated hd he) hstart h
  constructor
  · intro hclean
    obtain ⟨hcr, hs, hcoll, hemp⟩ := reconnect_hook_buffers now rand c
    -- what the hook leaves: the buffers as they were, no cipher, nothing in `out`
    set d := c.reconnect_hook now rand with hd
    have hin : d.crypt.bufin = c.crypt.bufin := by rw [hcr]; rfl
    have hout : d.crypt.bufout = c.crypt.bufout := by rw [hcr]; rfl
    have htd : d.crypt.tdout = none := by rw [hcr]; rfl
    have hnone : d.crypt.out = [] := by rw [hcr]; exact hg.out
    unfold StartsClean at hclean
    rw [hemp, ← hd] at hclean
    constructor
    · -- a line end shows what `bufin` held
      have hseen := congrArg List.head?
        (hclean [.poll (connects d), .readable 0 0 (fun _ => fairEnv [] []) [10]])
      rw [observe_passed hs hcoll htd hnone,
        show connects d = connects d.emptied from rfl,
        observe_passed (c := d.emptied) hs hcoll htd rfl] at hseen
      rw [← hin]
      exact Seen.passed.inj (Option.some.inj hseen)
    · -- the first write shows what `bufout` held
      have hseen := hclean [.poll (connects d), .writable (d.crypt.bufout ++ saltRecord).length]
      rw [observe_put hs hcoll htd hnone, show connects d = connects d.emptied from rfl,
        observe_put (c := d.emptied) hs hcoll htd rfl] at hseen
      have hbytes := Seen.put.inj (List.cons.inj hseen).1
      have hlen := congrArg List.length hbytes
      rw [List.take_length] at hlen
      simp only [emptied, List.nil_append, List.length_take, List.length_append] at hlen
      rw [← hout, List.eq_nil_iff_length_eq_zero]
      omega
  · rintro ⟨hin, hout⟩ es
    rw [emptied_of_empty hg.out hin hout]

/-- The connection is polled at a time, and connects. -/
def connectsAt (now : Int) : SocketEvent := .poll ⟨now, 4, some [1, 2, 3, 4], 0⟩

/-- A session of which all was written starts the next one clean. -/
theorem starts_clean_iff_written :
    ∃ c, Lib.run (socketStep sampleScanners) (start 1000 plainSupplicant [sampleSet]).conn
        [connectsAt 1000, .writable 100] = some c ∧ StartsClean sampleScanners 1001 0 c := by
  have hany : (Lib.run (socketStep sampleScanners) (start 1000 plainSupplicant [sampleSet]).conn
      [connectsAt 1000, .writable 100]).any
        (fun c => decide (c.crypt.bufin = [] ∧ c.crypt.bufout = [])) = true := by
    decide +kernel
  obtain ⟨c, h, hc⟩ := (Option.any_eq_true _ _).mp hany
  have hcrypt : CryptConnection.withKey plainPlatform (some sampleKey) = .ok plainSupplicant := rfl
  exact ⟨c, h, (starts_clean_iff hcrypt 1000 [sampleSet] h 1001 0).mpr (of_decide_eq_true hc)⟩

/-- The peer hangs up in the midst of a line. -/
def cutOff : List SocketEvent :=
  [connectsAt 1000, .writable 100, .readable 1001 0 (fun _ => fairEnv [] []) (str "abc")]

/-- **A line that is cut off is the beginning of the next session's first line.** -/
theorem partial_line_left :
    ¬ ∀ (P : Platform) (S : Scanners) (key : Option QiCrKey) (crypt : CryptConnection P)
      (sets : List CollectionSet) (es : List SocketEvent) (c : CollectingConn P) (t₀ now : Int)
      (rand : Nat), CryptConnection.withKey P key = .ok crypt →
      Lib.run (socketStep S) (start t₀ crypt sets).conn es = some c → StartsClean S now rand c := by
  intro hall
  let es := [connectsAt 2000, .readable 2000 0 (fun _ => fairEnv [] []) [10]]
  have hany : (Lib.run (socketStep sampleScanners) (start 1000 plainSupplicant [sampleSet]).conn
      cutOff).any (fun c => decide (
        (observe sampleScanners (c.reconnect_hook 1002 0) es).head? = some (.passed (str "abc")) ∧
        (observe sampleScanners (c.emptied.reconnect_hook 1002 0) es).head? = some (.passed [])))
      = true := by
    decide +kernel
  obtain ⟨c, h, hc⟩ := (Option.any_eq_true _ _).mp hany
  obtain ⟨hleft, hclean⟩ := of_decide_eq_true hc
  have hcrypt : CryptConnection.withKey plainPlatform (some sampleKey) = .ok plainSupplicant := rfl
  rw [hall _ _ _ _ _ _ c _ 1002 0 hcrypt h es, hclean] at hleft
  exact absurd hleft (by decide)

end Qigong.Collect
