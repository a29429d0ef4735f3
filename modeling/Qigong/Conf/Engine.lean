import Mathlib.Data.Finset.Card
import Mathlib.Data.Prod.Lex
import Qigong.Collect.Runs
import Qigong.Conf.Remote
import Qigong.Lib.OrdMap

/-!
# `CollectionsConfEngine` (qicollect.h:186–196, qicollect.cpp:1121–1141)

`startnpoll` makes the connections for a configuration: one for each machine and port that
its sets name, and a set is bound to and assigned in the connection of its own
(`startnpoll_plan`).

A pointer to a connection is the place of the connection in the order in which they are
pushed. The machine and the port that the connections pushed were made for, in that order,
are numbered by `mpcc` (`Lib.Numbers`); what each connection holds is said for every part of
the sets that the loop has placed (`Serves`, `Linked`).
-/

namespace Qigong.Conf

open Collect (CollectingConn)
open Crypt (Platform QiCrKey CryptConnection)

/-- `FQDNPort`, of qiconn. -/
structure FQDNPort where
  fqdn : Bytes
  port : Int
deriving Repr

/-- By the name, and then by the port. -/
instance : LinearOrder FQDNPort :=
  .lift' (fun fp => toLex (fp.fqdn, fp.port)) fun fp fp' h => by
    obtain ⟨fqdn, port⟩ := fp
    obtain ⟨fqdn', port'⟩ := fp'
    obtain ⟨rfl, rfl⟩ := Prod.mk.inj (toLex_inj.mp h)
    rfl

def CollectionSet.get_fqdnport (cs : CollectionSet) : FQDNPort := ⟨cs.fqdn, cs.port⟩

/-! ## Configurations -/

/-- A `CollectionsConf` as `push_back` builds it: each set stands under its full key. -/
structure KeyedConf where
  mpcs : CollectionsConf
  keyed : ∀ k cs, mpcs.find? k = some cs → cs.fullkey = k

namespace KeyedConf

/-- The configuration without sets. -/
def empty : KeyedConf := ⟨.empty, fun _ _ h => (nomatch h)⟩

/-- `push_back` on it; a set whose full key is taken is refused. -/
def push_back (conf : KeyedConf) (cs : CollectionSet) : KeyedConf where
  mpcs := (conf.mpcs.push_back cs).getD conf.mpcs
  keyed k cs' h := by
    cases hpush : conf.mpcs.push_back cs with
    | none =>
      rw [hpush] at h
      exact conf.keyed k cs' h
    | some mpcs =>
      obtain ⟨-, rfl⟩ := CollectionsConf.push_back_eq_some.mp hpush
      rw [hpush, Option.getD_some, Lib.OrdMap.find?_insert] at h
      split at h
      case isTrue hk => rw [← Option.some.inj h, hk]
      case isFalse => exact conf.keyed k cs' h

/-- The sets, in the order of their full keys. -/
def sets (conf : KeyedConf) : List CollectionSet := conf.mpcs.entries.map Prod.snd

theorem fullkeys (conf : KeyedConf) : conf.sets.map CollectionSet.fullkey = conf.mpcs.keys := by
  rw [sets, List.map_map, Lib.OrdMap.keys]
  exact List.map_congr_left fun e he => conf.keyed e.1 e.2 (Lib.OrdMap.find?_eq_some_iff.mpr he)

theorem fullkeys_nodup (conf : KeyedConf) : (conf.sets.map CollectionSet.fullkey).Nodup := by
  rw [conf.fullkeys]
  exact conf.mpcs.keys_nodup

end KeyedConf

/-! ## The engine -/

variable {P : Platform}

/-- `s.c_str ()`, read as a string again. -/
def c_str (s : Bytes) : Bytes := s.takeWhile (· != 0)

theorem c_str_eq_self {s : Bytes} (h : 0 ∉ s) : c_str s = s :=
  List.takeWhile_eq_self_iff.mpr fun _ hc => bne_iff_ne.mpr fun heq => h (heq ▸ hc)

/-- A connection of the pool, with the machine and the port that it is for. -/
structure Pooled (P : Platform) where
  fqdn : Bytes
  port : Int
  conn : CollectingConn P

/-- `CollectionsConfEngine`, with what its sets and its pool are given: `pcc` is the
connection that the set of a full key is bound to, `pool` the connections pushed. -/
structure CollectionsConfEngine (P : Platform) where
  pcc : Lib.OrdMap Bytes Nat
  mpcc : Lib.OrdMap FQDNPort Nat
  pool : List (Pooled P)

/-- What the loop finds: the clock where the `n`-th connection is made, and the key of a
set. -/
structure EngineEnv where
  now : Nat → Int
  get_qicrkey : CollectionSet → Option QiCrKey

/-- `CollectingConn::assign`, of a connection in the pool. -/
def Pooled.assign (c : Pooled P) (cs : CollectionSet) : Pooled P :=
  { c with conn := c.conn.assign cs.collecting }

namespace CollectionsConfEngine

/-- An engine without connections, none of whose sets is bound. -/
def fresh (P : Platform) : CollectionsConfEngine P := ⟨.empty, .empty, []⟩

/-- `bindcc` and `assign`, with the `i`-th connection. -/
def bindTo (e : CollectionsConfEngine P) (i : Nat) (cs : CollectionSet) :
    CollectionsConfEngine P :=
  { e with pcc := e.pcc.insert cs.fullkey i, pool := e.pool.modify i fun c => c.assign cs }

/-- One turn of the loop of `startnpoll` (qicollect.cpp:1126–1139). -/
def place (env : EngineEnv) (e : CollectionsConfEngine P) (cs : CollectionSet) :
    Except Exn (CollectionsConfEngine P) :=
  match e.mpcc.find? cs.get_fqdnport with
  | none =>
    (CryptConnection.withKey P (env.get_qicrkey cs)).map fun crypt =>
      let pcc : Pooled P :=
        { fqdn := c_str cs.get_fqdnport.fqdn, port := cs.get_fqdnport.port,
          conn := .construct (env.now e.pool.length) crypt }
      let i := e.pool.length
      { e with mpcc := e.mpcc.insert cs.get_fqdnport i, pool := e.pool ++ [pcc] }.bindTo i cs
  | some i => .ok (e.bindTo i cs)

/-- `CollectionsConfEngine::startnpoll`. -/
def startnpoll (env : EngineEnv) (conf : KeyedConf) (e : CollectionsConfEngine P) :
    Except Exn (CollectionsConfEngine P) :=
  conf.sets.foldlM (place env) e

end CollectionsConfEngine

/-! ## What a connection is given -/

/-- The set as it is in a connection. -/
def CollectionSet.assigned (cs : CollectionSet) : Collect.CollectionSet :=
  { cs.collecting with state := .del_remote_for_create }

/-- The connection is the one for `fp`, and holds the sets of `fp` among those placed. -/
structure Serves (placed : List CollectionSet) (fp : FQDNPort) (c : Pooled P) : Prop where
  fqdn : c.fqdn = c_str fp.fqdn
  port : c.port = fp.port
  pending : (∃ cs ∈ placed, cs.get_fqdnport = fp) → c.conn.pending = true
  mpcs : ∀ k s, c.conn.mpcs.find? k = some s ↔
    ∃ cs ∈ placed, cs.fullkey = k ∧ cs.get_fqdnport = fp ∧ cs.assigned = s
  started : ∃ now crypt, c.conn = (Collect.start now crypt
    ((placed.filter fun cs => cs.get_fqdnport = fp).map CollectionSet.collecting)).conn

namespace Serves

variable {placed : List CollectionSet} {fp : FQDNPort} {c : Pooled P} {cs : CollectionSet}

/-- A connection that is made holds nothing, and no set was there for it. -/
theorem construct (hfp : ∀ cs ∈ placed, cs.get_fqdnport ≠ fp) (now : Int)
    (crypt : CryptConnection P) :
    Serves placed fp ⟨c_str fp.fqdn, fp.port, .construct now crypt⟩ where
  fqdn := rfl
  port := rfl
  pending := fun ⟨cs, hcs, heq⟩ => absurd heq (hfp cs hcs)
  mpcs k s := ⟨fun h => (nomatch h), fun ⟨cs, hcs, _, heq, _⟩ => absurd heq (hfp cs hcs)⟩
  started := by
    refine ⟨now, crypt, ?_⟩
    rw [List.filter_eq_nil_iff.mpr fun cs hcs => by simpa using hfp cs hcs]
    rfl

/-- A set of `fp` that is assigned. -/
theorem assign (h : Serves placed fp c) (hfp : cs.get_fqdnport = fp)
    (hnew : ∀ cs' ∈ placed, cs'.fullkey ≠ cs.fullkey) :
    Serves (placed ++ [cs]) fp (c.assign cs) where
  fqdn := h.fqdn
  port := h.port
  pending _ := rfl
  mpcs k s := by
    show (c.conn.mpcs.insert cs.fullkey cs.assigned).find? k = some s ↔ _
    rw [Lib.OrdMap.find?_insert]
    constructor
    · intro hk
      split at hk
      case isTrue heq =>
        exact ⟨cs, List.mem_append_right _ List.mem_cons_self, heq.symm, hfp, Option.some.inj hk⟩
      case isFalse =>
        obtain ⟨cs', hmem, hcs'⟩ := (h.mpcs k s).mp hk
        exact ⟨cs', List.mem_append_left _ hmem, hcs'⟩
    · rintro ⟨cs', hmem, rfl, hfp', rfl⟩
      rcases List.mem_append.mp hmem with hmem | hmem
      · rw [if_neg (hnew cs' hmem)]
        exact (h.mpcs _ _).mpr ⟨cs', hmem, rfl, hfp', rfl⟩
      · obtain rfl := List.mem_singleton.mp hmem
        rw [if_pos rfl]
  started := by
    obtain ⟨now, crypt, hc⟩ := h.started
    have hlast : [cs].filter (fun cs => cs.get_fqdnport = fp) = [cs] := by simp [hfp]
    refine ⟨now, crypt, ?_⟩
    rw [List.filter_append, hlast, List.map_append]
    show c.conn.assign cs.collecting = List.foldl _ _ _
    rw [List.foldl_append, hc]
    rfl

/-- A set of another machine or port changes nothing. -/
theorem other (h : Serves placed fp c) (hfp : cs.get_fqdnport ≠ fp) :
    Serves (placed ++ [cs]) fp c := by
  have hsame : ∀ Q : CollectionSet → Prop,
      (∃ cs' ∈ placed ++ [cs], cs'.get_fqdnport = fp ∧ Q cs')
        ↔ ∃ cs' ∈ placed, cs'.get_fqdnport = fp ∧ Q cs' := by
    intro Q
    constructor
    · rintro ⟨cs', hmem, heq, hQ⟩
      rcases List.mem_append.mp hmem with hmem | hmem
      · exact ⟨cs', hmem, heq, hQ⟩
      · exact absurd (List.mem_singleton.mp hmem ▸ heq) hfp
    · rintro ⟨cs', hmem, hcs'⟩
      exact ⟨cs', List.mem_append_left _ hmem, hcs'⟩
  refine ⟨h.fqdn, h.port, fun hex => h.pending ?_, fun k s => (h.mpcs k s).trans ?_, ?_⟩
  · simpa using (hsame fun _ => True).mp (by simpa using hex)
  · have hswap := hsame fun cs' => cs'.fullkey = k ∧ cs'.assigned = s
    simpa only [and_left_comm] using hswap.symm
  · have hnone : [cs].filter (fun cs => cs.get_fqdnport = fp) = [] := by simp [hfp]
    rw [List.filter_append, hnone, List.append_nil]
    exact h.started

end Serves

/-! ## The loop -/

/-- The sets and the connections are linked both ways: `mpcc` numbers what the connections are
for, each serves its own, and a set placed is bound to the connection for it. -/
structure Linked (placed : List CollectionSet) (fps : List FQDNPort)
    (e : CollectionsConfEngine P) : Prop where
  numbers : Lib.Numbers e.mpcc fps
  length : e.pool.length = fps.length
  mem : ∀ fp, fp ∈ fps ↔ ∃ cs ∈ placed, cs.get_fqdnport = fp
  serves : ∀ (i : Nat) fp c, fps[i]? = some fp → e.pool[i]? = some c → Serves placed fp c
  pcc : ∀ cs ∈ placed, e.pcc.find? cs.fullkey = e.mpcc.find? cs.get_fqdnport

namespace Linked

variable {placed : List CollectionSet} {fps : List FQDNPort} {e e' : CollectionsConfEngine P}
  {cs : CollectionSet} {env : EngineEnv} {i : Nat}

theorem fresh (P : Platform) : Linked [] [] (CollectionsConfEngine.fresh P) where
  numbers := .empty
  length := rfl
  mem fp := by simp
  serves i fp c h := (nomatch h)
  pcc cs h := (nomatch h)

/-- A set is bound to the connection that is there for it, and assigned in it. -/
theorem bindTo (hnumbers : Lib.Numbers e.mpcc fps) (hlength : e.pool.length = fps.length)
    (hmem : ∀ fp, fp ∈ fps ↔ (∃ cs' ∈ placed, cs'.get_fqdnport = fp) ∨ cs.get_fqdnport = fp)
    (hserves : ∀ (j : Nat) fp c, fps[j]? = some fp → e.pool[j]? = some c → Serves placed fp c)
    (hpcc : ∀ cs' ∈ placed, e.pcc.find? cs'.fullkey = e.mpcc.find? cs'.get_fqdnport)
    (hi : e.mpcc.find? cs.get_fqdnport = some i)
    (hnew : ∀ cs' ∈ placed, cs'.fullkey ≠ cs.fullkey) :
    Linked (placed ++ [cs]) fps (e.bindTo i cs) where
  numbers := hnumbers
  length := (List.length_modify _ _ _).trans hlength
  mem fp := by
    rw [hmem]
    simp only [List.mem_append, List.mem_singleton, or_and_right, exists_or, exists_eq_left]
  serves j fp c hj hc := by
    have hget : (e.pool.modify i fun c => c.assign cs)[j]? = some c := hc
    rw [List.getElem?_modify] at hget
    obtain ⟨c₀, hc₀, rfl⟩ := Option.map_eq_some_iff.mp hget
    have hs := hserves j fp c₀ hj hc₀
    by_cases heq : i = j
    · subst heq
      have hfp : cs.get_fqdnport = fp := by
        rw [(hnumbers _ _).mp hi] at hj
        exact Option.some.inj hj
      rw [if_pos rfl]
      exact hs.assign hfp hnew
    · rw [if_neg heq]
      refine hs.other fun hfp => heq ?_
      rw [hfp, (hnumbers _ _).mpr hj] at hi
      exact (Option.some.inj hi).symm
  pcc cs' hcs' := by
    show (e.pcc.insert cs.fullkey i).find? cs'.fullkey = e.mpcc.find? cs'.get_fqdnport
    rw [Lib.OrdMap.find?_insert]
    rcases List.mem_append.mp hcs' with hcs' | hcs'
    · rw [if_neg (hnew cs' hcs'), hpcc cs' hcs']
    · obtain rfl := List.mem_singleton.mp hcs'
      rw [if_pos rfl, hi]

/-- **Step lemma**: a turn of the loop keeps the links. -/
theorem place (h : Linked placed fps e) (hnew : ∀ cs' ∈ placed, cs'.fullkey ≠ cs.fullkey)
    (hplace : e.place env cs = .ok e') : ∃ fps', Linked (placed ++ [cs]) fps' e' := by
  unfold CollectionsConfEngine.place at hplace
  cases hfind : e.mpcc.find? cs.get_fqdnport with
  | some i =>
    rw [hfind] at hplace
    obtain rfl := Except.ok.inj hplace
    refine ⟨fps, bindTo h.numbers h.length (fun fp => ?_) h.serves h.pcc hfind hnew⟩
    have hin : cs.get_fqdnport ∈ fps := h.numbers.mem_iff.mpr ⟨i, hfind⟩
    rw [h.mem, or_iff_left_of_imp]
    rintro rfl
    exact (h.mem _).mp hin
  | none =>
    rw [hfind] at hplace
    obtain ⟨crypt, -, rfl⟩ := map_eq_ok.mp hplace
    have hnot : ∀ cs' ∈ placed, cs'.get_fqdnport ≠ cs.get_fqdnport := fun cs' hcs' heq =>
      h.numbers.not_mem hfind ((h.mem _).mpr ⟨cs', hcs', heq⟩)
    have hpush := h.numbers.push hfind
    rw [← h.length] at hpush
    refine ⟨fps ++ [cs.get_fqdnport], bindTo hpush ?_ (fun fp => ?_) (fun j fp c hj hc => ?_)
      (fun cs' hcs' => ?_) (Lib.OrdMap.find?_insert_self _ _ _) hnew⟩
    · simp [h.length]
    · rw [List.mem_append, List.mem_singleton, h.mem, eq_comm (a := fp)]
    · -- the new connection is the last one
      by_cases hlt : j < fps.length
      · rw [List.getElem?_append_left hlt] at hj
        rw [List.getElem?_append_left (h.length ▸ hlt)] at hc
        exact h.serves j fp c hj hc
      · rw [List.getElem?_append_right (Nat.le_of_not_lt hlt)] at hj
        rw [List.getElem?_append_right (h.length ▸ Nat.le_of_not_lt hlt)] at hc
        obtain rfl := List.mem_singleton.mp (List.mem_of_getElem? hj)
        obtain rfl := List.mem_singleton.mp (List.mem_of_getElem? hc)
        exact .construct hnot _ _
    · exact (h.pcc cs' hcs').trans (Lib.OrdMap.find?_insert_other _ (hnot cs' hcs')).symm

/-- **Run lemma**: behind the loop, all its sets are linked. -/
theorem startnpoll {sets : List CollectionSet} (h : Linked placed fps e)
    (hnodup : ((placed ++ sets).map CollectionSet.fullkey).Nodup)
    (hrun : sets.foldlM (CollectionsConfEngine.place env) e = .ok e') :
    ∃ fps', Linked (placed ++ sets) fps' e' := by
  induction sets generalizing placed fps e with
  | nil =>
    obtain rfl := Except.ok.inj hrun
    exact ⟨fps, by rwa [List.append_nil]⟩
  | cons cs sets ih =>
    obtain ⟨e₁, hplace, hrest⟩ := bind_eq_ok.mp hrun
    rw [List.append_cons] at hnodup ⊢
    have hnew : ∀ cs' ∈ placed, cs'.fullkey ≠ cs.fullkey := by
      intro cs' hcs'
      rw [List.map_append, List.map_append] at hnodup
      have hdisj := (List.nodup_append.mp hnodup.of_append_left).2.2
      exact hdisj _ (List.mem_map_of_mem hcs') _ List.mem_cons_self
    obtain ⟨fps₁, h₁⟩ := h.place hnew hplace
    exact ih h₁ hnodup hrest

end Linked

/-- The loop comes to its end where the keys of the sets can be printed, or are not. -/
theorem startnpoll_returns {env : EngineEnv} {sets : List CollectionSet}
    (hkeys : ∀ cs ∈ sets, ∃ crypt, CryptConnection.withKey P (env.get_qicrkey cs) = .ok crypt)
    (e : CollectionsConfEngine P) :
    ∃ e', sets.foldlM (CollectionsConfEngine.place env) e = .ok e' := by
  induction sets generalizing e with
  | nil => exact ⟨e, rfl⟩
  | cons cs sets ih =>
    obtain ⟨e₁, he₁⟩ : ∃ e₁, e.place env cs = .ok e₁ := by
      unfold CollectionsConfEngine.place
      obtain ⟨crypt, hcrypt⟩ := hkeys cs List.mem_cons_self
      cases e.mpcc.find? cs.get_fqdnport with
      | none => exact ⟨_, map_eq_ok.mpr ⟨crypt, hcrypt, rfl⟩⟩
      | some i => exact ⟨_, rfl⟩
    obtain ⟨e', he'⟩ := ih (fun cs' hcs' => hkeys cs' (List.mem_cons_of_mem _ hcs')) e₁
    exact ⟨e', bind_eq_ok.mpr ⟨e₁, he₁, he'⟩⟩

/-- **What each connection is to begin with**: the connection that is assigned the sets of its
machine and port, one after the other. -/
theorem startnpoll_starts {env : EngineEnv} {conf : KeyedConf} {e : CollectionsConfEngine P}
    (h : CollectionsConfEngine.startnpoll env conf (.fresh P) = .ok e) {i : Nat} {c : Pooled P}
    (hc : e.pool[i]? = some c) : ∃ fp now crypt, e.mpcc.find? fp = some i ∧
      c.conn = (Collect.start now crypt
        ((conf.sets.filter fun cs => cs.get_fqdnport = fp).map CollectionSet.collecting)).conn := by
  obtain ⟨fps, hl⟩ : ∃ fps, Linked conf.sets fps e :=
    (Linked.fresh P).startnpoll conf.fullkeys_nodup h
  have hi : i < fps.length := hl.length ▸ (List.getElem?_eq_some_iff.mp hc).1
  have hfp := List.getElem?_eq_getElem hi
  obtain ⟨now, crypt, hstart⟩ := (hl.serves i _ c hfp hc).started
  exact ⟨fps[i], now, crypt, (hl.numbers _ _).mpr hfp, hstart⟩

/-- **The plan of the connections**: as many are pushed as the sets name machines and ports.
Every set is bound to the one that is for its own machine and port, which is to set it up
under its full key and has work pending, and no other holds a set of that name. -/
theorem startnpoll_plan {env : EngineEnv} {conf : KeyedConf} {e : CollectionsConfEngine P}
    (h : CollectionsConfEngine.startnpoll env conf (.fresh P) = .ok e) :
    e.pool.length = (conf.sets.map CollectionSet.get_fqdnport).toFinset.card ∧
    ∀ cs ∈ conf.sets, ∃ i c, e.mpcc.find? cs.get_fqdnport = some i ∧
      e.pcc.find? cs.fullkey = some i ∧ e.pool[i]? = some c ∧
      c.fqdn = c_str cs.fqdn ∧ (0 ∉ cs.fqdn → c.fqdn = cs.fqdn) ∧ c.port = cs.port ∧
      c.conn.mpcs.find? cs.fullkey = some { cs.collecting with state := .del_remote_for_create } ∧
      c.conn.pending = true ∧
      ∀ j d, e.pool[j]? = some d → d.conn.mpcs.contains cs.fullkey = true → j = i := by
  obtain ⟨fps, hl⟩ : ∃ fps, Linked conf.sets fps e :=
    (Linked.fresh P).startnpoll conf.fullkeys_nodup h
  constructor
  · rw [hl.length, ← List.toFinset_card_of_nodup hl.numbers.nodup]
    congr 1
    ext fp
    rw [List.mem_toFinset, List.mem_toFinset, hl.mem, List.mem_map]
  · intro cs hcs
    obtain ⟨i, hi⟩ := hl.numbers.mem_iff.mp ((hl.mem _).mpr ⟨cs, hcs, rfl⟩)
    have hlt : i < e.pool.length := hl.length ▸ hl.numbers.lt_length hi
    have hs := hl.serves i _ _ ((hl.numbers _ _).mp hi) (List.getElem?_eq_getElem hlt)
    refine ⟨i, e.pool[i], hi, (hl.pcc cs hcs).trans hi, List.getElem?_eq_getElem hlt, hs.fqdn,
      fun hnul => hs.fqdn.trans (c_str_eq_self hnul), hs.port,
      (hs.mpcs _ _).mpr ⟨cs, hcs, rfl, rfl, rfl⟩, hs.pending ⟨cs, hcs, rfl⟩, fun j d hd hk => ?_⟩
    -- what holds a set of that name is for the machine and the port of this one
    obtain ⟨s, hfind⟩ := Lib.OrdMap.contains_iff.mp hk
    have hj : j < fps.length := hl.length ▸ (List.getElem?_eq_some_iff.mp hd).1
    have hj' := List.getElem?_eq_getElem hj
    obtain ⟨cs', hcs', hkey, hfp, -⟩ := ((hl.serves j _ d hj' hd).mpcs _ _).mp hfind
    obtain rfl : cs' = cs := List.inj_on_of_nodup_map conf.fullkeys_nodup hcs' hcs hkey
    rw [← hfp, ← hl.numbers, hi] at hj'
    exact (Option.some.inj hj').symm

/-- Two sets of one machine, and one of the same machine on another port. -/
def sampleSets : KeyedConf :=
  ((KeyedConf.empty.push_back (.make [] (str "load") (str "web") (str "host") 1264)).push_back
    (.make [] (str "disk") (str "web") (str "host") 1264)).push_back
    (.make [] (str "load") (str "db") (str "host") 1265)

theorem startnpoll_plan_sample :
    ∃ e, CollectionsConfEngine.startnpoll ⟨fun _ => 0, fun _ => none⟩ sampleSets
      (.fresh Crypt.samplePlatform) = .ok e ∧ e.pool.length = 2 := by
  obtain ⟨e, he⟩ : ∃ e, CollectionsConfEngine.startnpoll ⟨fun _ => 0, fun _ => none⟩ sampleSets
      (.fresh Crypt.samplePlatform) = .ok e := startnpoll_returns (fun _ _ => ⟨_, rfl⟩) _
  exact ⟨e, he, (startnpoll_plan he).1.trans (by decide +kernel)⟩

end Qigong.Conf
