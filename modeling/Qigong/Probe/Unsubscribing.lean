import Qigong.Probe.Answers

/-!
# Unsubscribing (qigong.cpp:341–361)

`unsub` looks a name up in `mrecordsets`, and then erases the set from `subs` where it finds
it there, without looking whether it does. So a name whose set the connection is not
subscribed to, or is not any more, erases the end iterator; every other command line takes
exactly the sets it names out of the connection's subscriptions, on both sides, and counts
them (`unsubscribe_iff`).
-/

namespace Qigong.Probe

open Globals

variable {S : Scanners} {B : Build} {env : Env} {g g' : Globals} {pcc : ConnId}
variable {blank ident : UInt8 → Bool}

/-! ## One identifier -/

theorem any_subs_iff {prs : SetId} :
    (g.conns.find? pcc).any (fun c => c.subs.contains prs) = true ↔ g.Subscribes pcc prs := by
  unfold Subscribes Globals.subs
  cases g.conns.find? pcc with
  | none => exact ⟨fun h => (nomatch h), fun ⟨_, h, _⟩ => (nomatch h)⟩
  | some c => simp

/-- Where the connection is subscribed, `remove_subs` erases on both sides. -/
theorem remove_subs_ok {prs : SetId} (hl : Linked g) (h : g.Subscribes pcc prs) :
    ∃ g', g.remove_subs pcc prs = .ok g' := by
  obtain ⟨rs, hr, -⟩ := (hl.channels prs pcc).mpr h
  unfold Globals.remove_subs Globals.remove_channel
  rw [if_pos (any_subs_iff.mpr h), if_pos (Lib.OrdMap.contains_iff.mpr ⟨rs, hr⟩)]
  exact ⟨_, rfl⟩

theorem subscribes_of_remove_subs {prs : SetId} (h : g.remove_subs pcc prs = .ok g') :
    g.Subscribes pcc prs ∧ ∀ pcc' prs', g'.Subscribes pcc' prs' ↔
      g.Subscribes pcc' prs' ∧ ¬ (pcc' = pcc ∧ prs' = prs) := by
  constructor
  · unfold Globals.remove_subs at h
    split at h
    case isTrue hany => exact any_subs_iff.mp hany
    case isFalse => cases h
  · intro pcc' prs'
    obtain rfl := remove_subs_eq h
    rw [subscribes_modify (f := fun m => m.erase prs)]
    unfold Subscribes
    constructor
    · rintro ⟨m, hm, hc⟩
      split at hc
      case isTrue hpcc =>
        obtain ⟨hne, hc⟩ := Lib.OrdMap.contains_erase.mp hc
        exact ⟨⟨m, hm, hc⟩, fun hx => hne hx.2⟩
      case isFalse hpcc => exact ⟨⟨m, hm, hc⟩, fun hx => hpcc hx.1⟩
    · rintro ⟨⟨m, hm, hc⟩, hne⟩
      refine ⟨m, hm, ?_⟩
      split
      case isTrue hpcc => exact Lib.OrdMap.contains_erase.mpr ⟨fun hx => hne ⟨hpcc, hx⟩, hc⟩
      case isFalse => exact hc

/-- What `unsub` does with one identifier. -/
def unsubOne : ConnId → Globals → Bytes → Except Exn (Globals × Bool) :=
  subsOne remove_subs (str "unsubscribed to  ")

/-- It takes the set of that name, if there is one, out of the subscriptions. -/
theorem unsubOne_cases {i : Bytes} {x : Globals × Bool} (h : unsubOne pcc g i = .ok x) :
    (∃ text, Says pcc text g x.1) ∧ x.1.mrecordsets = g.mrecordsets ∧
      x.2 = (g.mrecordsets.find? i).isSome ∧
      (∀ prs, g.mrecordsets.find? i = some prs → g.Subscribes pcc prs) ∧
      ∀ pcc' prs, x.1.Subscribes pcc' prs ↔
        g.Subscribes pcc' prs ∧ ¬ (pcc' = pcc ∧ g.mrecordsets.find? i = some prs) := by
  unfold unsubOne subsOne at h
  cases hn : g.mrecordsets.find? i with
  | none =>
    rw [hn] at h
    obtain rfl := Except.ok.inj h
    refine ⟨⟨_, says_write g pcc _⟩, rfl, rfl, fun _ hx => (nomatch hx), fun pcc' prs => ?_⟩
    unfold Subscribes
    rw [(write_sameStores g pcc _).subs]
    exact (and_iff_left fun hx => (nomatch hx.2)).symm
  | some prs =>
    rw [hn] at h
    obtain ⟨g₁, hrem, rfl⟩ := map_eq_ok.mp h
    obtain ⟨hsub, hiff⟩ := subscribes_of_remove_subs hrem
    have hout : g₁.out pcc = g.out pcc ∧ g₁.sent = g.sent ∧ g₁.prompt = g.prompt ∧
        g₁.mrecordsets = g.mrecordsets := by
      obtain rfl := remove_subs_eq hrem
      exact ⟨out_modify_same (fun c => by rfl) pcc pcc g, rfl, rfl, rfl⟩
    refine ⟨⟨_, says_write_of hout.2.1 hout.2.2.1 hout.1 _⟩, hout.2.2.2, rfl, fun prs' hx => ?_,
      fun pcc' prs' => ?_⟩
    · obtain rfl := Option.some.inj hx
      exact hsub
    · have hwrite : ∀ text, (g₁.write pcc text).Subscribes pcc' prs' ↔ g₁.Subscribes pcc' prs' := by
        intro text
        unfold Subscribes
        rw [(write_sameStores g₁ pcc text).subs]
      rw [hwrite, hiff, Option.some.injEq, eq_comm (a := prs)]

theorem unsubOne_ok (hl : Linked g) {i : Bytes}
    (h : ∀ prs, g.mrecordsets.find? i = some prs → g.Subscribes pcc prs) :
    ∃ x, unsubOne pcc g i = .ok x := by
  unfold unsubOne subsOne
  cases hn : g.mrecordsets.find? i with
  | none => exact ⟨_, rfl⟩
  | some prs =>
    obtain ⟨g', hg'⟩ := remove_subs_ok hl (h prs hn)
    dsimp only
    rw [hg']
    exact ⟨_, rfl⟩

/-! ## The loop -/

/-- The registered sets that are named, as often as they are. -/
def setsNamed (g : Globals) (l : List Bytes) : List SetId := l.filterMap g.mrecordsets.find?

/-- **The loop of `unsub`**: where it goes through, each set named was subscribed to and
named once, and these are gone and counted. -/
theorem unsubs_cases {l : List Bytes} {r r' : Globals × Nat}
    (h : l.foldlM (counted (unsubOne pcc)) r = .ok r') :
    (∃ text, Says pcc text r.1 r'.1) ∧ (setsNamed r.1 l).Nodup ∧
      (∀ prs ∈ setsNamed r.1 l, r.1.Subscribes pcc prs) ∧
      r'.2 = r.2 + (setsNamed r.1 l).length ∧
      ∀ pcc' prs, r'.1.Subscribes pcc' prs ↔
        r.1.Subscribes pcc' prs ∧ ¬ (pcc' = pcc ∧ prs ∈ setsNamed r.1 l) := by
  induction l generalizing r with
  | nil =>
    obtain rfl := Except.ok.inj h
    refine ⟨⟨[], says_nothing rfl rfl rfl⟩, List.nodup_nil, fun _ hx => (nomatch hx), rfl,
      fun _ _ => ?_⟩
    exact (and_iff_left fun hx => List.not_mem_nil hx.2).symm
  | cons i l ih =>
    rw [List.foldlM_cons] at h
    obtain ⟨r₁, h₁, h⟩ := bind_eq_ok.mp h
    obtain ⟨x, hx, rfl⟩ := map_eq_ok.mp h₁
    obtain ⟨⟨t, ht⟩, hm, hcount, hsub, hiff⟩ := unsubOne_cases hx
    obtain ⟨⟨u, hu⟩, hnodup, hall, hcount', hiff'⟩ := ih h
    have hnamed : setsNamed x.1 l = setsNamed r.1 l := by rw [setsNamed, hm, setsNamed]
    dsimp only at hnodup hall hcount' hiff'
    rw [hnamed] at hnodup hall hcount' hiff'
    refine ⟨⟨t ++ u, ht.trans hu⟩, ?_⟩
    cases hn : r.1.mrecordsets.find? i with
    | none =>
      have hcons : setsNamed r.1 (i :: l) = setsNamed r.1 l := List.filterMap_cons_none hn
      have hsame : ∀ pcc' prs, x.1.Subscribes pcc' prs ↔ r.1.Subscribes pcc' prs := by
        intro pcc' prs
        rw [hiff, hn]
        exact and_iff_left fun hx => (nomatch hx.2)
      rw [hn, Option.isSome_none] at hcount
      rw [hcount] at hcount'
      rw [hcons]
      refine ⟨hnodup, fun prs hprs => (hsame pcc prs).mp (hall prs hprs), hcount',
        fun pcc' prs => ?_⟩
      rw [hiff', hsame]
    | some prs =>
      have hcons : setsNamed r.1 (i :: l) = prs :: setsNamed r.1 l :=
        List.filterMap_cons_some hn
      rw [hn, Option.isSome_some] at hcount
      rw [hcount] at hcount'
      rw [hcons]
      -- the set is not subscribed to any more, and so is not named again
      have hfresh : prs ∉ setsNamed r.1 l := by
        intro hmem
        have hstill := (hiff pcc prs).mp (hall prs hmem)
        exact hstill.2 ⟨rfl, hn⟩
      refine ⟨List.nodup_cons.mpr ⟨hfresh, hnodup⟩, fun prs' hmem => ?_, ?_, fun pcc' prs' => ?_⟩
      · rcases List.mem_cons.mp hmem with rfl | hmem
        · exact hsub _ hn
        · exact ((hiff pcc prs').mp (hall prs' hmem)).1
      · rw [hcount', List.length_cons, if_pos rfl]
        omega
      · rw [hiff', hiff, hn, List.mem_cons, Option.some.injEq]
        constructor
        · rintro ⟨⟨hs, hne⟩, hnot⟩
          refine ⟨hs, fun hx => ?_⟩
          rcases hx.2 with rfl | hmem
          · exact hne ⟨hx.1, rfl⟩
          · exact hnot ⟨hx.1, hmem⟩
        · rintro ⟨hs, hne⟩
          exact ⟨⟨hs, fun hx => hne ⟨hx.1, .inl hx.2.symm⟩⟩, fun hx => hne ⟨hx.1, .inr hx.2⟩⟩

/-- Where each set named is subscribed to and named once, it goes through. -/
theorem unsubs_ok {l : List Bytes} {r : Globals × Nat} (hl : Linked r.1)
    (hlive : ∃ m, r.1.subs pcc = some m) (hnodup : (setsNamed r.1 l).Nodup)
    (hall : ∀ prs ∈ setsNamed r.1 l, r.1.Subscribes pcc prs) :
    ∃ r', l.foldlM (counted (unsubOne pcc)) r = .ok r' := by
  induction l generalizing r with
  | nil => exact ⟨r, rfl⟩
  | cons i l ih =>
    have hhead : ∀ prs, r.1.mrecordsets.find? i = some prs →
        prs ∉ setsNamed r.1 l ∧ r.1.Subscribes pcc prs := by
      intro prs hn
      rw [show setsNamed r.1 (i :: l) = prs :: setsNamed r.1 l from List.filterMap_cons_some hn]
        at hnodup hall
      exact ⟨(List.nodup_cons.mp hnodup).1, hall prs List.mem_cons_self⟩
    have htail : (setsNamed r.1 l).Sublist (setsNamed r.1 (i :: l)) :=
      (List.sublist_cons_self i l).filterMap _
    obtain ⟨x, hx⟩ := unsubOne_ok hl fun prs hn => (hhead prs hn).2
    obtain ⟨-, hm, -, -, hiff⟩ := unsubOne_cases hx
    have hnamed : setsNamed x.1 l = setsNamed r.1 l := by rw [setsNamed, hm, setsNamed]
    have hacts := linked_keptByActs ⟨0, fun _ _ => []⟩ pcc
    have hkept := subsOne_keeps hacts.write (fun prs g' => hacts.remove_subs r.1 prs g') i x hx
      ⟨hl, hlive⟩
    rw [List.foldlM_cons, show counted (unsubOne pcc) r i = _ from congrArg (Except.map _) hx]
    refine ih hkept.1 hkept.2 (hnamed ▸ hnodup.sublist htail) fun prs hprs => ?_
    rw [hnamed] at hprs
    exact (hiff pcc prs).mpr ⟨hall prs (htail.subset hprs), fun hn => (hhead prs hn.2).1 hprs⟩

/-! ## The command -/

/-- The sets a connection is subscribed to. -/
def subscriptions (g : Globals) (pcc : ConnId) : List SetId :=
  ((g.subs pcc).map (·.keys)).getD []

theorem mem_subscriptions {prs : SetId} : prs ∈ subscriptions g pcc ↔ g.Subscribes pcc prs := by
  unfold subscriptions Subscribes
  cases g.subs pcc with
  | none => exact ⟨fun h => absurd h List.not_mem_nil, fun ⟨_, h, _⟩ => (nomatch h)⟩
  | some m => simp [Lib.OrdMap.mem_keys_iff]

theorem subscriptions_nodup (g : Globals) (pcc : ConnId) : (subscriptions g pcc).Nodup := by
  unfold subscriptions
  cases g.subs pcc with
  | none => exact List.nodup_nil
  | some m => exact m.keys_nodup

/-- The number of subscriptions a connection has lost. -/
def removed (g g' : Globals) (pcc : ConnId) : Nat :=
  ((subscriptions g pcc).filter fun prs => prs ∉ subscriptions g' pcc).length

theorem removed_eq {l : List SetId} (hnodup : l.Nodup) (hl : ∀ prs ∈ l, g.Subscribes pcc prs)
    (h : ∀ prs, g'.Subscribes pcc prs ↔ g.Subscribes pcc prs ∧ prs ∉ l) :
    removed g g' pcc = l.length := by
  have hperm : ((subscriptions g pcc).filter fun prs => prs ∉ subscriptions g' pcc).Perm l := by
    rw [List.perm_ext_iff_of_nodup ((subscriptions_nodup g pcc).filter _) hnodup]
    intro prs
    rw [List.mem_filter, decide_eq_true_eq, mem_subscriptions, mem_subscriptions, h]
    constructor
    · rintro ⟨hs, hnot⟩
      by_contra hne
      exact hnot ⟨hs, hne⟩
    · exact fun hmem => ⟨hl prs hmem, fun hx => hx.2 hmem⟩
  exact hperm.length_eq

/-- A line unsubscribes exactly: it is returned from, the subscriptions afterwards are those
before without the sets it names, on both sides, and what is sent ends by telling how many
were removed. -/
def UnsubscribesExactly (S : Scanners) (B : Build) (env : Env) (pcc : ConnId) (bufin : Bytes)
    (g : Globals) : Prop :=
  ∃ g', g.lineread S B env pcc bufin = .ok g' ∧
    (∀ pcc' prs,
      (g'.Subscribes pcc' prs ↔
        g.Subscribes pcc' prs ∧ ¬ (pcc' = pcc ∧ prs ∈ setsNamed g (idents S bufin))) ∧
      (g'.HasChannel prs pcc' ↔
        g.HasChannel prs pcc' ∧ ¬ (pcc' = pcc ∧ prs ∈ setsNamed g (idents S bufin)))) ∧
    ∃ told nbp, g'.sent = g.sent ++ [(pcc,
      told ++ performed (str "unsubscribe") (str "unsubsription") (removed g g' pcc) ++
        promptText g.prompt nbp)]

/-- `unsub` is the loop over its identifiers, and the line that counts. -/
theorem command_unsub (hS : S.Documented blank ident) (env : Env) (pcc : ConnId)
    {bufin w : Bytes} {p : Nat} (hw : w = str "unsub" ∨ w = str "unsubscribe")
    (hget : S.getidentifier bufin 0 = (w, p)) :
    ∃ b : Bool, ∀ g : Globals, g.command S B env pcc bufin
      = ((idents S bufin).foldlM (counted (unsubOne pcc)) (g, 0)).map fun r =>
          (if b then r.1.write pcc missingText else r.1).write pcc
            (performed (str "unsubscribe") (str "unsubsription") r.2) := by
  have hidents : idents S bufin = identsFrom S bufin (bufin.length + 1) p := by rw [idents, hget]
  obtain ⟨b, hb⟩ := forIdents_eq hS bufin p
  refine ⟨b, fun g => ?_⟩
  rw [hidents, ← hb pcc _ _ _ g]
  unfold Globals.command
  rw [hget]
  rcases hw with rfl | rfl <;> rfl

/-- What a line of `unsub` does where its loop goes through. -/
theorem unsubscribesExactly_of (hS : S.Documented blank ident) (hg : Linked g ∧ Hushed g)
    (hlive : g.conns.contains pcc = true) {bufin w : Bytes} {p : Nat}
    (hw : w = str "unsub" ∨ w = str "unsubscribe") (hget : S.getidentifier bufin 0 = (w, p))
    {r : Globals × Nat} (hr : (idents S bufin).foldlM (counted (unsubOne pcc)) (g, 0) = .ok r) :
    UnsubscribesExactly S B env pcc bufin g := by
  obtain ⟨hl, hhushed⟩ := hg
  obtain ⟨b, hcommand⟩ := command_unsub (B := B) hS env pcc hw hget
  obtain ⟨⟨text, hsaid⟩, hnodup, hall, hcount, hiff⟩ := unsubs_cases hr
  set g₁ := (if b then r.1.write pcc missingText else r.1).write pcc
    (performed (str "unsubscribe") (str "unsubsription") r.2) with hg₁
  have hline : g.lineread S B env pcc bufin = .ok (g₁.endLine pcc) := by
    rw [Globals.lineread, hcommand, hr]
    rfl
  have hsame : SameStores r.1 (g₁.endLine pcc) := by
    refine SameStores.trans ?_ (endLine_sameStores g₁ pcc)
    refine SameStores.trans ?_ (write_sameStores _ pcc _)
    cases b with
    | true => exact write_sameStores r.1 pcc missingText
    | false => exact .refl r.1
  have hsubs : ∀ pcc' prs, (g₁.endLine pcc).Subscribes pcc' prs ↔
      g.Subscribes pcc' prs ∧ ¬ (pcc' = pcc ∧ prs ∈ setsNamed g (idents S bufin)) := by
    intro pcc' prs
    rw [← hiff]
    unfold Subscribes
    rw [hsame.subs]
  refine ⟨g₁.endLine pcc, hline, fun pcc' prs => ⟨hsubs pcc' prs, ?_⟩, ?_⟩
  · -- the stores agree before and behind the line
    have hstep : step S B g (.line pcc env bufin) = some (g₁.endLine pcc) := by
      unfold step
      rw [if_pos (show g.possible (.line pcc env bufin) = true from hlive), react, hline]
      rfl
    rw [(step_linked hl hstep).channels, hl.channels, hsubs]
  · have hremoved : removed g (g₁.endLine pcc) pcc = r.2 := by
      rw [hcount, Nat.zero_add]
      refine removed_eq hnodup hall fun prs => ?_
      rw [hsubs]
      exact and_congr_right fun _ => not_congr (and_iff_right rfl)
    obtain ⟨c, hconn⟩ := Lib.OrdMap.contains_iff.mp hlive
    have hempty : g.out pcc = some [] := by
      have hout : g.out pcc = some c.out := by rw [Globals.out, hconn]; rfl
      rw [hout, hhushed.out pcc _ hout]
    have hsaid' := says_performed (str "unsubscribe") (str "unsubsription") r.2 b hsaid
    have hout : g₁.out pcc = some (text ++ (if b then missingText else []) ++
        performed (str "unsubscribe") (str "unsubsription") r.2) := by
      rw [hsaid'.out, hempty]
      rfl
    obtain ⟨nbp, hsent, -⟩ := endLine_flushes hout
    refine ⟨text ++ (if b then missingText else []), nbp, ?_⟩
    rw [hsent, hremoved, hsaid'.sent, hsaid'.prompt]

/-- **When `unsub` is safe and exact**: in every state a qigong reaches, exactly where the
connection is subscribed to each registered set that is named, and none is named twice. -/
theorem unsubscribe_iff (hS : S.Documented blank ident) {es : List Event}
    (h : Lib.run (step S B) boot es = some g) (hlive : g.conns.contains pcc = true) (env : Env)
    {bufin w : Bytes} {p : Nat} (hw : w = str "unsub" ∨ w = str "unsubscribe")
    (hget : S.getidentifier bufin 0 = (w, p)) :
    UnsubscribesExactly S B env pcc bufin g ↔
      (setsNamed g (idents S bufin)).Nodup ∧
        ∀ prs ∈ setsNamed g (idents S bufin), g.Subscribes pcc prs := by
  have hg := hushed_of_run h
  constructor
  · rintro ⟨g', hline, -⟩
    obtain ⟨b, hcommand⟩ := command_unsub (B := B) hS env pcc hw hget
    obtain ⟨g₁, hg₁, -⟩ := map_eq_ok.mp hline
    rw [hcommand] at hg₁
    obtain ⟨r, hr, -⟩ := map_eq_ok.mp hg₁
    obtain ⟨-, hnodup, hall, -⟩ := unsubs_cases hr
    exact ⟨hnodup, hall⟩
  · rintro ⟨hnodup, hall⟩
    obtain ⟨r, hr⟩ := unsubs_ok (r := (g, 0)) hg.1 (live_iff.mp hlive) hnodup hall
    exact unsubscribesExactly_of hS hg hlive hw hget hr

/-- Who is subscribed can unsubscribe. -/
theorem unsubscribe_iff_subscribed :
    ∃ g, Lib.run (step sampleScanners sampleBuild) boot
        (sampleCreation ++ [.line 0 sampleEnv (str "sub web")]) = some g ∧
      UnsubscribesExactly sampleScanners sampleBuild sampleEnv 0 (str "unsub web") g := by
  have hany : (Lib.run (step sampleScanners sampleBuild) boot
      (sampleCreation ++ [.line 0 sampleEnv (str "sub web")])).any (fun g =>
        g.conns.contains 0 && decide (setsNamed g (idents sampleScanners (str "unsub web")) = [0]) &&
          decide (subscriptions g 0 = [0])) = true := by
    decide +kernel
  obtain ⟨g, h, hg⟩ := (Option.any_eq_true _ _).mp hany
  simp only [Bool.and_eq_true, decide_eq_true_eq] at hg
  obtain ⟨⟨hlive, hnamed⟩, hsubs⟩ := hg
  refine ⟨g, h, (unsubscribe_iff sampleScanners_documented h hlive sampleEnv (.inl rfl) rfl).mpr ?_⟩
  rw [hnamed]
  refine ⟨List.nodup_cons.mpr ⟨List.not_mem_nil, List.nodup_nil⟩, fun prs hprs => ?_⟩
  rw [← mem_subscriptions]
  rw [hsubs]
  exact hprs

/-- **Who is not subscribed cannot**: the end iterator is erased. -/
theorem unsubscribed_erases_end :
    ¬ ∀ (S : Scanners) (blank ident : UInt8 → Bool) (B : Build) (es : List Event) (g : Globals)
      (pcc : ConnId) (env : Env) (bufin w : Bytes) (p : Nat), S.Documented blank ident →
      Lib.run (step S B) boot es = some g → g.conns.contains pcc = true →
      w = str "unsub" ∨ w = str "unsubscribe" → S.getidentifier bufin 0 = (w, p) →
      UnsubscribesExactly S B env pcc bufin g := by
  intro hall
  have hany : (Lib.run (step sampleScanners sampleBuild) boot sampleCreation).any (fun g =>
      g.conns.contains 0 &&
        decide ((g.lineread sampleScanners sampleBuild sampleEnv 0 (str "unsub web")).toOption.isNone))
      = true := by
    decide +kernel
  obtain ⟨g, h, hg⟩ := (Option.any_eq_true _ _).mp hany
  simp only [Bool.and_eq_true, decide_eq_true_eq] at hg
  obtain ⟨g', hline, -⟩ := hall _ _ _ _ _ g 0 sampleEnv (str "unsub web") (str "unsub") _
    sampleScanners_documented h hg.1 (.inl rfl) rfl
  rw [hline] at hg
  cases hg.2

end Qigong.Probe
