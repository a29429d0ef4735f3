import Qigong.Lib.Machine
import Qigong.Probe.Alike
import Qigong.Probe.Measures

/-!
# What one client notices of another

Lines arrive on several connections of a qigong, which name different record sets. The
lines of the others leave what a connection is answered as it is (`Twins`), but for two
things they share with it: the program, which a line that is not defined ends, and the
prompt, which `qiging` clears for all. The replies are those the connection has when it is
alone exactly where neither happens (`replies_alone_iff`).
-/

namespace Qigong.Probe

open Globals

variable {S : Scanners} {B : Build} {blank ident : UInt8 → Bool}
variable {A : ConnId} {mine : Bytes → Prop} {g h g' h' : Globals}

/-! ## Lines -/

/-- A line that arrives: on which connection, when, and what the measure functions give for
it, by the number of texts flushed since it was begun. -/
structure LineRead where
  pcc : ConnId
  now : Int
  readings : Nat → Nat → Bytes
  bufin : Bytes

/-- The event it is. -/
def LineRead.event (l : LineRead) (g : Globals) : Event :=
  .line l.pcc (lineEnv l.now l.readings g.sent) l.bufin

/-- What a qigong does with it. -/
def readStep (S : Scanners) (B : Build) (g : Globals) (l : LineRead) : Option Globals :=
  step S B g (l.event g)

/-- The bytes flushed to a connection between two states. -/
def reply (pcc : ConnId) (g g' : Globals) : Bytes := (flushedTo pcc g g').flatten

/-- The reply to a line behind other lines, `none` if the program has ended. -/
def answer (S : Scanners) (B : Build) (A : ConnId) (g : Globals) (pre : List LineRead)
    (l : LineRead) : Option Bytes :=
  (Lib.run (readStep S B) g pre).bind fun g₁ => (readStep S B g₁ l).map (reply A g₁)

variable {l : LineRead}

theorem readStep_eq_some (hs : readStep S B g l = some g') :
    g.conns.contains l.pcc = true ∧ ∃ g₁,
      g.command S B (lineEnv l.now l.readings g.sent) l.pcc l.bufin = .ok g₁ ∧
        g' = g₁.endLine l.pcc := by
  obtain ⟨hp, hr⟩ := step_eq_some hs
  obtain ⟨g₁, hc, heq⟩ := map_eq_ok.mp hr
  exact ⟨hp, g₁, hc, heq.symm⟩

theorem readStep_of_ok {g₁ : Globals} (hlive : g.conns.contains l.pcc = true)
    (hc : g.command S B (lineEnv l.now l.readings g.sent) l.pcc l.bufin = .ok g₁) :
    readStep S B g l = some (g₁.endLine l.pcc) := by
  unfold readStep step
  rw [if_pos (show g.possible (l.event g) = true from hlive), LineRead.event, react,
    Globals.lineread, hc]
  rfl

theorem readStep_of_error {x : Exn}
    (hc : g.command S B (lineEnv l.now l.readings g.sent) l.pcc l.bufin = .error x) :
    readStep S B g l = none := by
  unfold readStep step
  rw [LineRead.event, react, Globals.lineread, hc]
  split <;> rfl

theorem contains_iff_nbp {pcc : ConnId} : g.conns.contains pcc = true ↔ ∃ n, g.nbp pcc = some n := by
  rw [Lib.OrdMap.contains_iff]
  constructor
  · rintro ⟨c, hc⟩
    exact ⟨c.nbp, by rw [Globals.nbp, hc]; rfl⟩
  · rintro ⟨n, hn⟩
    exact (Option.map_eq_some_iff.mp hn).imp fun _ h => h.1

/-- **What a line leaves alone**: the names it does not name, the numbers of the prompts but
its own, and the prompt, unless it is a `qiging`. -/
theorem readStep_touches (hS : S.Documented blank ident) (hlist : lineWord S l.bufin ≠ str "list")
    (hl : Linked g) (hs : readStep S B g l = some g') :
    (∀ n, n ∉ named S l.bufin → g'.view n = g.view n) ∧
      (∀ c, g'.nbp c
        = if c = l.pcc ∧ g'.prompt ≠ [] then (g.nbp c).map (· + 1) else g.nbp c) ∧
      (lineWord S l.bufin ≠ str "qiging" → g'.prompt = g.prompt) ∧
      (lineWord S l.bufin = str "qiging" → g'.prompt = []) := by
  obtain ⟨hlive, g₁, hc, rfl⟩ := readStep_eq_some hs
  obtain ⟨hview, hnbp, hkept, hcleared⟩ := command_touches hS hlist hl (live_iff.mp hlive) hc
  have hprompt : (g₁.endLine l.pcc).prompt = g₁.prompt := (endLine_rest g₁ l.pcc).1
  refine ⟨fun n hn => ?_, fun c => ?_, fun hw => ?_, fun hw => ?_⟩
  · rw [(endLine_sameStores g₁ l.pcc).view]
    exact hview n hn
  · rw [endLine_nbp, hprompt, hnbp]
  · rw [hprompt]
    exact hkept hw
  · rw [hprompt]
    exact hcleared hw

/-! ## Two states between lines -/

/-- Between lines the states are alike to connection `A`. -/
structure Twins (A : ConnId) (mine : Bytes → Prop) (g h : Globals) : Prop where
  left : Linked g ∧ Hushed g
  right : Linked h ∧ Hushed h
  view : ∀ n, mine n → g.view n = h.view n
  live : g.conns.contains A = true ∧ h.conns.contains A = true

theorem out_of_hushed (hg : Hushed g) {pcc : ConnId} (hlive : g.conns.contains pcc = true) :
    g.out pcc = some [] := by
  obtain ⟨c, hc⟩ := Lib.OrdMap.contains_iff.mp hlive
  have hout : g.out pcc = some c.out := by rw [Globals.out, hc]; rfl
  rw [hout, hg.out pcc _ hout]

theorem Twins.alike (ht : Twins A mine g h) : Alike A mine g.sent h.sent g h where
  linked := ⟨ht.left.1, ht.right.1⟩
  view := ht.view
  out := ⟨[], out_of_hushed ht.left.2 ht.live.1, out_of_hushed ht.right.2 ht.live.2⟩
  quiet pcc _ text := ⟨ht.left.2.out pcc text, ht.right.2.out pcc text⟩
  sent := ⟨[], (List.append_nil _).symm, (List.append_nil _).symm⟩

/-- What is flushed of a line: what `news` holds for the connection, and its `out` with the
prompt. -/
theorem reply_endLine {news : List (ConnId × Bytes)} {c : CollectedConn}
    (hsent : g'.sent = g.sent ++ news) (hc : g'.conns.find? A = some c) :
    reply A g (g'.endLine A)
      = ((news.filter fun x => x.1 = A).map Prod.snd).flatten ++ c.out ++
          promptText g'.prompt c.nbp := by
  have hflushed : (g'.endLine A).sent
      = g.sent ++ (news ++ [(A, c.out ++ promptText g'.prompt c.nbp)]) := by
    rw [(endLine_prompts hc).1, hsent, List.append_assoc]
  rw [reply, flushedTo_of_sent hflushed, List.filter_append, List.map_append, List.flatten_append]
  simp

/-- **A line of the connection itself**: both get stuck, or both reply the same but for the
prompt, and the states stay alike. -/
theorem Twins.own (hS : S.Documented blank ident) (ht : Twins A mine g h) {l : LineRead}
    (hl : l.pcc = A) (hlist : lineWord S l.bufin ≠ str "list")
    (hmine : ∀ n ∈ named S l.bufin, mine n) :
    (readStep S B g l = none ∧ readStep S B h l = none) ∨
    ∃ g' h' body m n, readStep S B g l = some g' ∧ readStep S B h l = some h' ∧
      Twins A mine g' h' ∧ g.nbp A = some m ∧ h.nbp A = some n ∧
      reply A g g' = body ++ promptText g'.prompt m ∧
      reply A h h' = body ++ promptText h'.prompt n := by
  obtain ⟨f, hf, hrun⟩ := command_form hS hlist
  have hlock := ht.alike.run hf hmine B l.now l.readings
  rw [← hrun, ← hrun] at hlock
  generalize hgc : g.command S B (lineEnv l.now l.readings g.sent) A l.bufin = x at hlock
  generalize hhc : h.command S B (lineEnv l.now l.readings h.sent) A l.bufin = y at hlock
  subst hl
  cases hlock with
  | error => exact .inl ⟨readStep_of_error hgc, readStep_of_error hhc⟩
  | @ok g₁ h₁ ha =>
    right
    have hgs := readStep_of_ok ht.live.1 hgc
    have hhs := readStep_of_ok ht.live.2 hhc
    obtain ⟨text, hgo, hho⟩ := ha.out
    obtain ⟨c, hcg, rfl⟩ := Option.map_eq_some_iff.mp hgo
    obtain ⟨d, hch, hd⟩ := Option.map_eq_some_iff.mp hho
    obtain ⟨news, hgn, hhn⟩ := ha.sent
    -- the commands count no prompt
    have hgnbp := (command_touches hS hlist ht.left.1 (live_iff.mp ht.live.1) hgc).2.1 l.pcc
    have hhnbp := (command_touches hS hlist ht.right.1 (live_iff.mp ht.live.2) hhc).2.1 l.pcc
    rw [Globals.nbp, hcg] at hgnbp
    rw [Globals.nbp, hch] at hhnbp
    refine ⟨_, _, ((news.filter fun x => x.1 = l.pcc).map Prod.snd).flatten ++ c.out, c.nbp, d.nbp,
      hgs, hhs, ?_, hgnbp.symm, hhnbp.symm, ?_, ?_⟩
    · refine ⟨step_hushed ht.left hgs, step_hushed ht.right hhs, fun n hn => ?_, ?_, ?_⟩
      · rw [(endLine_sameStores g₁ l.pcc).view, (endLine_sameStores h₁ l.pcc).view]
        exact ha.view n hn
      · rw [live_iff, (endLine_sameStores g₁ l.pcc).subs]
        exact ha.live.1
      · rw [live_iff, (endLine_sameStores h₁ l.pcc).subs]
        exact ha.live.2
    · rw [reply_endLine hgn hcg, (endLine_rest g₁ l.pcc).1]
    · rw [reply_endLine hhn hch, (endLine_rest h₁ l.pcc).1, hd]

/-- **A line of another connection** is not noticed. -/
theorem Twins.other (hS : S.Documented blank ident) (ht : Twins A mine g h) {l : LineRead}
    (hl : l.pcc ≠ A) (hlist : lineWord S l.bufin ≠ str "list")
    (hmine : ∀ n ∈ named S l.bufin, ¬ mine n) (hs : readStep S B g l = some g') :
    Twins A mine g' h := by
  obtain ⟨hview, hnbp, -, -⟩ := readStep_touches hS hlist ht.left.1 hs
  refine ⟨step_hushed ht.left hs, ht.right, fun n hn => ?_, ?_, ht.live.2⟩
  · rw [hview n fun hn' => hmine n hn' hn]
    exact ht.view n hn
  · rw [contains_iff_nbp, hnbp, if_neg fun h => hl h.1.symm]
    exact contains_iff_nbp.mp ht.live.1

/-! ## Runs -/

/-- The line is no `list`, and names what belongs to the connection it is for. -/
structure Apart (S : Scanners) (A : ConnId) (mine : Bytes → Prop) (l : LineRead) : Prop where
  list : lineWord S l.bufin ≠ str "list"
  own : l.pcc = A → ∀ n ∈ named S l.bufin, mine n
  other : l.pcc ≠ A → ∀ n ∈ named S l.bufin, ¬ mine n

/-- Is the line the connection's own? -/
def isOwn (A : ConnId) (l : LineRead) : Bool := l.pcc = A

theorem unwinds (hS : S.Documented blank ident) (B : Build) (A : ConnId) (mine : Bytes → Prop) :
    Lib.Unwinds (readStep S B) (isOwn A) (Apart S A mine) (Twins A mine) := by
  constructor
  case sees =>
    intro g h l hl hown ht
    have hA : l.pcc = A := of_decide_eq_true hown
    rcases ht.own hS hA hl.list (hl.own hA) with ⟨hg, hh⟩ | ⟨g', h', -, -, -, hg, hh, ht', -⟩
    · rw [hg, hh]
      exact .none
    · rw [hg, hh]
      exact .some ht'
  case ignores =>
    intro g g' h l hl hown ht hs
    have hA : l.pcc ≠ A := of_decide_eq_false hown
    exact ht.other hS hA hl.list (hl.other hA) hs

/-- The stores are linked, nothing is left to say, and the connections of the lines live. -/
structure Ready (ls : List LineRead) (g : Globals) : Prop where
  calm : Linked g ∧ Hushed g
  live : ∀ l ∈ ls, g.conns.contains l.pcc = true

section ready

variable {ls pre : List LineRead} {l : LineRead}

theorem Ready.step (hS : S.Documented blank ident) (hlist : lineWord S l.bufin ≠ str "list")
    (hg : Ready ls g) (hs : readStep S B g l = some g') : Ready ls g' := by
  refine ⟨step_hushed hg.calm hs, fun l' hl' => ?_⟩
  obtain ⟨n, hn⟩ := contains_iff_nbp.mp (hg.live l' hl')
  rw [contains_iff_nbp, (readStep_touches hS hlist hg.calm.1 hs).2.1, hn]
  split
  · exact ⟨n + 1, rfl⟩
  · exact ⟨n, rfl⟩

theorem Ready.ok_iff (hS : S.Documented blank ident) (hlist : lineWord S l.bufin ≠ str "list")
    (hg : Ready ls g) (hl : l ∈ ls) :
    (∃ g', readStep S B g l = some g') ↔ Defined S g l.pcc l.now l.bufin := by
  have hlive := hg.live l hl
  have hiff : (∃ g₁, g.command S B (lineEnv l.now l.readings g.sent) l.pcc l.bufin = .ok g₁) ↔
      Defined S g l.pcc l.now l.bufin := command_ok_iff hS hlist hg.calm.1 (live_iff.mp hlive)
  rw [← hiff]
  constructor
  · rintro ⟨g', hs⟩
    obtain ⟨-, g₁, hc, -⟩ := readStep_eq_some hs
    exact ⟨g₁, hc⟩
  · rintro ⟨g₁, hc⟩
    exact ⟨_, readStep_of_ok hlive hc⟩

/-- A run goes through exactly where every line is defined. -/
theorem Ready.run_iff (hS : S.Documented blank ident)
    (hlist : ∀ l ∈ ls, lineWord S l.bufin ≠ str "list") (hg : Ready ls g)
    (hpre : ∀ l ∈ pre, l ∈ ls) :
    (∃ g', Lib.run (readStep S B) g pre = some g') ↔
      Lib.StepsMeet (readStep S B) (fun g l => Defined S g l.pcc l.now l.bufin) g pre := by
  have hstep : ∀ g l g', Ready ls g → l ∈ ls → readStep S B g l = some g' → Ready ls g' :=
    fun g l g' hg hl hs => hg.step hS (hlist l hl) hs
  rw [Lib.exists_run_iff]
  constructor
  · exact fun h => h.imp hstep (fun g l hg hl hok => (hg.ok_iff hS (hlist l hl) hl).mp hok) hpre hg
  · exact fun h => h.imp hstep (fun g l hg hl hd => (hg.ok_iff hS (hlist l hl) hl).mpr hd) hpre hg

end ready

/-! ## The prompt -/

/-- The prompt behind lines: `qiging` clears it. -/
def promptAfter (S : Scanners) (prompt : Bytes) (ls : List LineRead) : Bytes :=
  if ∃ l ∈ ls, lineWord S l.bufin = str "qiging" then [] else prompt

theorem promptAfter_cases (prompt : Bytes) (ls : List LineRead) :
    promptAfter S prompt ls = [] ∨ promptAfter S prompt ls = prompt := by
  unfold promptAfter
  split
  · exact .inl rfl
  · exact .inr rfl

theorem prompt_of_run (hS : S.Documented blank ident) {ls : List LineRead}
    (hlist : ∀ l ∈ ls, lineWord S l.bufin ≠ str "list") (hg : Linked g ∧ Hushed g)
    (h : Lib.run (readStep S B) g ls = some g') : g'.prompt = promptAfter S g.prompt ls := by
  induction ls generalizing g with
  | nil =>
    obtain rfl := Option.some.inj h
    exact (if_neg fun ⟨_, hl, _⟩ => absurd hl List.not_mem_nil).symm
  | cons l ls ih =>
    rw [Lib.run_cons] at h
    obtain ⟨g₁, hs, h⟩ := Option.bind_eq_some_iff.mp h
    obtain ⟨-, -, hkept, hcleared⟩ := readStep_touches hS (hlist l List.mem_cons_self) hg.1 hs
    rw [ih (fun l' hl' => hlist l' (List.mem_cons_of_mem l hl')) (step_hushed hg hs) h]
    unfold promptAfter
    by_cases hl : lineWord S l.bufin = str "qiging"
    · rw [hcleared hl, ite_self, if_pos ⟨l, List.mem_cons_self, hl⟩]
    · rw [hkept hl]
      simp [hl]

/-- A clear prompt is the connection's own doing: no other connection cleared it, or the
connection did, up to the line itself. -/
def OwnPrompt (S : Scanners) (A : ConnId) (g : Globals) (pre : List LineRead) (a : LineRead) : Prop :=
  g.prompt ≠ [] → (∃ b ∈ pre, b.pcc ≠ A ∧ lineWord S b.bufin = str "qiging") →
    ∃ b ∈ pre ++ [a], b.pcc = A ∧ lineWord S b.bufin = str "qiging"

theorem promptAfter_own (prompt : Bytes) (ls : List LineRead) :
    promptAfter S prompt (ls.filter (isOwn A))
      = if ∃ l ∈ ls, l.pcc = A ∧ lineWord S l.bufin = str "qiging" then [] else prompt := by
  unfold promptAfter
  refine if_congr ?_ rfl rfl
  simp only [List.mem_filter, isOwn, decide_eq_true_eq, and_assoc]

/-- Then the prompt is the one the connection sees alone. -/
theorem ownPrompt_iff {pre : List LineRead} {a : LineRead} (ha : a.pcc = A) :
    OwnPrompt S A g pre a ↔ promptAfter S g.prompt (pre ++ [a])
      = promptAfter S g.prompt ((pre ++ [a]).filter (isOwn A)) := by
  rw [promptAfter_own]
  unfold promptAfter OwnPrompt
  by_cases hown : ∃ l ∈ pre ++ [a], l.pcc = A ∧ lineWord S l.bufin = str "qiging"
  · have ⟨l, hl, _, hq⟩ := hown
    rw [if_pos hown, if_pos ⟨l, hl, hq⟩]
    exact iff_of_true (fun _ _ => hown) rfl
  rw [if_neg hown]
  by_cases hother : ∃ b ∈ pre, b.pcc ≠ A ∧ lineWord S b.bufin = str "qiging"
  · have ⟨b, hb, _, hq⟩ := hother
    rw [if_pos ⟨b, List.mem_append_left _ hb, hq⟩]
    constructor
    · intro h
      by_contra hne
      exact hown (h (fun heq => hne heq.symm) hother)
    · exact fun heq hne _ => absurd heq.symm hne
  · -- nobody cleared it
    rw [if_neg]
    · exact iff_of_true (fun _ h => absurd h hother) rfl
    · rintro ⟨l, hl, hq⟩
      by_cases hA : l.pcc = A
      · exact hown ⟨l, hl, hA, hq⟩
      · rcases List.mem_append.mp hl with hl | hl
        · exact hother ⟨l, hl, hA, hq⟩
        · exact hA (List.mem_singleton.mp hl ▸ ha)

theorem run_concat {l : LineRead} {pre : List LineRead} :
    Lib.run (readStep S B) g (pre ++ [l]) = some g' ↔
      ∃ g₁, Lib.run (readStep S B) g pre = some g₁ ∧ readStep S B g₁ l = some g' := by
  rw [Lib.run_append, Option.bind_eq_some_iff]
  refine exists_congr fun g₁ => and_congr_right fun _ => ?_
  rw [Lib.run_singleton]

/-- Where every clear prompt was its own doing, the connection's prompts are numbered as if
it were alone. -/
theorem nbp_alone (hS : S.Documented blank ident) {pre : List LineRead}
    (hlist : ∀ l ∈ pre, lineWord S l.bufin ≠ str "list") (hg : Linked g ∧ Hushed g)
    (hprompt : ∀ pre' a post, pre = pre' ++ a :: post → a.pcc = A → OwnPrompt S A g pre' a)
    (hs : Lib.run (readStep S B) g pre = some g')
    (ht : Lib.run (readStep S B) g (pre.filter (isOwn A)) = some h') : g'.nbp A = h'.nbp A := by
  have hcalm : ∀ {ls k}, Lib.run (readStep S B) g ls = some k → Linked k ∧ Hushed k := fun h =>
    Lib.run_invariant (fun _ _ _ hk hstep => step_hushed hk hstep) hg h
  induction pre using List.reverseRecOn generalizing g' h' with
  | nil =>
    obtain rfl := Option.some.inj hs
    obtain rfl := Option.some.inj ht
    rfl
  | append_singleton pre l ih =>
    have hlist' : ∀ l' ∈ pre, lineWord S l'.bufin ≠ str "list" :=
      fun l' hl' => hlist l' (List.mem_append_left _ hl')
    have hl := hlist l (List.mem_append_right _ List.mem_cons_self)
    obtain ⟨g₁, hs₁, hs₂⟩ := run_concat.mp hs
    have hih : ∀ {k}, Lib.run (readStep S B) g (pre.filter (isOwn A)) = some k →
        g₁.nbp A = k.nbp A := by
      refine fun hk => ih hlist' (fun pre' a post heq => hprompt pre' a (post ++ [l]) ?_) hs₁ hk
      rw [heq, List.append_assoc, List.cons_append]
    have hgn := (readStep_touches hS hl (hcalm hs₁).1 hs₂).2.1 A
    by_cases hA : l.pcc = A
    · have hfilter : (pre ++ [l]).filter (isOwn A) = pre.filter (isOwn A) ++ [l] := by
        simp [isOwn, hA]
      have ht' := ht
      rw [hfilter] at ht'
      obtain ⟨h₁, ht₁, ht₂⟩ := run_concat.mp ht'
      have hhn := (readStep_touches hS hl (hcalm ht₁).1 ht₂).2.1 A
      -- both end the line with the same prompt
      have hsame : g'.prompt = h'.prompt := by
        rw [prompt_of_run hS hlist hg hs,
          prompt_of_run hS (fun l' hl' => hlist l' (List.mem_of_mem_filter hl')) hg ht]
        exact (ownPrompt_iff hA).mp (hprompt pre l [] rfl hA)
      rw [hgn, hhn, hsame, hih ht₁]
    · have hfilter : (pre ++ [l]).filter (isOwn A) = pre.filter (isOwn A) := by
        simp [isOwn, hA]
      rw [hfilter] at ht
      rw [hgn, if_neg fun h => hA h.1.symm]
      exact hih ht

/-! ## The replies -/

/-- The lines that came before disturb neither the program nor the prompt: those of the
others were defined where they arrived, and the prompt is the connection's own doing. -/
structure Undisturbed (S : Scanners) (B : Build) (A : ConnId) (g : Globals) (pre : List LineRead)
    (a : LineRead) : Prop where
  defined : Lib.StepsMeet (readStep S B)
    (fun g l => l.pcc ≠ A → Defined S g l.pcc l.now l.bufin) g pre
  prompt : OwnPrompt S A g pre a

section replies

variable {ls pre : List LineRead} {a : LineRead}

theorem answer_eq_some {bytes : Bytes} : answer S B A g pre a = some bytes ↔
    ∃ g₁ g₂, Lib.run (readStep S B) g pre = some g₁ ∧ readStep S B g₁ a = some g₂ ∧
      reply A g₁ g₂ = bytes := by
  unfold answer
  rw [Option.bind_eq_some_iff]
  refine exists_congr fun g₁ => ?_
  rw [Option.map_eq_some_iff]
  constructor
  · rintro ⟨h, g₂, hs, heq⟩
    exact ⟨g₂, h, hs, heq⟩
  · rintro ⟨g₂, h, hs, heq⟩
    exact ⟨h, g₂, hs, heq⟩

/-- A line is answered where the run goes through it. -/
theorem exists_answer_iff : (∃ bytes, answer S B A g pre a = some bytes) ↔
    ∃ g', Lib.run (readStep S B) g (pre ++ [a]) = some g' := by
  constructor
  · rintro ⟨bytes, h⟩
    obtain ⟨g₁, g₂, hs, hs', -⟩ := answer_eq_some.mp h
    exact ⟨g₂, run_concat.mpr ⟨g₁, hs, hs'⟩⟩
  · rintro ⟨g₂, h⟩
    obtain ⟨g₁, hs, hs'⟩ := run_concat.mp h
    exact ⟨_, answer_eq_some.mpr ⟨g₁, g₂, hs, hs', rfl⟩⟩

/-- **Both answers**: where both runs go through, they differ at most in the prompt. -/
theorem answers_alike (hS : S.Documented blank ident) (hg : Twins A mine g g)
    (hpre : ∀ l ∈ pre, Apart S A mine l) (ha : Apart S A mine a) (hA : a.pcc = A)
    (h : ∃ g', Lib.run (readStep S B) g (pre ++ [a]) = some g') :
    ∃ g₁ h₁ body m n, Lib.run (readStep S B) g pre = some g₁ ∧
      Lib.run (readStep S B) g (pre.filter (isOwn A)) = some h₁ ∧
      g₁.nbp A = some m ∧ h₁.nbp A = some n ∧
      answer S B A g pre a
        = some (body ++ promptText (promptAfter S g.prompt (pre ++ [a])) m) ∧
      answer S B A g (pre.filter (isOwn A)) a
        = some (body ++
            promptText (promptAfter S g.prompt ((pre ++ [a]).filter (isOwn A))) n) := by
  obtain ⟨g₂, hrun⟩ := h
  obtain ⟨g₁, hs, hs'⟩ := run_concat.mp hrun
  obtain ⟨h₁, ht, htwins⟩ := (unwinds hS B A mine).run hpre hg hs
  have hfilter : (pre ++ [a]).filter (isOwn A) = pre.filter (isOwn A) ++ [a] := by
    simp [isOwn, hA]
  rcases htwins.own hS hA ha.list (ha.own hA) with ⟨hnone, -⟩ |
    ⟨g', h', body, m, n, hgs, hhs, -, hm, hn, hgr, hhr⟩
  · rw [hs'] at hnone
    cases hnone
  · have hlist : ∀ l ∈ pre ++ [a], lineWord S l.bufin ≠ str "list" := by
      intro l hl
      rcases List.mem_append.mp hl with hl | hl
      · exact (hpre l hl).list
      · exact List.mem_singleton.mp hl ▸ ha.list
    have hgp := prompt_of_run hS hlist hg.left (run_concat.mpr ⟨g₁, hs, hgs⟩)
    have hhp := prompt_of_run hS (fun l hl => hlist l (List.mem_of_mem_filter hl)) hg.left
      ((congrArg (Lib.run (readStep S B) g) hfilter).trans (run_concat.mpr ⟨h₁, ht, hhs⟩))
    refine ⟨g₁, h₁, body, m, n, hs, ht, hm, hn, ?_, ?_⟩
    · exact answer_eq_some.mpr ⟨g₁, g', hs, hgs, by rw [hgr, hgp]⟩
    · exact answer_eq_some.mpr ⟨h₁, h', ht, hhs, by rw [hhr, hhp]⟩

/-- The prompt is written, but for an empty one, so it can be told whether it was there. -/
theorem promptAfter_of_answers {body : Bytes} {ms ns : List LineRead} {m n : Nat}
    (h : body ++ promptText (promptAfter S g.prompt ms) m
      = body ++ promptText (promptAfter S g.prompt ns) n) :
    promptAfter S g.prompt ms = promptAfter S g.prompt ns := by
  have hlen : ∀ k, promptText g.prompt k = [] → g.prompt = [] := by
    intro k hk
    by_contra hne
    rw [promptText, if_neg hne, List.append_assoc, List.append_assoc] at hk
    exact hne (List.append_eq_nil_iff.mp hk).1
  have hempty : ∀ k, promptText [] k = [] := fun k => if_pos rfl
  have htexts := List.append_cancel_left h
  rcases promptAfter_cases (S := S) g.prompt ms with hm | hm <;>
    rcases promptAfter_cases (S := S) g.prompt ns with hn | hn <;> rw [hm, hn] at htexts ⊢
  · rw [hempty] at htexts
    exact (hlen n htexts.symm).symm
  · rw [hempty] at htexts
    exact hlen m htexts

/-- The lines name what is apart where no line of the connection names what a line of another
names. -/
theorem apart_of_disjoint (hlist : ∀ l ∈ ls, lineWord S l.bufin ≠ str "list")
    (hdisjoint : ∀ a ∈ ls, ∀ b ∈ ls, a.pcc = A → b.pcc ≠ A →
      (named S a.bufin).Disjoint (named S b.bufin)) :
    ∀ l ∈ ls, Apart S A (fun n => ∃ a ∈ ls, a.pcc = A ∧ n ∈ named S a.bufin) l := by
  intro l hl
  constructor
  case list => exact hlist l hl
  case own => exact fun hA n hn => ⟨l, hl, hA, hn⟩
  case other =>
    rintro hne n hn ⟨a, ha, hA, hn'⟩
    exact hdisjoint a ha l hl hA hne hn' hn

/-- Alone, the lines of the connection up to `a` are defined where they arrive. -/
def DefinedAlone (S : Scanners) (B : Build) (A : ConnId) (g : Globals) (pre : List LineRead)
    (a : LineRead) : Prop :=
  Lib.StepsMeet (readStep S B) (fun g l => Defined S g l.pcc l.now l.bufin) g
    ((pre ++ [a]).filter (isOwn A))

theorem filter_concat (hA : a.pcc = A) :
    (pre ++ [a]).filter (isOwn A) = pre.filter (isOwn A) ++ [a] := by
  simp [isOwn, hA]

/-- The lines up to `a` come from a state a qigong reaches, are apart, and `a` is the
connection's own. -/
structure Arrives (S : Scanners) (A : ConnId) (mine : Bytes → Prop) (g : Globals)
    (pre : List LineRead) (a : LineRead) : Prop where
  ready : Ready (pre ++ [a]) g
  twins : Twins A mine g g
  apart : ∀ l ∈ pre ++ [a], Apart S A mine l
  own : a.pcc = A

section arrives

theorem Arrives.list (h : Arrives S A mine g pre a) :
    ∀ l ∈ pre ++ [a], lineWord S l.bufin ≠ str "list" := fun l hl => (h.apart l hl).list

theorem Arrives.apart_pre (h : Arrives S A mine g pre a) : ∀ l ∈ pre, Apart S A mine l :=
  fun l hl => h.apart l (List.mem_append_left _ hl)

theorem Arrives.apart_last (h : Arrives S A mine g pre a) : Apart S A mine a :=
  h.apart a (List.mem_append_right _ List.mem_cons_self)

/-- Alone, the line is answered where the connection's lines are defined. -/
theorem Arrives.answered_alone_iff (hS : S.Documented blank ident)
    (h : Arrives S A mine g pre a) :
    (∃ bytes, answer S B A g (pre.filter (isOwn A)) a = some bytes) ↔
      DefinedAlone S B A g pre a := by
  rw [exists_answer_iff, ← filter_concat h.own]
  exact h.ready.run_iff hS h.list fun l hl => List.mem_of_mem_filter hl

/-- Where the line is answered among the others' lines, it is alone. -/
theorem Arrives.alone_of_answered (hS : S.Documented blank ident) (h : Arrives S A mine g pre a)
    {bytes : Bytes} (hanswer : answer S B A g pre a = some bytes) : DefinedAlone S B A g pre a := by
  obtain ⟨g', hs⟩ := exists_answer_iff.mp ⟨bytes, hanswer⟩
  obtain ⟨h', ht, -⟩ := (unwinds hS B A mine).run h.apart h.twins hs
  exact (h.ready.run_iff hS h.list fun l hl => List.mem_of_mem_filter hl).mp ⟨h', ht⟩

/-- **Undisturbed lines go through**, where they do alone. -/
theorem Arrives.answered (hS : S.Documented blank ident) (h : Arrives S A mine g pre a)
    (hu : Undisturbed S B A g pre a) (halone : DefinedAlone S B A g pre a) :
    ∃ bytes, answer S B A g pre a = some bytes := by
  obtain ⟨bytes, hanswer⟩ := (h.answered_alone_iff hS).mpr halone
  obtain ⟨h₁, h₂, ht₁, ht₂, -⟩ := answer_eq_some.mp hanswer
  -- the lines of the others are taken
  have htaken : Lib.StepsMeet (readStep S B)
      (fun g l => isOwn A l = false → ∃ g', readStep S B g l = some g') g pre := by
    refine hu.defined.imp (I := Ready (pre ++ [a])) (P := fun l => l ∈ pre ++ [a]) ?_ ?_ ?_ h.ready
    · exact fun g l g' hg hl hs => hg.step hS (h.list l hl) hs
    · intro g l hg hl hd hown
      exact (hg.ok_iff hS (h.list l hl) hl).mpr (hd (of_decide_eq_false hown))
    · exact fun l hl => List.mem_append_left _ hl
  obtain ⟨g₁, hs₁, htwins⟩ := (unwinds hS B A mine).run_back h.apart_pre h.twins htaken ht₁
  rcases htwins.own hS h.own h.apart_last.list (h.apart_last.own h.own) with
    ⟨-, hnone⟩ | ⟨g₂, -, -, -, -, hs₂, -⟩
  · rw [ht₂] at hnone
    cases hnone
  · exact ⟨_, answer_eq_some.mpr ⟨g₁, g₂, hs₁, hs₂, rfl⟩⟩

/-- Who is answered as if alone was not disturbed. -/
theorem Arrives.undisturbed (hS : S.Documented blank ident) (h : Arrives S A mine g pre a)
    (hsame : answer S B A g pre a = answer S B A g (pre.filter (isOwn A)) a)
    (halone : DefinedAlone S B A g pre a) : Undisturbed S B A g pre a := by
  obtain ⟨bytes, hanswer⟩ := (h.answered_alone_iff hS).mpr halone
  have hgoes := exists_answer_iff.mp ⟨bytes, hsame.trans hanswer⟩
  constructor
  case defined =>
    have hrun := (h.ready.run_iff hS h.list fun l hl => hl).mp hgoes
    refine hrun.of_append.imp (I := fun _ => True) (P := fun _ => True) ?_ ?_ ?_ trivial
    · exact fun _ _ _ _ _ _ => trivial
    · exact fun g l _ _ hd _ => hd
    · exact fun _ _ => trivial
  case prompt =>
    obtain ⟨-, -, body, m, n, -, -, -, -, hmixed, hown⟩ :=
      answers_alike hS h.twins h.apart_pre h.apart_last h.own hgoes
    rw [hmixed, hown] at hsame
    exact (ownPrompt_iff h.own).mpr (promptAfter_of_answers (Option.some.inj hsame))

/-- Who was not disturbed up to the line is answered as if alone. -/
theorem Arrives.answer_alone (hS : S.Documented blank ident) (h : Arrives S A mine g pre a)
    (hu : ∀ pre' a' post', pre ++ [a] = pre' ++ a' :: post' → a'.pcc = A →
      DefinedAlone S B A g pre' a' → Undisturbed S B A g pre' a') :
    answer S B A g pre a = answer S B A g (pre.filter (isOwn A)) a := by
  by_cases halone : DefinedAlone S B A g pre a
  · have hlast := hu pre a [] rfl h.own halone
    have hgoes := exists_answer_iff.mp (h.answered hS hlast halone)
    obtain ⟨g₁, h₁, body, m, n, hs, ht, hm, hn, hmixed, hown⟩ :=
      answers_alike hS h.twins h.apart_pre h.apart_last h.own hgoes
    -- the prompt was its own doing at each of its lines before
    have hprompts : ∀ pre' a' post', pre = pre' ++ a' :: post' → a'.pcc = A →
        OwnPrompt S A g pre' a' := by
      intro pre' a' post' heq hA'
      have hsplit : pre ++ [a] = pre' ++ a' :: (post' ++ [a]) := by
        rw [heq, List.append_assoc, List.cons_append]
      refine (hu pre' a' (post' ++ [a]) hsplit hA' ?_).prompt
      have halone' : Lib.StepsMeet (readStep S B) (fun g l => Defined S g l.pcc l.now l.bufin) g
          ((pre ++ [a]).filter (isOwn A)) := halone
      rw [hsplit, List.append_cons, List.filter_append] at halone'
      exact halone'.of_append
    have hnbp := nbp_alone hS (fun l hl => (h.apart_pre l hl).list) h.ready.calm hprompts hs ht
    rw [hm, hn] at hnbp
    rw [hmixed, hown, (ownPrompt_iff h.own).mp hlast.prompt, Option.some.inj hnbp]
  · -- both times the program has ended
    have hmixed : answer S B A g pre a = none := by
      rw [Option.eq_none_iff_forall_ne_some]
      exact fun bytes hbytes => halone (h.alone_of_answered hS hbytes)
    have hown : answer S B A g (pre.filter (isOwn A)) a = none := by
      rw [Option.eq_none_iff_forall_ne_some]
      exact fun bytes hbytes => halone ((h.answered_alone_iff hS).mp ⟨bytes, hbytes⟩)
    rw [hmixed, hown]

end arrives

/-- **When others are not noticed**: in every state a qigong reaches, the replies to a
connection's lines are those it has alone exactly where, up to every line of its own that is
defined alone, the others' lines are defined and no other's `qiging` cleared its prompt. -/
theorem replies_alone_iff (hS : S.Documented blank ident) {es : List Event}
    (hrun : Lib.run (step S B) boot es = some g) (hlive : ∀ l ∈ ls, g.conns.contains l.pcc = true)
    (hwords : ∀ l ∈ ls, lineWord S l.bufin ∉ [str "list", str "turnoff", str "quit"])
    (hdisjoint : ∀ a ∈ ls, ∀ b ∈ ls, a.pcc = A → b.pcc ≠ A →
      (named S a.bufin).Disjoint (named S b.bufin)) :
    (∀ pre a post, ls = pre ++ a :: post → a.pcc = A →
      answer S B A g pre a = answer S B A g (pre.filter (isOwn A)) a) ↔
    ∀ pre a post, ls = pre ++ a :: post → a.pcc = A → DefinedAlone S B A g pre a →
      Undisturbed S B A g pre a := by
  have hcalm := hushed_of_run hrun
  have hlist : ∀ l ∈ ls, lineWord S l.bufin ≠ str "list" := fun l hl heq =>
    hwords l hl (heq ▸ List.mem_cons_self)
  have harrives : ∀ {pre a post}, ls = pre ++ a :: post → a.pcc = A →
      Arrives S A (fun n => ∃ a ∈ ls, a.pcc = A ∧ n ∈ named S a.bufin) g pre a := by
    intro pre a post heq hA
    have hls : ∀ l ∈ pre ++ [a], l ∈ ls := by
      intro l hl
      rw [heq, List.append_cons]
      exact List.mem_append_left post hl
    have hliveA : g.conns.contains A = true :=
      hA ▸ hlive a (hls a (List.mem_append_right _ List.mem_cons_self))
    constructor
    case ready => exact ⟨hcalm, fun l hl => hlive l (hls l hl)⟩
    case twins => exact ⟨hcalm, hcalm, fun _ _ => rfl, hliveA, hliveA⟩
    case apart => exact fun l hl => apart_of_disjoint hlist hdisjoint l (hls l hl)
    case own => exact hA
  constructor
  · intro h pre a post heq hA
    exact (harrives heq hA).undisturbed hS (h pre a post heq hA)
  · intro h pre a post heq hA
    refine (harrives heq hA).answer_alone hS fun pre' a' post' hsplit => ?_
    refine h pre' a' (post' ++ post) ?_
    rw [heq, List.append_cons, hsplit, List.append_assoc, List.cons_append]

end replies

/-! ## Two clients -/

/-- Two clients connect, and are prompted. -/
def sampleClients : List Event :=
  sampleGreeting ++ [.connected 1 (some ⟨str "probe", noEol_probe⟩), .firstprompt 1]

/-- A line of theirs. -/
def clientLine (pcc : ConnId) (bufin : Bytes) : LineRead := ⟨pcc, 1000, fun _ _ => str "0.5", bufin⟩

/-- Each has a set created, and the first subscribes to its own. -/
def clientLines : List LineRead :=
  [clientLine 0 (str "create web 60 load"), clientLine 1 (str "create db 60 load"),
    clientLine 0 (str "sub web")]

/-- The first is answered as if the second were not there. -/
theorem replies_alone_sample :
    ∃ g, Lib.run (step sampleScanners sampleBuild) boot sampleClients = some g ∧
      ∀ pre a post, clientLines = pre ++ a :: post → a.pcc = 0 →
        answer sampleScanners sampleBuild 0 g pre a
          = answer sampleScanners sampleBuild 0 g (pre.filter (isOwn 0)) a := by
  have hany : (Lib.run (step sampleScanners sampleBuild) boot sampleClients).any (fun g =>
      clientLines.all fun l => g.conns.contains l.pcc) = true := by
    decide +kernel
  obtain ⟨g, hrun, hg⟩ := (Option.any_eq_true _ _).mp hany
  have hwords : ∀ l ∈ clientLines, lineWord sampleScanners l.bufin ∉
      [str "list", str "turnoff", str "quit", str "qiging"] := by
    decide +kernel
  have hnamed : ∀ l ∈ clientLines,
      named sampleScanners l.bufin = if l.pcc = 0 then [str "web"] else [str "db"] := by
    decide +kernel
  have hdefined : ∀ l ∈ clientLines, l.pcc ≠ 0 →
      lineWord sampleScanners l.bufin = str "create" ∧
        (sampleScanners.getidentifier l.bufin 0).2 ≤ l.bufin.length := by
    decide +kernel
  refine ⟨g, hrun, (replies_alone_iff sampleScanners_documented hrun (List.all_eq_true.mp hg)
    ?_ ?_).mpr ?_⟩
  · intro l hl hmem
    exact hwords l hl (List.mem_append_left [str "qiging"] hmem)
  · intro a ha b hb hA hB
    rw [hnamed a ha, hnamed b hb, if_pos hA, if_neg hB, List.singleton_disjoint]
    decide +kernel
  · intro pre a post hsplit hA _
    have hpre : ∀ l ∈ pre, l ∈ clientLines := by
      intro l hl
      rw [hsplit]
      exact List.mem_append_left _ hl
    constructor
    case defined =>
      refine Lib.stepsMeet_of_mem (fun l hl g hne => ?_) g
      obtain ⟨hcreate, hle⟩ := hdefined l (hpre l hl) hne
      unfold Defined
      rwa [if_pos hcreate]
    case prompt =>
      rintro - ⟨b, hb, -, hq⟩
      exact absurd (hq ▸ hwords b (hpre b hb)) (by decide +kernel)

/-- **`qiging` clears the prompt of all**: what the first is answered behind one of the
second ends without a prompt. -/
theorem qiging_noticed :
    ¬ ∀ (S : Scanners) (blank ident : UInt8 → Bool) (B : Build) (es : List Event) (g : Globals)
      (A : ConnId) (ls : List LineRead), S.Documented blank ident →
      Lib.run (step S B) boot es = some g → (∀ l ∈ ls, g.conns.contains l.pcc = true) →
      (∀ l ∈ ls, lineWord S l.bufin ∉ [str "list", str "turnoff", str "quit"]) →
      (∀ a ∈ ls, ∀ b ∈ ls, a.pcc = A → b.pcc ≠ A →
        (named S a.bufin).Disjoint (named S b.bufin)) →
      ∀ pre a post, ls = pre ++ a :: post → a.pcc = A →
        answer S B A g pre a = answer S B A g (pre.filter (isOwn A)) a := by
  intro hall
  have hany : (Lib.run (step sampleScanners sampleBuild) boot sampleClients).any (fun g =>
      [0, 1].all (fun pcc => g.conns.contains pcc) &&
        decide (answer sampleScanners sampleBuild 0 g [clientLine 1 (str "qiging")]
            (clientLine 0 (str "help"))
          ≠ answer sampleScanners sampleBuild 0 g [] (clientLine 0 (str "help")))) = true := by
    decide +kernel
  obtain ⟨g, hrun, hg⟩ := (Option.any_eq_true _ _).mp hany
  simp only [Bool.and_eq_true, decide_eq_true_eq] at hg
  have hlive := List.all_eq_true.mp hg.1
  have hnamed : named sampleScanners (str "help") = [] := by decide +kernel
  refine hg.2 (hall _ _ _ _ _ g 0 [clientLine 1 (str "qiging"), clientLine 0 (str "help")]
    sampleScanners_documented hrun ?_ (by decide +kernel) ?_ [_] _ [] rfl rfl)
  · exact List.forall_mem_cons.mpr ⟨hlive 1 (by decide),
      List.forall_mem_singleton.mpr (hlive 0 (by decide))⟩
  · intro a ha b _ hA _
    have hhelp : a.bufin = str "help" := by
      rcases List.mem_cons.mp ha with rfl | ha
      · exact absurd hA (by decide)
      · rw [List.mem_singleton.mp ha]
        rfl
    rw [hhelp, hnamed]
    exact List.disjoint_nil_left _

end Qigong.Probe
