import Qigong.Probe.Links
import Qigong.Crypt.Connection
import Qigong.Lib.Lines

/-!
# What a qigong says

The text a command writes to the `out` of its connection (`Says`) leaves as one record
when the line has been read, the prompt behind it (`endLine_flushes`). Between events no
`out` holds anything (`hushed_of_run`), so that a record holds the answer to its line
and nothing else. What the lines of a record begin with is what begins a line of the
text (`begins_splitRecord`).
-/

namespace Qigong.Probe

open Globals
open Crypt.CryptConnection (splitRecord)

variable {S : Scanners} {B : Build} {env : Env} {g g' g'' : Globals} {pcc : ConnId}

/-! ## Texts and their lines -/

/-- The lines a record is read as begin with what begins a line of it. -/
theorem begins_splitRecord {w cur text : Bytes} (hw : Lib.Unended isEol w) (hne : w ≠ [])
    (hcur : Lib.Unended isEol cur) :
    (∃ l ∈ splitRecord cur text, w <+: l) ↔ Lib.Begins isEol w (cur ++ text) := by
  fun_induction splitRecord cur text with
  | case1 cur => simp [Lib.begins_iff_prefix hcur]
  | case2 cur c hc => simp [Lib.begins_concat hw hne hcur hc]
  | case3 cur c hc =>
    have hcur' : Lib.Unended isEol (cur ++ [c]) :=
      Lib.unended_append.mpr ⟨hcur, by simpa [Lib.Unended] using hc⟩
    simp [Lib.begins_iff_prefix hcur']
  | case4 cur c d hc hp =>
    have hnil := Lib.begins_concat hw hne noEol_nil (isEol_of_pair hp).2
    rw [Lib.begins_line hw hne hcur hc, ← List.nil_append [d], hnil]
    simp [hne]
  | case5 cur c d rest hc hp hrest ih =>
    have hrest' := Lib.begins_line (t := rest) hw hne noEol_nil (isEol_of_pair hp).2
    have ih' := ih noEol_nil
    rw [List.nil_append] at ih'
    rw [Lib.begins_line hw hne hcur hc, ← List.nil_append (d :: rest), hrest', ← ih']
    simp [hne]
  | case6 cur c d rest hc hp ih =>
    rw [Lib.begins_line hw hne hcur hc, ← List.nil_append (d :: rest), ← ih noEol_nil]
    simp
  | case7 cur c d rest hc ih =>
    have hcur' : Lib.Unended isEol (cur ++ [c]) :=
      Lib.unended_append.mpr ⟨hcur, by simpa [Lib.Unended] using hc⟩
    rw [ih hcur', List.append_assoc]
    rfl

theorem ended_endl (s : Bytes) : Lib.Ended isEol (s ++ endl) := Lib.ended_concat (by decide) s

/-- A text does not begin with a word that begins otherwise. -/
theorem not_prefix_of_head {a b : UInt8} {w s : Bytes} (hw : w.head? = some a)
    (hs : s.head? = some b) (hne : a ≠ b) : ¬ w <+: s := by
  rintro ⟨t, rfl⟩
  rw [List.head?_append, hw, Option.some_or] at hs
  exact hne (Option.some.inj hs)

/-- A line that begins otherwise. -/
theorem not_begins_line {a b : UInt8} {w s : Bytes} (hw : w.head? = some a) (hun : NoEol w)
    (hs : s.head? = some b) (hne : a ≠ b) (hline : NoEol s) : ¬ Lib.Begins isEol w (s ++ endl) := by
  have hnil : w ≠ [] := fun h => by rw [h] at hw; cases hw
  rw [show s ++ endl = s ++ [10] from rfl, Lib.begins_concat hun hnil hline (by decide)]
  exact not_prefix_of_head hw hs hne

/-! ## What is in `out` -/

/-- A change of a connection changes its `out` only. -/
theorem out_modify (g : Globals) (pcc pcc' : ConnId) (f : CollectedConn → CollectedConn) :
    ({ g with conns := g.conns.modify pcc f } : Globals).out pcc'
      = (g.conns.find? pcc').map fun c => (if pcc' = pcc then f c else c).out := by
  unfold Globals.out
  rw [Lib.OrdMap.find?_modify, Option.map_map]
  rfl

/-- A text is written behind what waits to be flushed. -/
theorem out_write (g : Globals) (pcc pcc' : ConnId) (text : Bytes) :
    (g.write pcc text).out pcc'
      = if pcc' = pcc then (g.out pcc').map (· ++ text) else g.out pcc' := by
  rw [show (g.write pcc text).out pcc' = _ from out_modify ..]
  unfold Globals.out
  split
  · rw [Option.map_map]
    rfl
  · rfl

theorem flush_eq {c : CollectedConn} (h : g.conns.find? pcc = some c) :
    g.flush pcc = { g with conns := g.conns.modify pcc fun c => { c with out := [] },
                           sent := g.sent ++ [(pcc, c.out)] } := by
  unfold Globals.flush
  rw [h]

/-- A flush leaves nothing waiting. -/
theorem out_flush (g : Globals) (pcc pcc' : ConnId) :
    (g.flush pcc).out pcc' = if pcc' = pcc then (g.out pcc').map fun _ => [] else g.out pcc' := by
  cases h : g.conns.find? pcc with
  | none =>
    have hflush : g.flush pcc = g := by
      unfold Globals.flush
      rw [h]
    have hout : g.out pcc = none := by rw [Globals.out, h]; rfl
    rw [hflush]
    by_cases heq : pcc' = pcc
    · rw [if_pos heq, heq, hout]
      rfl
    · rw [if_neg heq]
  | some c =>
    rw [flush_eq h]
    refine (out_modify g pcc pcc' fun c => { c with out := [] }).trans ?_
    unfold Globals.out
    split
    · rw [Option.map_map]
      rfl
    · rfl

theorem flush_rest (g : Globals) (pcc : ConnId) :
    (g.flush pcc).prompt = g.prompt ∧ (g.flush pcc).hostname = g.hostname := by
  unfold Globals.flush
  split <;> exact ⟨rfl, rfl⟩

/-- What waited is sent. -/
theorem sent_flush {t : Bytes} (h : g.out pcc = some t) :
    (g.flush pcc).sent = g.sent ++ [(pcc, t)] := by
  obtain ⟨c, hc, rfl⟩ := Option.map_eq_some_iff.mp h
  rw [flush_eq hc]

/-- `g'` is `g` with a text written to a connection, as far as the connection is told. -/
structure Says (pcc : ConnId) (text : Bytes) (g g' : Globals) : Prop where
  sent : g'.sent = g.sent
  prompt : g'.prompt = g.prompt
  out : g'.out pcc = (g.out pcc).map (· ++ text)

/-- To write a text is to have it said. -/
theorem says_write (g : Globals) (pcc : ConnId) (text : Bytes) : Says pcc text g (g.write pcc text) :=
  ⟨rfl, rfl, by rw [out_write, if_pos rfl]⟩

/-- A change that is not told. -/
theorem says_nothing (hsent : g'.sent = g.sent) (hprompt : g'.prompt = g.prompt)
    (hout : g'.out pcc = g.out pcc) : Says pcc [] g g' :=
  ⟨hsent, hprompt, by rw [hout]; simp⟩

/-- Texts are said one behind the other. -/
theorem Says.trans {t u : Bytes} (h : Says pcc t g g') (h' : Says pcc u g' g'') :
    Says pcc (t ++ u) g g'' where
  sent := h'.sent.trans h.sent
  prompt := h'.prompt.trans h.prompt
  out := by
    rw [h'.out, h.out, Option.map_map]
    exact congrArg (Option.map · _) (funext fun x => List.append_assoc x t u)

/-- A text written behind a change that is not told. -/
theorem says_write_of (hsent : g'.sent = g.sent) (hprompt : g'.prompt = g.prompt)
    (hout : g'.out pcc = g.out pcc) (text : Bytes) : Says pcc text g (g'.write pcc text) := by
  have h := (says_nothing hsent hprompt hout).trans (says_write g' pcc text)
  rwa [List.nil_append] at h

/-- Other subscriptions, or another count, and the same `out`. -/
theorem out_modify_same {f : CollectedConn → CollectedConn} (hf : ∀ c, (f c).out = c.out)
    (pcc pcc' : ConnId) (g : Globals) :
    ({ g with conns := g.conns.modify pcc f } : Globals).out pcc' = g.out pcc' := by
  rw [out_modify]
  unfold Globals.out
  refine congrArg (Option.map · _) (funext fun c => ?_)
  split
  · exact hf c
  · rfl

/-! ## What is flushed -/

/-- The end of a line's answer. -/
def promptText (prompt : Bytes) (nbp : Nat) : Bytes :=
  if prompt = [] then [] else prompt ++ decimal nbp ++ str " : " ++ eos

/-- The prompt is empty, or names a host. -/
def PromptNames (prompt : Bytes) : Prop :=
  prompt = [] ∨ ∃ h, NoEol h ∧ prompt = str "qigong[" ++ h ++ str "] : "

/-- The prompt begins with the letter of its own word. -/
theorem not_begins_promptText {a : UInt8} {w prompt : Bytes} {nbp : Nat} (hw : w.head? = some a)
    (hun : NoEol w) (hq : a ≠ 113) (hp : PromptNames prompt) :
    ¬ Lib.Begins isEol w (promptText prompt nbp) := by
  have hnil : w ≠ [] := fun h => by rw [h] at hw; cases hw
  unfold promptText
  split
  case isTrue => exact Lib.begins_nil hnil
  case isFalse hne =>
    obtain ⟨h, hh, rfl⟩ := hp.resolve_left hne
    have hline : NoEol (str "qigong[" ++ h ++ str "] : " ++ decimal nbp ++ str " : ") := by
      simp only [noEol_append, hh, noEol_decimal]
      decide
    rw [eos, Lib.begins_concat hun hnil hline (by decide)]
    exact not_prefix_of_head hw rfl hq

/-- `lineread` ends with the prompt, numbered, and flushes. -/
theorem endLine_prompts {c : CollectedConn} (hc : g.conns.find? pcc = some c) :
    (g.endLine pcc).sent = g.sent ++ [(pcc, c.out ++ promptText g.prompt c.nbp)] ∧
      ∀ pcc', (g.endLine pcc).out pcc' = if pcc' = pcc then some [] else g.out pcc' := by
  have h : g.out pcc = some c.out := by rw [Globals.out, hc]; rfl
  have hprompt : ∃ g₁ : Globals, g.endLine pcc = g₁.flush pcc ∧ g₁.sent = g.sent ∧
      g₁.out pcc = some (c.out ++ promptText g.prompt c.nbp) ∧
      ∀ pcc', pcc' ≠ pcc → g₁.out pcc' = g.out pcc' := by
    unfold Globals.endLine promptText
    split
    case isTrue => exact ⟨g, rfl, rfl, by rw [h, List.append_nil], fun _ _ => rfl⟩
    case isFalse =>
      refine ⟨g.writePrompt pcc, rfl, rfl, ?_, fun pcc' hne => ?_⟩
      · rw [show (g.writePrompt pcc).out pcc = _ from out_modify .., hc]
        simp
      · rw [show (g.writePrompt pcc).out pcc' = _ from out_modify ..]
        simp only [if_neg hne]
        rfl
  obtain ⟨g₁, heq, hsent, hout, hother⟩ := hprompt
  refine ⟨?_, fun pcc' => ?_⟩
  · rw [heq, sent_flush hout, hsent]
  · rw [heq, out_flush]
    split
    case isTrue heq' => rw [heq', hout]; rfl
    case isFalse hne => exact hother pcc' hne

theorem endLine_flushes {t : Bytes} (h : g.out pcc = some t) :
    ∃ nbp, (g.endLine pcc).sent = g.sent ++ [(pcc, t ++ promptText g.prompt nbp)] ∧
      ∀ pcc', (g.endLine pcc).out pcc' = if pcc' = pcc then some [] else g.out pcc' := by
  obtain ⟨c, hc, rfl⟩ := Option.map_eq_some_iff.mp h
  exact ⟨c.nbp, endLine_prompts hc⟩

theorem endLine_rest (g : Globals) (pcc : ConnId) :
    (g.endLine pcc).prompt = g.prompt ∧ (g.endLine pcc).hostname = g.hostname := by
  unfold Globals.endLine
  split
  · exact flush_rest g pcc
  · exact flush_rest (g.writePrompt pcc) pcc

/-! ## Between events nothing is left to say -/

/-- Between events every `out` is empty. -/
structure Hushed (g : Globals) : Prop where
  prompt : PromptNames g.prompt
  hostname : NoEol g.hostname
  out : ∀ pcc t, g.out pcc = some t → t = []

/-- Within an event of a connection, every other `out` is empty. -/
structure HushedBut (pcc : ConnId) (g : Globals) : Prop where
  prompt : PromptNames g.prompt
  hostname : NoEol g.hostname
  out : ∀ pcc' t, pcc' ≠ pcc → g.out pcc' = some t → t = []

theorem Hushed.but (h : Hushed g) (pcc : ConnId) : HushedBut pcc g :=
  ⟨h.prompt, h.hostname, fun pcc' t _ => h.out pcc' t⟩

/-- What `tell` does to the texts: it flushes. -/
theorem tell_texts {text : Bytes} {pccs : List ConnId} (h : g.tell text pccs = .ok g') :
    g'.prompt = g.prompt ∧ g'.hostname = g.hostname ∧ g.sent <+: g'.sent ∧
      ∀ pcc, g'.out pcc = g.out pcc ∨ g'.out pcc = some [] := by
  induction pccs generalizing g with
  | nil =>
    obtain rfl := Except.ok.inj h
    exact ⟨rfl, rfl, List.prefix_rfl, fun _ => .inl rfl⟩
  | cons pcc₀ pccs ih =>
    rw [Globals.tell] at h
    split at h
    case isFalse => cases h
    case isTrue hlive =>
      obtain ⟨hprompt, hhost, hsent, hout⟩ := ih h
      obtain ⟨c, hc⟩ := Lib.OrdMap.contains_iff.mp hlive
      have hc' : ((g.write pcc₀ (endl ++ text)).conns.find? pcc₀)
          = some { c with out := c.out ++ (endl ++ text) } := by
        rw [Globals.write, Lib.OrdMap.find?_modify, hc]
        simp
      have hflush := flush_eq hc'
      refine ⟨?_, ?_, ?_, fun pcc => ?_⟩
      · rw [hprompt, hflush]
        rfl
      · rw [hhost, hflush]
        rfl
      · rw [hflush] at hsent
        exact (List.prefix_append _ _).trans hsent
      · rcases hout pcc with h | h
        · rw [h, out_flush]
          by_cases heq : pcc = pcc₀
          · rw [if_pos heq, heq, Globals.out, hc']
            exact .inr rfl
          · rw [if_neg heq, out_write, if_neg heq]
            exact .inl rfl
        · exact .inr h

theorem HushedBut.write {pcc : ConnId} (hg : HushedBut pcc g) (text : Bytes) :
    HushedBut pcc (g.write pcc text) where
  prompt := hg.prompt
  hostname := hg.hostname
  out pcc' t hne h := by
    rw [out_write, if_neg hne] at h
    exact hg.out pcc' t hne h

theorem hushed_keptByActs (env : Env) (pcc : ConnId) : KeptByActs env pcc (HushedBut pcc) where
  write _ text hg := hg.write text
  prompt g hg := ⟨.inl rfl, hg.hostname, hg.out⟩
  register g rs _ _ _ hg := ⟨hg.prompt, hg.hostname, hg.out⟩
  suppress g ident r h hg := by
    rcases suppress_cases h with ⟨-, rfl⟩ | ⟨prs, rs, -, -, -, rfl⟩
    · exact hg.write _
    · refine HushedBut.write ?_ _
      exact ⟨hg.prompt, hg.hostname, hg.out⟩
  activate g ident r h hg := by
    rcases activate_cases h with ⟨-, rfl⟩ | ⟨prs, e, g₁, -, hm, rfl⟩
    · exact hg.write _
    · obtain ⟨rs, -, -, htell⟩ := measure_tells hm
      obtain ⟨hprompt, hhost, -, hout⟩ := tell_texts htell
      refine ⟨?_, ?_, fun pcc' t hne h => ?_⟩
      · show PromptNames g₁.prompt
        rw [hprompt]
        exact hg.prompt
      · show NoEol g₁.hostname
        rw [hhost]
        exact hg.hostname
      · rcases hout pcc' with h' | h'
        · exact hg.out pcc' t hne (h' ▸ h)
        · exact (Option.some.inj (h'.symm.trans h)).symm
  add_subs g prs g' h hg := by
    obtain ⟨-, rfl⟩ := add_subs_eq h
    exact ⟨hg.prompt, hg.hostname, fun pcc' t hne h => hg.out pcc' t hne
      ((out_modify_same (fun c => by rfl) pcc pcc' g).symm.trans h)⟩
  remove_subs g prs g' h hg := by
    obtain rfl := remove_subs_eq h
    exact ⟨hg.prompt, hg.hostname, fun pcc' t hne h => hg.out pcc' t hne
      ((out_modify_same (fun c => by rfl) pcc pcc' g).symm.trans h)⟩

/-- The loop over the schedule flushes all it says. -/
theorem pollSchedule_texts {fuel : Nat} {kept : List Entry}
    (h : g.pollSchedule env fuel kept = .ok g') :
    g'.prompt = g.prompt ∧ g'.hostname = g.hostname ∧
      ∀ pcc, g'.out pcc = g.out pcc ∨ g'.out pcc = some [] := by
  have hturn : KeptByTurns env fun _ g₁ => g₁.prompt = g.prompt ∧ g₁.hostname = g.hostname ∧
      ∀ pcc, g₁.out pcc = g.out pcc ∨ g₁.out pcc = some [] := by
    rintro kept g₁ e es r ⟨hprompt₁, hhost₁, hout₁⟩ - hm
    obtain ⟨rs, -, -, htell⟩ := measure_tells hm
    obtain ⟨hprompt, hhost, -, hout⟩ := tell_texts htell
    have hsaid : r.2.prompt = g.prompt ∧ r.2.hostname = g.hostname ∧
        ∀ pcc, r.2.out pcc = g.out pcc ∨ r.2.out pcc = some [] := by
      refine ⟨hprompt.trans hprompt₁, hhost.trans hhost₁, fun pcc => ?_⟩
      rcases hout pcc with h' | h'
      · rw [h']
        exact hout₁ pcc
      · exact .inr h'
    exact ⟨fun _ => hsaid, fun _ => hsaid⟩
  obtain ⟨kept', g₁, hsaid, rfl⟩ := pollSchedule_rule hturn h ⟨rfl, rfl, fun _ => .inl rfl⟩
  exact hsaid

theorem firstprompt_flushes (B : Build) (g : Globals) (pcc : ConnId) :
    ∃ g₁ : Globals, g.firstprompt B pcc = g₁.flush pcc ∧
      g₁.prompt = str "qigong[" ++ g.hostname ++ str "] : " ∧ g₁.hostname = g.hostname ∧
      ∀ pcc', pcc' ≠ pcc → g₁.out pcc' = g.out pcc' := by
  refine ⟨_, rfl, rfl, rfl, fun pcc' hne => ?_⟩
  rw [show (Globals.writePrompt _ pcc).out pcc' = _ from out_modify ..]
  simp only [if_neg hne]
  exact (out_write g pcc pcc' _).trans (if_neg hne)

/-- A connection that is made has nothing to flush. -/
theorem Hushed.connect (hh : Hushed g) (pcc : ConnId) (gethostname : Option Globals.Hostname) :
    Hushed (g.connect pcc gethostname) where
  prompt := hh.prompt
  hostname := by
    cases gethostname with
    | none => exact hh.hostname
    | some host => exact host.noEol
  out pcc' t h := by
    have h' : ((g.conns.insert pcc ⟨0, .empty, []⟩).find? pcc').map (·.out) = some t := h
    rw [Lib.OrdMap.find?_insert] at h'
    split at h'
    · exact (Option.some.inj h').symm
    · exact hh.out pcc' t h'

/-- The first prompt is flushed. -/
theorem Hushed.firstprompt (hh : Hushed g) (B : Build) (pcc : ConnId) :
    Hushed (g.firstprompt B pcc) := by
  obtain ⟨g₁, heq, hprompt, hhost, hout⟩ := firstprompt_flushes B g pcc
  rw [heq]
  refine ⟨?_, ?_, fun pcc' t h => ?_⟩
  · rw [(flush_rest g₁ pcc).1, hprompt]
    exact .inr ⟨g.hostname, hh.hostname, rfl⟩
  · rw [(flush_rest g₁ pcc).2, hhost]
    exact hh.hostname
  · rw [out_flush] at h
    split at h
    case isTrue =>
      obtain ⟨-, -, rfl⟩ := Option.map_eq_some_iff.mp h
      rfl
    case isFalse hne => exact hh.out pcc' t (hout pcc' hne ▸ h)

/-- The end of a line flushes what its command has left. -/
theorem HushedBut.endLine {out : Bytes} (h : HushedBut pcc g) (hlive : g.out pcc = some out) :
    Hushed (g.endLine pcc) := by
  obtain ⟨n, -, hout⟩ := endLine_flushes hlive
  have hrest := endLine_rest g pcc
  refine ⟨hrest.1 ▸ h.prompt, hrest.2 ▸ h.hostname, fun pcc' t ht => ?_⟩
  rw [hout] at ht
  split at ht
  case isTrue => exact (Option.some.inj ht).symm
  case isFalse hne => exact h.out pcc' t hne ht

/-- A connection that ends leaves the others as they are. -/
theorem Hushed.destroy (hh : Hushed g) (h : g.destroy pcc = .ok g') : Hushed g' := by
  unfold Globals.destroy at h
  split at h
  · cases h
  · obtain ⟨g₁, hg, rfl⟩ := map_eq_ok.mp h
    obtain ⟨-, ⟨hconns, hprompt, hhost⟩, -⟩ := foldlM_remove_channel hg
    refine ⟨hprompt ▸ hh.prompt, hhost ▸ hh.hostname, fun pcc' t ht => ?_⟩
    have ht' : ((g₁.conns.erase pcc).find? pcc').map (·.out) = some t := ht
    rw [hconns, Lib.OrdMap.find?_erase] at ht'
    split at ht'
    · cases ht'
    · exact hh.out pcc' t ht'

/-- **Step lemma**: between events every `out` is empty. -/
theorem step_hushed {e : Event} (hl : Linked g ∧ Hushed g) (h : step S B g e = some g') :
    Linked g' ∧ Hushed g' := by
  refine ⟨step_linked hl.1 h, ?_⟩
  obtain ⟨hp, hr⟩ := step_eq_some h
  obtain ⟨hl, hh⟩ := hl
  cases e with
  | connected pcc gethostname =>
    obtain rfl := Except.ok.inj hr
    exact hh.connect pcc gethostname
  | firstprompt pcc =>
    obtain rfl := Except.ok.inj hr
    exact hh.firstprompt B pcc
  | line pcc env bufin =>
    obtain ⟨g₁, hc, rfl⟩ := map_eq_ok.mp hr
    have h₁ := (hushed_keptByActs env pcc).command (hh.but pcc) hc
    -- the connection lives through its own command
    obtain ⟨-, m, hm⟩ := (linked_keptByActs env pcc).command ⟨hl, live_iff.mp hp⟩ hc
    obtain ⟨c, hc, -⟩ := Option.map_eq_some_iff.mp hm
    have hlive : g₁.out pcc = some c.out := by rw [Globals.out, hc]; rfl
    exact h₁.endLine hlive
  | destroyed pcc => exact hh.destroy hr
  | select_poll env =>
    obtain ⟨hprompt, hhost, hout⟩ := pollSchedule_texts hr
    refine ⟨hprompt ▸ hh.prompt, hhost ▸ hh.hostname, fun pcc t h => ?_⟩
    rcases hout pcc with h' | h'
    · exact hh.out pcc t (h' ▸ h)
    · exact (Option.some.inj (h'.symm.trans h)).symm

theorem hushed_boot : Hushed boot where
  prompt := .inr ⟨str "unknown_host", by decide, by decide⟩
  hostname := by decide
  out _ _ h := (nomatch h)

/-- In every state a qigong reaches the stores are linked and every `out` is empty. -/
theorem hushed_of_run {es : List Event} (h : Lib.run (step S B) boot es = some g) :
    Linked g ∧ Hushed g :=
  Lib.run_invariant (fun _ _ _ hg he => step_hushed hg he) ⟨linked_boot, hushed_boot⟩ h

end Qigong.Probe
