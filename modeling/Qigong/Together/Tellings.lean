import Qigong.Probe.Commands
import Qigong.Probe.Measures
import Qigong.Probe.Touches

/-!
# What a connection is told

A connection of a qigong is told texts of whole lines: what a command says, prompts, and
the records of the sets it subscribes to. Here a test looks for some of these lines
(`picks`). Most of what is said it picks nothing of (`Clean`), whatever the test is, if it
goes by how the lines begin (`Unpicked`). From one state to another the lines it picks of
what a connection is told have some property (`Tells`); of what other connections do, and
of the schedule, only the records count (`step_tells`).
-/

namespace Qigong.Together

open Probe Probe.Globals
open Crypt.CryptConnection (splitRecord)

variable {S : Scanners} {B : Build} {env : Env} {g₀ g g' : Globals} {pcc pcc' : ConnId}
variable {blank ident : UInt8 → Bool} {p : Bytes → Bool} {Q : Bytes → Prop}

/-! ## The lines of a text -/

/-- The lines of a text that a test picks. -/
def picks (p : Bytes → Bool) (text : Bytes) : List Bytes := (splitRecord [] text).filter p

/-- Of the lines of a record, those that are not empty are the pieces between its line
ends. -/
theorem filter_splitRecord (hp : p [] = false) {cur : Bytes} (hcur : NoEol cur) (text : Bytes) :
    (splitRecord cur text).filter p = ((cur ++ text).splitOnP isEol).filter p := by
  -- `splitRecord` takes a pair of line ends as one, `splitOnP` as two: an empty piece more, which
  -- is not picked
  fun_induction splitRecord cur text with
  | case1 cur => rw [List.append_nil, List.splitOnP_eq_singleton hcur]
  | case2 cur c hc =>
    rw [List.splitOnP_append_cons_of_forall_mem hcur c hc, List.splitOnP_nil]
    simp [List.filter_cons, hp]
  | case3 cur c hc =>
    have hcur' : NoEol (cur ++ [c]) := noEol_append.mpr ⟨hcur, by simpa [NoEol] using hc⟩
    rw [List.splitOnP_eq_singleton hcur']
  | case4 cur c d hc hpair =>
    rw [List.splitOnP_append_cons_of_forall_mem hcur c hc,
      show [d] = [] ++ [d] from rfl, List.splitOnP_append_cons [] [] (isEol_of_pair hpair).2]
    simp [List.filter_cons, hp]
  | case5 cur c d rest hc hpair hrest ih =>
    rw [List.splitOnP_append_cons_of_forall_mem hcur c hc,
      show d :: rest = [] ++ d :: rest from rfl,
      List.splitOnP_append_cons [] rest (isEol_of_pair hpair).2, List.splitOnP_nil,
      List.filter_cons, List.filter_cons, ih noEol_nil]
    simp [hp]
  | case6 cur c d rest hc hpair ih =>
    rw [List.splitOnP_append_cons_of_forall_mem hcur c hc, List.filter_cons, List.filter_cons,
      ih noEol_nil]
    rfl
  | case7 cur c d rest hc ih =>
    have hcur' : NoEol (cur ++ [c]) := noEol_append.mpr ⟨hcur, by simpa [NoEol] using hc⟩
    rw [ih hcur', List.append_assoc]
    rfl

theorem picks_eq (hp : p [] = false) (text : Bytes) :
    picks p text = (text.splitOnP isEol).filter p := filter_splitRecord hp noEol_nil text

theorem picks_nil (hp : p [] = false) : picks p [] = [] := by
  show [[]].filter p = []
  simp [hp]

/-- **What is picked of two pieces** is what is picked of each, the first being of whole
lines. -/
theorem picks_append (hp : p [] = false) {t : Bytes} (ht : Lib.Ended isEol t) (u : Bytes) :
    picks p (t ++ u) = picks p t ++ picks p u := by
  rcases List.eq_nil_or_concat t with rfl | ⟨s, c, rfl⟩
  · rw [picks_nil hp, List.nil_append, List.nil_append]
  · -- the last character of the first piece is a line end, so no line goes on into the second
    rw [List.concat_eq_append] at ht ⊢
    have hc : isEol c = true := ht c (by rw [List.getLast?_concat])
    rw [picks_eq hp, picks_eq hp, picks_eq hp, List.append_assoc, List.singleton_append,
      List.splitOnP_append_cons s u hc, List.splitOnP_append_cons s [] hc, List.splitOnP_nil,
      List.filter_append, List.filter_append]
    simp [hp]

/-- A line and its end. -/
theorem picks_line (hp : p [] = false) {line : Bytes} {c : UInt8} (hline : NoEol line)
    (hc : isEol c = true) : picks p (line ++ [c]) = [line].filter p := by
  rw [picks_eq hp, List.splitOnP_append_cons_of_forall_mem hline c hc, List.splitOnP_nil]
  simp [List.filter_cons, hp]

/-- A text of whole lines, none of which is picked. -/
structure Clean (p : Bytes → Bool) (text : Bytes) : Prop where
  ended : Lib.Ended isEol text
  picks : picks p text = []

theorem clean_nil (hp : p [] = false) : Clean p [] := ⟨Lib.ended_nil, picks_nil hp⟩

/-- Clean texts in a row are clean. -/
theorem Clean.append (hp : p [] = false) {t u : Bytes} (ht : Clean p t) (hu : Clean p u) :
    Clean p (t ++ u) :=
  ⟨ht.ended.append hu.ended, by rw [picks_append hp ht.ended, ht.picks, hu.picks]; rfl⟩

/-- So is a line that is not picked, with its end. -/
theorem clean_concat (hp : p [] = false) {line : Bytes} {c : UInt8} (hline : NoEol line)
    (hc : isEol c = true) (h : p line = false) : Clean p (line ++ [c]) := by
  refine ⟨Lib.ended_concat hc line, ?_⟩
  rw [picks_line hp hline hc]
  simp [h]

theorem clean_of_not (hp : p [] = false) {line : Bytes} (hline : NoEol line) (h : p line = false) :
    Clean p (line ++ endl) := clean_concat hp hline (by decide) h

theorem clean_endl (hp : p [] = false) : Clean p endl := by
  have h : Clean p ([] ++ endl) := clean_of_not hp noEol_nil hp
  rwa [List.nil_append] at h

theorem clean_flatMap (hp : p [] = false) {α : Type} {f : α → Bytes} {xs : List α}
    (h : ∀ x ∈ xs, Clean p (f x)) : Clean p (xs.flatMap f) := by
  induction xs with
  | nil => exact clean_nil hp
  | cons x xs ih =>
    rw [List.flatMap_cons]
    exact (h x List.mem_cons_self).append hp (ih fun y hy => h y (List.mem_cons_of_mem x hy))

/-! ## Tests that go by how lines begin -/

/-- The characters that the answers to commands, and the records, begin with. -/
def newsHeads : List UInt8 := [45, 100, 99, 97, 115]

/-- The test picks no empty line, no line that begins with another character, and not what
is said of a deletion, or of an activation that fails. -/
structure Unpicked (p : Bytes → Bool) : Prop where
  nil : p [] = false
  head : ∀ l b, l.head? = some b → b ∉ newsHeads → p l = false
  deletion : ∀ rest, p (str "deleti" ++ rest) = false
  activation : ∀ rest, p (str "activati" ++ rest) = false

/-- A line that begins with another character. -/
theorem Unpicked.line (hp : Unpicked p) {line : Bytes} {b : UInt8} (hline : NoEol line)
    (hl : line.head? = some b) (hb : b ∉ newsHeads) : Clean p (line ++ endl) :=
  clean_of_not hp.nil hline (hp.head line b hl hb)

theorem noEol_newsHead {a : UInt8} (ha : a ∈ newsHeads) : NoEol [a] := by
  have hnews : ∀ a ∈ newsHeads, isEol a = false := forall_mem_of_all (by decide)
  exact fun c hc => List.mem_singleton.mp hc ▸ hnews a ha

/-- Nothing is picked of a text none of whose lines begins as news do. -/
theorem Unpicked.of_not_begins (hp : Unpicked p) {text : Bytes}
    (h : ∀ a ∈ newsHeads, ¬ Lib.Begins isEol [a] text) : picks p text = [] := by
  refine List.filter_eq_nil_iff.mpr fun l hl => ?_
  rw [Bool.not_eq_true]
  -- `p` looks at the first character only
  cases l with
  | nil => exact hp.nil
  | cons b l =>
    refine hp.head _ b rfl fun hb => h b hb ?_
    exact (begins_splitRecord (noEol_newsHead hb) (List.cons_ne_nil b []) noEol_nil).mp
      ⟨_, hl, List.prefix_append [b] l⟩

theorem Unpicked.missing (hp : Unpicked p) (b : Bool) : Clean p (if b then missingText else []) := by
  cases b
  · exact clean_nil hp.nil
  · have hline : NoEol (str "error: missing identifier") := by decide
    exact hp.line hline rfl (by decide)

/-- Complaints begin otherwise. -/
theorem Unpicked.complaint (hp : Unpicked p) {text : Bytes} (h : Complaint text) : Clean p text := by
  refine ⟨h.ended, hp.of_not_begins fun a ha => ?_⟩
  exact h.not_begins rfl (noEol_newsHead ha) fun heq => absurd (heq ▸ ha) (by decide)

/-- And so does the prompt, whatever the host is called. -/
theorem Unpicked.promptText (hp : Unpicked p) {prompt : Bytes} (hprompt : PromptNames prompt)
    (n : Nat) : Clean p (promptText prompt n) := by
  refine ⟨?_, hp.of_not_begins fun a ha => ?_⟩
  · unfold Probe.promptText
    split
    · exact Lib.ended_nil
    · exact Lib.ended_concat (by decide) _
  · exact not_begins_promptText rfl (noEol_newsHead ha)
      (fun heq => absurd (heq ▸ ha) (by decide)) hprompt

theorem Unpicked.unknown (hp : Unpicked p) {i : Bytes} (hi : NoEol i) :
    Clean p (str "unknown recordset " ++ quoted i ++ endl) := by
  have hline : NoEol (str "unknown recordset " ++ quoted i) := by
    rw [noEol_append, noEol_quoted]
    exact ⟨by decide, hi⟩
  exact hp.line hline rfl (by decide)

/-- What is said while a set is deleted is not what is said when it is. -/
theorem Unpicked.deletionTexts (hp : Unpicked p) : Clean p deletionTexts := by
  have hone : ∀ rest : Bytes, NoEol rest → Clean p (str "deleti" ++ rest ++ endl) := by
    intro rest hrest
    have hline : NoEol (str "deleti" ++ rest) := noEol_append.mpr ⟨by decide, hrest⟩
    exact clean_of_not hp.nil hline (hp.deletion rest)
  have hun : NoEol (str "unsubscribing channels") := by decide
  exact (((hone (str "ng scheduled entries") (by decide)).append hp.nil
    (hone (str "ng recordset entries") (by decide))).append hp.nil
      (hp.line hun rfl (by decide))).append hp.nil (hone (str "ng recordset object") (by decide))

/-- The description of a set whose names are on one line each. -/
theorem Unpicked.dump (hp : Unpicked p) {rs : RecordSet} (hname : NoEol rs.name)
    (hlmp : ∀ m ∈ rs.lmp, NoEol m.getname) : Clean p rs.dump := by
  have hone : NoEol (str "RecordSet: " ++ quoted rs.name ++ str ":") := by
    simp only [noEol_append, noEol_quoted, hname]
    decide
  have htwo : NoEol (str "    RefreshInterval: " ++ decimal rs.interval ++ str "s") := by
    simp only [noEol_append, noEol_decimal]
    decide
  have hthree : NoEol (str "    MeasurePoint:") := by decide
  have hpoints : Clean p (rs.lmp.flatMap fun m => str "        " ++ m.getname ++ endl) := by
    refine clean_flatMap hp.nil fun m hm => ?_
    have hline : NoEol (str "        " ++ m.getname) := noEol_append.mpr ⟨by decide, hlmp m hm⟩
    exact hp.line hline rfl (by decide)
  exact (((hp.line hone rfl (by decide)).append hp.nil (hp.line htwo rfl (by decide))).append hp.nil
    (hp.line hthree rfl (by decide))).append hp.nil hpoints

/-! ## From one state to another -/

/-- From `g₀` to `g` the lines picked of the texts flushed to the connection are such, and
nothing is picked of what is left in its `out`. -/
structure Tells (p : Bytes → Bool) (Q : Bytes → Prop) (pcc : ConnId) (g₀ g : Globals) : Prop where
  sent : ∃ new, g.sent = g₀.sent ++ new ∧ ∀ x ∈ new, x.1 = pcc → ∀ l ∈ picks p x.2, Q l
  out : ∀ t, g.out pcc = some t → Clean p t

/-- While nothing happens nothing is told. -/
theorem tells_refl (hp : p [] = false) (h : Hushed g) (pcc : ConnId) : Tells p Q pcc g g where
  sent := ⟨[], (List.append_nil _).symm, fun _ hx => absurd hx List.not_mem_nil⟩
  out t ht := h.out pcc t ht ▸ clean_nil hp

/-- A change that is not told. -/
theorem Tells.of_eq (h : Tells p Q pcc g₀ g) (hsent : g'.sent = g.sent)
    (hout : g'.out pcc = g.out pcc) : Tells p Q pcc g₀ g' where
  sent := hsent ▸ h.sent
  out t ht := h.out t (hout ▸ ht)

/-- A clean text is written. -/
theorem Tells.write (hp : p [] = false) (h : Tells p Q pcc g₀ g) {text : Bytes}
    (htext : pcc' = pcc → Clean p text) : Tells p Q pcc g₀ (g.write pcc' text) where
  sent := h.sent
  out t ht := by
    rw [out_write] at ht
    split at ht
    case isTrue heq =>
      obtain ⟨t', ht', rfl⟩ := Option.map_eq_some_iff.mp ht
      exact (h.out t' ht').append hp (htext heq.symm)
    case isFalse => exact h.out t ht

/-- A flush, where what is picked of what it flushes is such. -/
theorem tells_flush (hp : p [] = false)
    (hsent : ∃ new, g.sent = g₀.sent ++ new ∧ ∀ x ∈ new, x.1 = pcc → ∀ l ∈ picks p x.2, Q l)
    (hother : pcc' ≠ pcc → ∀ t, g.out pcc = some t → Clean p t)
    (htext : pcc' = pcc → ∀ t, g.out pcc = some t → ∀ l ∈ picks p t, Q l) :
    Tells p Q pcc g₀ (g.flush pcc') := by
  -- a connection that is gone is flushed nothing
  cases hc : g.conns.find? pcc' with
  | none =>
    have hflush : g.flush pcc' = g := by
      unfold Globals.flush
      rw [hc]
    rw [hflush]
    refine ⟨hsent, fun t ht => hother ?_ t ht⟩
    rintro rfl
    rw [Globals.out, hc] at ht
    cases ht
  | some c =>
    have hout : g.out pcc' = some c.out := by rw [Globals.out, hc]; rfl
    constructor
    · obtain ⟨new, hnew, hpicks⟩ := hsent
      refine ⟨new ++ [(pcc', c.out)], ?_, fun x hx heq => ?_⟩
      · rw [sent_flush hout, hnew, List.append_assoc]
      · rcases List.mem_append.mp hx with hx | hx
        · exact hpicks x hx heq
        · obtain rfl := List.mem_singleton.mp hx
          obtain rfl : pcc' = pcc := heq
          exact htext rfl c.out hout
    · intro t ht
      rw [out_flush] at ht
      split at ht
      · obtain ⟨-, -, rfl⟩ := Option.map_eq_some_iff.mp ht
        exact clean_nil hp
      · rename_i hne
        exact hother (Ne.symm hne) t ht

/-- What is flushed is clean, and so nothing is picked of it. -/
theorem Tells.flush (hp : p [] = false) (h : Tells p Q pcc g₀ g) (pcc' : ConnId) :
    Tells p Q pcc g₀ (g.flush pcc') := by
  refine tells_flush hp h.sent (fun _ => h.out) fun _ t ht l hl => ?_
  rw [(h.out t ht).picks] at hl
  cases hl

/-- A text is written, and flushed at once. -/
theorem Tells.writeFlush (hp : p [] = false) (h : Tells p Q pcc g₀ g) {text : Bytes}
    (htext : pcc' = pcc → ∀ l ∈ picks p text, Q l) :
    Tells p Q pcc g₀ ((g.write pcc' text).flush pcc') := by
  refine tells_flush hp h.sent (fun hne t ht => ?_) fun heq t ht l hl => ?_
  · rw [out_write, if_neg (Ne.symm hne)] at ht
    exact h.out t ht
  · rw [out_write, if_pos heq.symm] at ht
    obtain ⟨t', ht', rfl⟩ := Option.map_eq_some_iff.mp ht
    have hclean := h.out t' ht'
    rw [picks_append hp hclean.ended, hclean.picks, List.nil_append] at hl
    exact htext heq l hl

/-- A text told to connections. -/
theorem Tells.tell (hp : p [] = false) {text : Bytes} {pccs : List ConnId} (h : Tells p Q pcc g₀ g)
    (htext : pcc ∈ pccs → ∀ l ∈ picks p text, Q l) (htell : g.tell text pccs = .ok g') :
    Tells p Q pcc g₀ g' := by
  induction pccs generalizing g with
  | nil =>
    obtain rfl := Except.ok.inj htell
    exact h
  | cons pcc' pccs ih =>
    rw [Globals.tell] at htell
    split at htell
    · refine ih (h.writeFlush hp fun heq l hl => ?_)
        (fun hmem => htext (List.mem_cons_of_mem _ hmem)) htell
      have hclean := clean_endl hp
      rw [picks_append hp hclean.ended, hclean.picks, List.nil_append] at hl
      exact htext (heq ▸ List.mem_cons_self) l hl
    · cases htell

/-- What is picked of the record of a set that the connection is a channel of. -/
def Records (p : Bytes → Bool) (Q : Bytes → Prop) (pcc : ConnId) (env : Env) (g : Globals) : Prop :=
  ∀ g₁ : Globals, ∀ prs rs, g.recordsets.find? prs = some rs → rs.channels.contains pcc = true →
    ∀ l ∈ picks p (g₁.sample env rs), Q l

theorem Records.of_eq (h : Records p Q pcc env g) (heq : g'.recordsets = g.recordsets) :
    Records p Q pcc env g' := fun g₁ prs rs hr => h g₁ prs rs (heq ▸ hr)

/-- A measure tells the channels of its set the record. -/
theorem Tells.measure (hp : p [] = false) (h : Tells p Q pcc g₀ g) (hQ : Records p Q pcc env g)
    {t : Int} {prs : SetId} {r : Entry × Globals} (hm : g.measure env t prs = .ok r) :
    Tells p Q pcc g₀ r.2 := by
  obtain ⟨rs, hr, -, htell⟩ := measure_tells hm
  exact h.tell hp (fun hmem => hQ g prs rs hr (Lib.OrdMap.mem_keys_iff.mp hmem)) htell

/-- `activate` of one identifier. -/
theorem Tells.activateOne (hp : Unpicked p) (h : Tells p Q pcc g₀ g) (hQ : Records p Q pcc env g)
    {i : Bytes} (hi : pcc' = pcc → NoEol i) {x : Globals × Bool}
    (hx : activateOne env pcc' g i = .ok x) : Tells p Q pcc g₀ x.1 := by
  obtain ⟨y, hy, rfl⟩ := map_eq_ok.mp hx
  -- an unknown name is complained of; a known set is measured at once, and then said to be active
  rcases activate_cases hy with ⟨-, rfl⟩ | ⟨prs, e, g₁, -, hm, rfl⟩
  · refine (h.write hp.nil fun heq => hp.unknown (hi heq)).write hp.nil fun heq => ?_
    have hline : NoEol (str "activation of " ++ quoted i ++ str "failed.") := by
      simp only [noEol_append, noEol_quoted, hi heq]
      decide
    refine clean_of_not hp.nil hline ?_
    rw [show str "activation of " = str "activati" ++ str "on of " from rfl, List.append_assoc,
      List.append_assoc]
    exact hp.activation _
  · have hscheduled : Tells p Q pcc g₀ { g₁ with schedule := insertEntry e g₁.schedule } :=
      (h.measure hp.nil hQ hm).of_eq rfl rfl
    rw [if_pos rfl]
    refine hscheduled.write hp.nil fun heq => ?_
    have hline : NoEol (str "RecordSet: " ++ quoted i ++ str " activated.") := by
      simp only [noEol_append, noEol_quoted, hi heq]
      decide
    exact hp.line hline rfl (by decide)

/-- `delete` of one identifier. -/
theorem Tells.deleteOne (hp : Unpicked p) (h : Tells p Q pcc g₀ g) {i : Bytes} (hi : NoEol i)
    {x : Globals × Bool} (hx : deleteOne pcc g i = .ok x) :
    Tells p Q pcc g₀ x.1 := by
  obtain ⟨y, hy, rfl⟩ := map_eq_ok.mp hx
  rcases suppress_cases hy with ⟨-, rfl⟩ | ⟨prs, rs, -, -, -, rfl⟩
  · refine (h.write hp.nil fun _ => hp.unknown hi).write hp.nil fun _ => ?_
    have hline : NoEol (str "deletion of " ++ quoted i ++ str "failed.") := by
      simp only [noEol_append, noEol_quoted, hi]
      decide
    refine clean_of_not hp.nil hline ?_
    rw [show str "deletion of " = str "deleti" ++ str "on of " from rfl, List.append_assoc,
      List.append_assoc]
    exact hp.deletion _
  · rw [if_pos rfl]
    have herased : Tells p Q pcc g₀ { g with
        schedule := g.schedule.filter fun e => e.2 ≠ prs, mrecordsets := g.mrecordsets.erase i,
        recordsets := g.recordsets.erase prs } := h.of_eq rfl rfl
    exact herased.write hp.nil fun _ => hp.deletionTexts

/-! ## What the others do -/

theorem Tells.writePrompt (h : Tells p Q pcc g₀ g) (hne : pcc' ≠ pcc) :
    Tells p Q pcc g₀ (g.writePrompt pcc') := by
  refine h.of_eq rfl ((out_modify g pcc' pcc _).trans ?_)
  simp only [if_neg (Ne.symm hne)]
  rfl

/-- Changes of another connection are not told. -/
theorem tells_keptByChanges (S : Scanners) (hp : p [] = false) (hne : pcc' ≠ pcc) (g₀ : Globals) :
    KeptByChanges S pcc' (Tells p Q pcc g₀) where
  write g text hg := hg.write hp fun heq => absurd heq hne
  prompt g hg := hg.of_eq rfl rfl
  register g rs mmpcreators s text h hg := hg.of_eq rfl rfl
  suppress g i r h hg := by
    rcases suppress_cases h with ⟨-, rfl⟩ | ⟨prs, rs, -, -, -, rfl⟩
    · exact hg.write hp fun heq => absurd heq hne
    · have herased : Tells p Q pcc g₀ { g with
          schedule := g.schedule.filter fun e => e.2 ≠ prs, mrecordsets := g.mrecordsets.erase i,
          recordsets := g.recordsets.erase prs } := hg.of_eq rfl rfl
      exact herased.write hp fun heq => absurd heq hne
  add_subs g prs g' h hg := by
    obtain ⟨-, rfl⟩ := add_subs_eq h
    exact hg.of_eq rfl (out_modify_same (fun c => by rfl) pcc' pcc g)
  remove_subs g prs g' h hg := by
    obtain rfl := remove_subs_eq h
    exact hg.of_eq rfl (out_modify_same (fun c => by rfl) pcc' pcc g)

/-- `activate` of another connection leaves the sets as they are, and tells their records. -/
theorem activate_tells (hp : Unpicked p) (hS : S.Documented blank ident) (hne : pcc' ≠ pcc)
    {bufin : Bytes} (hword : lineWord S bufin = str "activate") (hQ : Records p Q pcc env g)
    (h : Tells p Q pcc g₀ g) (hc : g.command S B env pcc' bufin = .ok g') : Tells p Q pcc g₀ g' := by
  obtain ⟨f, hf, hrun⟩ := command_form hS (show lineWord S bufin ≠ str "list" by rw [hword]; decide)
  rw [hrun] at hc
  have hbusy : lineWord S bufin ∈ Form.busy := by
    rw [hword]
    decide
  -- `activate` is no other form of a command
  cases f with
  | silent => exact absurd hbusy hf
  | tells text => exact absurd hbusy hf
  | qiging => exact absurd (hword.symm.trans hf) (by decide)
  | create q =>
    have hcreate : lineWord S bufin = str "create" := congrArg Prod.fst hf
    exact absurd (hword.symm.trans hcreate) (by decide)
  | act a is missing =>
    obtain ⟨hmem, -⟩ := hf
    rw [hword] at hmem
    obtain ⟨r, hloop, rfl⟩ := map_eq_ok.mp hc
    have hone : ∀ i x, ∀ r : Globals × Nat, a.one env pcc' r.1 i = .ok x →
        r.1.recordsets = g.recordsets ∧ Tells p Q pcc g₀ r.1 →
        x.1.recordsets = g.recordsets ∧ Tells p Q pcc g₀ x.1 := by
      intro i x r hx hr
      cases a with
      | activate =>
        exact ⟨(activateOne_recordsets hx).trans hr.1,
          hr.2.activateOne hp (hQ.of_eq hr.1) (fun heq => absurd heq hne) hx⟩
      | delete | sub | unsub => exact absurd hmem (by decide)
    -- the sets stay as they are along the identifiers, and so do the records
    have hr := Lib.foldlM_keeps
      (I := fun r : Globals × Nat => r.1.recordsets = g.recordsets ∧ Tells p Q pcc g₀ r.1)
      (fun i _ r r' hbody hI => by
        obtain ⟨x, hx, rfl⟩ := map_eq_ok.mp hbody
        exact hone i x r hx hI) hloop ⟨rfl, h⟩
    refine Tells.write hp.nil ?_ fun heq => absurd heq hne
    cases missing with
    | true => exact hr.2.write hp.nil fun heq => absurd heq hne
    | false => exact hr.2

/-- The destructor tells nobody. -/
theorem destroy_untold (h : g.destroy pcc' = .ok g') (pcc : ConnId) :
    g'.sent = g.sent ∧ g'.out pcc = if pcc = pcc' then none else g.out pcc := by
  unfold Globals.destroy at h
  cases hc : g.conns.find? pcc' with
  | none =>
    rw [hc] at h
    cases h
  | some c =>
    rw [hc] at h
    obtain ⟨g₁, hg, rfl⟩ := map_eq_ok.mp h
    obtain ⟨-, ⟨hconns, -⟩, -⟩ := foldlM_remove_channel hg
    constructor
    · show g₁.sent = g.sent
      -- the loop over the subscriptions takes channels away, and flushes nothing
      refine Lib.foldlM_keeps (I := fun g₂ : Globals => g₂.sent = g.sent)
        (f := fun (g : Globals) prs => g.remove_channel prs pcc') ?_ hg rfl
      intro prs _ g₂ g₃ hr hI
      rw [remove_channel_eq hr]
      exact hI
    · show ((g₁.conns.erase pcc').find? pcc).map (·.out) = _
      rw [Lib.OrdMap.find?_erase, hconns]
      split <;> rfl

/-- The connection an event speaks of. -/
def connOf : Event → Option ConnId
  | .connected pcc _ | .firstprompt pcc | .line pcc _ _ | .destroyed pcc => some pcc
  | .select_poll _ => none

/-- The clock and the measures of an event. -/
def envOf : Event → Option Env
  | .line _ env _ | .select_poll env => some env
  | .connected _ _ | .firstprompt _ | .destroyed _ => none

/-- **An event of another connection, or the schedule, tells a connection** the records of
the sets that it is a channel of, and nothing else. -/
theorem step_tells (hp : Unpicked p) (hS : S.Documented blank ident) (hh : Hushed g) {e : Event}
    (hne : connOf e ≠ some pcc) (hQ : ∀ env, envOf e = some env → Records p Q pcc env g)
    (h : step S B g e = some g') : Tells p Q pcc g g' := by
  have hother : ∀ pcc', connOf e = some pcc' → pcc' ≠ pcc :=
    fun pcc' heq hpcc => hne (heq.trans (congrArg some hpcc))
  obtain ⟨-, hr⟩ := step_eq_some h
  have hrefl : Tells p Q pcc g g := tells_refl hp.nil hh pcc
  cases e with
  | connected pcc' gethostname =>
    obtain rfl := Except.ok.inj hr
    refine hrefl.of_eq rfl ?_
    show ((g.conns.insert pcc' ⟨0, .empty, []⟩).find? pcc).map (·.out) = g.out pcc
    rw [Lib.OrdMap.find?_insert, if_neg (Ne.symm (hother pcc' rfl))]
    rfl
  | firstprompt pcc' =>
    obtain rfl := Except.ok.inj hr
    have hpcc : pcc' ≠ pcc := hother pcc' rfl
    let greeting := B.version ++ str " - host:" ++ g.hostname ++ endl ++ endl
    have hgreeted : Tells p Q pcc g (g.write pcc' greeting) :=
      hrefl.write hp.nil fun heq => absurd heq hpcc
    have hprompt : Tells p Q pcc g
        { g.write pcc' greeting with prompt := str "qigong[" ++ g.hostname ++ str "] : " } :=
      hgreeted.of_eq rfl rfl
    exact (hprompt.writePrompt hpcc).flush hp.nil pcc'
  | line pcc' env bufin =>
    obtain ⟨g₁, hc, rfl⟩ := map_eq_ok.mp hr
    have hpcc : pcc' ≠ pcc := hother pcc' rfl
    have hkept : KeptByChanges S pcc' (Tells p Q pcc g) := tells_keptByChanges S hp.nil hpcc g
    have h₁ : Tells p Q pcc g g₁ := by
      by_cases hword : lineWord S bufin = str "activate"
      · exact activate_tells hp hS hpcc hword (hQ env rfl) hrefl hc
      · exact hkept.command hrefl
          (fun q hq _ _ => absurd (congrArg Prod.fst hq) hword) hc
    unfold Globals.endLine
    refine Tells.flush hp.nil ?_ pcc'
    split
    · exact h₁
    · exact h₁.writePrompt hpcc
  | destroyed pcc' =>
    obtain ⟨hsent, hout⟩ := destroy_untold hr pcc
    rw [if_neg (Ne.symm (hother pcc' rfl))] at hout
    exact hrefl.of_eq hsent hout
  | select_poll env =>
    -- along the schedule the sets stay, so each record is one of a set of the start
    have hkept := pollSchedule_keeps
      (I := fun g₁ => g₁.recordsets = g.recordsets ∧ Tells p Q pcc g g₁)
      (fun g₁ es hI => ⟨hI.1, hI.2.of_eq rfl rfl⟩)
      (fun g₁ t prs r hm hI => ⟨(measure_stores hm).1.recordsets.trans hI.1,
        hI.2.measure hp.nil ((hQ env rfl).of_eq hI.1) hm⟩) hr ⟨rfl, hrefl⟩
    exact hkept.2

/-! ## The lines of a step -/

/-- The lines a connection is told between two states. -/
def told (pcc : ConnId) (g g' : Globals) : List Bytes := (flushedTo pcc g g').flatMap (splitRecord [])

theorem filter_told {new : List (ConnId × Bytes)} (h : g'.sent = g.sent ++ new) :
    (told pcc g g').filter p = ((new.filter fun x => x.1 = pcc).map Prod.snd).flatMap (picks p) := by
  rw [told, flushedTo_of_sent h, List.filter_flatMap]
  rfl

theorem Tells.told (h : Tells p Q pcc g g') : ∀ l ∈ (told pcc g g').filter p, Q l := by
  obtain ⟨new, hnew, hpicks⟩ := h.sent
  rw [filter_told hnew]
  intro l hl
  obtain ⟨t, ht, hl⟩ := List.mem_flatMap.mp hl
  obtain ⟨x, hx, rfl⟩ := List.mem_map.mp ht
  have hx' := List.mem_filter.mp hx
  exact hpicks x hx'.1 (by simpa using hx'.2) l hl

/-- The end of `lineread` adds a prompt to what is said, and flushes it. -/
theorem Tells.endLine (hp : Unpicked p) (h : Tells p Q pcc g₀ g) (hprompt : PromptNames g.prompt)
    (hlive : ∃ t, g.out pcc = some t) : Tells p Q pcc g₀ (g.endLine pcc) := by
  obtain ⟨t, ht⟩ := hlive
  obtain ⟨n, hflush, hout⟩ := endLine_flushes ht
  have hclean := (h.out t ht).append hp.nil (hp.promptText hprompt n)
  constructor
  · obtain ⟨new, hnew, hpicks⟩ := h.sent
    refine ⟨new ++ [(pcc, t ++ promptText g.prompt n)], ?_, fun x hx heq l hl => ?_⟩
    · rw [hflush, hnew, List.append_assoc]
    · rcases List.mem_append.mp hx with hx | hx
      · exact hpicks x hx heq l hl
      · obtain rfl := List.mem_singleton.mp hx
        rw [hclean.picks] at hl
        cases hl
  · intro t' ht'
    rw [hout, if_pos rfl] at ht'
    obtain rfl := Option.some.inj ht'
    exact clean_nil hp.nil

end Qigong.Together
