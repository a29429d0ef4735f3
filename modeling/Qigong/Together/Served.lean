import Qigong.Conf.Remote
import Qigong.Probe.Isolation
import Qigong.Together.Acknowledgements
import Qigong.Together.Standing

/-!
# How the collector's lines are served

The collector sends a qigong the four commands of the setup, and lines that only greet
it (`Greets`). What it is told for a greeting acknowledges nothing; what it is told for a
command acknowledges that command once, or nothing, and where it does the set stands as
the collector then takes it to stand (`served_command`).
-/

namespace Qigong.Together

open Probe Probe.Globals
open Crypt.CryptConnection (splitRecord)
open Collect (Command CSState CollectionSet)

variable {S : Scanners} {B : Build} {env : Env} {g g₁ g' : Globals} {pcc : ConnId}
variable {blank ident : UInt8 → Bool} {s : CollectionSet}

/-! ## What a line is told -/

/-- **What a line is told acknowledges what is left in `out`**, where nothing flushed before
acknowledges. -/
theorem told_endLine
    (hsent : ∃ new, g₁.sent = g.sent ++ new ∧ ∀ x ∈ new, x.1 = pcc → picks isAck x.2 = [])
    {text : Bytes} (hout : g₁.out pcc = some text) (htext : Lib.Ended isEol text)
    (hp : PromptNames g₁.prompt) :
    (told pcc g (g₁.endLine pcc)).filter isAck = picks isAck text := by
  obtain ⟨new, hnew, hacks⟩ := hsent
  obtain ⟨n, hflush, -⟩ := endLine_flushes hout
  rw [hnew, List.append_assoc] at hflush
  have hbefore : ((new.filter fun x => x.1 = pcc).map Prod.snd).flatMap (picks isAck) = [] := by
    rw [List.flatMap_eq_nil_iff]
    intro t ht
    obtain ⟨x, hx, rfl⟩ := List.mem_map.mp ht
    have hx' := List.mem_filter.mp hx
    exact hacks x hx'.1 (by simpa using hx'.2)
  rw [filter_told hflush, List.filter_append, List.map_append, List.flatMap_append, hbefore]
  simp only [List.nil_append, decide_true, List.filter_cons_of_pos, List.filter_nil, List.map_cons,
    List.map_nil, List.flatMap_cons, List.flatMap_nil, List.append_nil]
  rw [picks_append isAck_nil htext, (unpicked_isAck.promptText hp n).picks, List.append_nil]

/-- Where a text is said behind what does not acknowledge. -/
theorem told_behind (h : Unacked pcc g g₁) {text : Bytes}
    (hlive : ∃ t, (g₁.write pcc text).out pcc = some t) (hp : PromptNames g₁.prompt)
    (htext : Lib.Ended isEol text) :
    (told pcc g ((g₁.write pcc text).endLine pcc)).filter isAck = picks isAck text := by
  obtain ⟨t, ht⟩ := hlive
  have hwritten := ht
  rw [out_write, if_pos rfl] at hwritten
  obtain ⟨t₀, ht₀, rfl⟩ := Option.map_eq_some_iff.mp hwritten
  have hclean := h.out t₀ ht₀
  obtain ⟨new, hnew, hpicks⟩ := h.sent
  have hsent : ∃ new, (g₁.write pcc text).sent = g.sent ++ new ∧
      ∀ x ∈ new, x.1 = pcc → picks isAck x.2 = [] :=
    ⟨new, hnew, fun x hx heq => List.eq_nil_iff_forall_not_mem.mpr (hpicks x hx heq)⟩
  rw [told_endLine hsent ht (hclean.ended.append htext) hp, picks_append isAck_nil hclean.ended,
    hclean.picks, List.nil_append]

/-- A line that is returned from, its command apart. -/
theorem line_cases (hg : Linked g ∧ Hushed g) {bufin : Bytes}
    (h : step S B g (.line pcc env bufin) = some g') :
    ∃ g₁, g.command S B env pcc bufin = .ok g₁ ∧ g' = g₁.endLine pcc ∧
      (∃ t, g₁.out pcc = some t) ∧ PromptNames g₁.prompt ∧ ∃ m, g.subs pcc = some m := by
  obtain ⟨hp, hr⟩ := step_eq_some h
  obtain ⟨g₁, hc, rfl⟩ := map_eq_ok.mp hr
  have hlive := live_iff.mp hp
  obtain ⟨-, m, hm⟩ := (linked_keptByActs env pcc).command ⟨hg.1, hlive⟩ hc
  obtain ⟨c, hconn, -⟩ := Option.map_eq_some_iff.mp hm
  have hout : g₁.out pcc = some c.out := by rw [Globals.out, hconn]; rfl
  exact ⟨g₁, hc, rfl, ⟨c.out, hout⟩, ((hushed_keptByActs env pcc).command (hg.2.but pcc) hc).prompt,
    hlive⟩

/-! ## Commands of one set -/

/-- The commands over identifiers among those of the setup. -/
def actOf : Command → Option Act
  | .delete => some .delete
  | .activate => some .activate
  | .sub => some .sub
  | .create => none

theorem word_mem_words {cmd : Command} {a : Act} (h : actOf cmd = some a) : word cmd ∈ a.words := by
  cases cmd with
  | delete => obtain rfl := Option.some.inj h; decide
  | activate => obtain rfl := Option.some.inj h; decide
  | sub => obtain rfl := Option.some.inj h; decide
  | create => cases h

/-- An identifier has no line end in it. -/
theorem noEol_of_identifier (hident : ∀ c, ident c = true → isEol c = false) {n : Bytes}
    (hn : Identifier blank ident n) : NoEol n := fun c hc => hident c (hn.run c hc)

/-- The line of such a command is its word and the full key. -/
theorem commandLine_act {cmd : Command} {a : Act} (ha : actOf cmd = some a)
    (hkey : NoEol s.fullkey) : commandLine s cmd = word cmd ++ ([32] ++ s.fullkey) := by
  have htext : cmd.text s = word cmd ++ ([32] ++ s.fullkey) ++ eos := by
    cases cmd with
    | delete => simp [Command.text, word, str]
    | activate => simp [Command.text, word, str]
    | sub => simp [Command.text, word, str]
    | create => cases ha
  have hline : NoEol (word cmd ++ ([32] ++ s.fullkey)) := by
    simp only [noEol_append]
    refine ⟨?_, by decide, hkey⟩
    cases cmd <;> decide
  rw [commandLine, htext, List.takeWhile_append_of_pos fun c hc => by rw [hline c hc]; rfl]
  simp [eos, isEol]

/-- The full key is the one identifier on the line. -/
theorem idents_commandLine (hS : S.Documented blank ident) {cmd : Command} {a : Act}
    (ha : actOf cmd = some a) (hn : Identifier blank ident s.fullkey) (hkey : NoEol s.fullkey) :
    idents S (commandLine s cmd) = [s.fullkey] := by
  have hblank : ∀ c ∈ ([32] : Bytes), blank c = true := fun c hc =>
    List.mem_singleton.mp hc ▸ hS.space.1
  have hget := getidentifier_at hS hn (word cmd) [32] [] hblank fun c hc => nomatch hc
  rw [if_pos rfl, List.append_nil, ← commandLine_act ha hkey] at hget
  have hword := (getidentifier_commandLine hS s cmd).1
  have hlen : (word cmd).length ≠ npos := by cases cmd <;> decide
  rw [idents, hword, identsFrom, if_neg hlen]
  dsimp only
  rw [hget, if_neg hn.ne_nil]
  cases hfuel : (commandLine s cmd).length with
  | zero => rw [identsFrom]
  | succ fuel => rw [identsFrom, if_pos rfl]

/-- What such a line comes to. -/
theorem command_commandLine (hS : S.Documented blank ident) {cmd : Command} {a : Act}
    (ha : actOf cmd = some a) (hn : Identifier blank ident s.fullkey) (hkey : NoEol s.fullkey) :
    ∃ missing : Bool, ∀ (B : Build) (env : Env) (pcc : ConnId) (g : Globals),
      g.command S B env pcc (commandLine s cmd) = (a.one env pcc g s.fullkey).map fun x =>
        ((if missing then x.1.write pcc missingText else x.1).write pcc
          (a.told (if x.2 then 1 else 0))) := by
  have hword : lineWord S (commandLine s cmd) = word cmd := by
    rw [lineWord, (getidentifier_commandLine hS s cmd).1]
  have hmem := word_mem_words ha
  have hall : ∀ w ∈ Act.allWords, w ≠ str "list" ∧ w ∈ Form.busy ∧ w ≠ str "qiging" ∧
      w ≠ str "create" := by decide
  obtain ⟨hlist, hbusy, hqiging, hcreate⟩ := hall _ (Act.mem_allWords hmem)
  obtain ⟨f, hf, hrun⟩ := command_form hS (hword ▸ hlist)
  cases f with
  | silent => exact absurd (hword ▸ hbusy) hf
  | tells text => exact absurd (hword ▸ hbusy) hf
  | qiging => exact absurd (hword.symm.trans hf) hqiging
  | create p =>
    have hget : S.getidentifier (commandLine s cmd) 0 = (str "create", p) := hf
    exact absurd (hword.symm.trans (congrArg Prod.fst hget)) hcreate
  | act a' is missing =>
    obtain ⟨hword', rfl⟩ := hf
    obtain rfl : a' = a := by
      rw [hword] at hword'
      have hone : ∀ b b' : Act, b ≠ b' → ∀ w ∈ b.words, w ∉ b'.words := by
        intro b b' hne
        cases b <;> cases b' <;> first | exact absurd rfl hne | decide
      by_contra hne
      exact hone a' a hne _ hword' hmem
    refine ⟨missing, fun B env pcc g => ?_⟩
    rw [hrun, Form.run, idents_commandLine hS ha hn hkey]
    show (([s.fullkey].foldlM (counted (a'.one env pcc)) (g, 0)).map _) = _
    rw [List.foldlM_cons]
    show ((counted (a'.one env pcc) (g, 0) s.fullkey).bind fun r => .ok r).map _ = _
    unfold counted
    cases a'.one env pcc g s.fullkey with
    | error x => rfl
    | ok x => rfl

/-- The word of a command line is that of the command. -/
theorem lineWord_commandLine (hS : S.Documented blank ident) (s : CollectionSet) (cmd : Command) :
    lineWord S (commandLine s cmd) = word cmd := by
  rw [lineWord, (getidentifier_commandLine hS s cmd).1]

/-- A command of the setup takes nothing back but the set that `delete` names. -/
theorem spares_commandLine (hS : S.Documented blank ident) {cmd : Command} {n : Bytes}
    (hn : Identifier blank ident s.fullkey) (hkey : NoEol s.fullkey)
    (h : cmd = .delete → n ≠ s.fullkey) :
    Spares S n pcc (.line pcc env (commandLine s cmd)) := by
  constructor
  · intro hword
    rw [lineWord_commandLine hS] at hword
    have hdelete : cmd = .delete := by
      revert hword
      cases cmd <;> decide
    subst hdelete
    rw [idents_commandLine hS (show actOf .delete = some .delete from rfl) hn hkey,
      List.mem_singleton]
    exact h rfl
  · intro hword
    rw [lineWord_commandLine hS] at hword
    have hnot : word cmd ∉ Act.unsub.words := by cases cmd <;> decide
    exact absurd hword hnot

/-- What is said behind the identifier of a command changes no store. -/
theorem ending_sameStores (g : Globals) (pcc : ConnId) (missing : Bool) (text : Bytes) :
    SameStores g (((if missing then g.write pcc missingText else g).write pcc text).endLine pcc) := by
  have hmissing : SameStores g (if missing then g.write pcc missingText else g) := by
    cases missing with
    | true => exact write_sameStores g pcc missingText
    | false => exact .refl g
  exact (hmissing.trans (write_sameStores _ pcc text)).trans (endLine_sameStores _ pcc)

/-! ## Their answers -/

/-- The line that ends a command. -/
theorem performed_line {command unit : Bytes} (hc : NoEol command) (hu : NoEol unit) (n : Nat) :
    ∃ line, performed command unit n = line ++ endl ∧ NoEol line ∧ command ++ str ":" <+: line := by
  have hs : NoEol (if n = 1 then [] else str "s") := by
    split
    · exact noEol_nil
    · decide
  have hline : NoEol (command ++ str ": " ++ decimal n ++ str " " ++ unit ++
      (if n = 1 then [] else str "s") ++ str " performed.") := by
    simp only [noEol_append, noEol_decimal, hs, hc, hu]
    decide
  refine ⟨_, rfl, hline, ?_⟩
  rw [show str ": " = str ":" ++ str " " from rfl]
  simp only [List.append_assoc, List.prefix_append_right_inj]
  exact List.prefix_append _ _

/-- It acknowledges the command whose answer is to begin so. -/
theorem acks_performed {command unit : Bytes} (hc : NoEol command) (hu : NoEol unit)
    {cmd : Command} (hcmd : cmd.wait_string = command ++ str ":") (n : Nat) :
    ∃ l, picks isAck (performed command unit n) = [l] ∧ cmd.wait_string <+: l := by
  obtain ⟨line, heq, hun, hline⟩ := performed_line hc hu n
  rw [← hcmd] at hline
  have hack : isAck line = true := isAck_iff.mpr ⟨cmd, hline⟩
  refine ⟨line, ?_, hline⟩
  rw [heq, endl, picks_line isAck_nil hun (by decide)]
  simp [hack]

/-- Of what `delete` performs one line is its answer. -/
theorem acks_told_delete (n : Nat) :
    ∃ l, picks isAck (Act.delete.told n) = [l] ∧ Command.delete.wait_string <+: l :=
  acks_performed (show NoEol (str "delete") by decide) (by decide) rfl n

/-- Of what `activate` performs one line is its answer. -/
theorem acks_told_activate (n : Nat) :
    ∃ l, picks isAck (Act.activate.told n) = [l] ∧ Command.activate.wait_string <+: l :=
  acks_performed (show NoEol (str "activate") by decide) (by decide) rfl n

/-- The line that ends `sub` does not. -/
theorem clean_told_sub (n : Nat) : Clean isAck (Act.sub.told n) := by
  refine ⟨ended_performed _ _ _, picks_isAck_eq_nil_iff.mpr fun cmd => ?_⟩
  obtain ⟨line, hline, hun, hbegins⟩ := @performed_line (str "subscribe") (str "subsription")
    (by decide) (by decide) n
  have hhead : line.head? = some 115 := by
    obtain ⟨rest, rfl⟩ := hbegins
    rfl
  have hother : ∀ a, cmd.wait_string.head? = some a → a ≠ 115 →
      ¬ Lib.Begins isEol cmd.wait_string (performed (str "subscribe") (str "subsription") n) := by
    intro a ha hne
    rw [hline]
    exact not_begins_line ha (noEol_wait_string cmd) hhead hne hun
  cases cmd with
  | delete => exact hother 100 rfl (by decide)
  | create => exact hother 99 rfl (by decide)
  | activate => exact hother 97 rfl (by decide)
  | sub => exact not_begins_performed_sub n

/-- A command is acknowledged once, and the set stands as the collector takes it to stand
then; or it is not acknowledged. -/
def Acknowledged (cmd : Command) (pcc : ConnId) (g g' : Globals) (s : CollectionSet) : Prop :=
  (told pcc g g').filter isAck = [] ∨
    ∃ l, (told pcc g g').filter isAck = [l] ∧ cmd.wait_string <+: l ∧
      Standing pcc g' s cmd.nextstate

theorem tells_missing {p : Bytes → Bool} {Q : Bytes → Prop} (hp : Unpicked p)
    (h : Tells p Q pcc g g₁) (missing : Bool) :
    Tells p Q pcc g (if missing then g₁.write pcc missingText else g₁) := by
  cases missing with
  | true => exact h.write hp.nil fun _ => hp.missing true
  | false => exact h

theorem served_delete (hS : S.Documented blank ident)
    (hident : ∀ c, ident c = true → isEol c = false) (hg : Linked g ∧ Hushed g)
    (hkey : Identifier blank ident s.fullkey)
    (h : step S B g (.line pcc env (commandLine s .delete)) = some g') :
    Acknowledged .delete pcc g g' s := by
  have hun := noEol_of_identifier hident hkey
  obtain ⟨missing, hcommand⟩ := command_commandLine hS (show actOf .delete = some .delete from rfl) hkey hun
  obtain ⟨g₁, hc, rfl, hlive, hp, -⟩ := line_cases hg h
  rw [hcommand] at hc
  obtain ⟨x, hx, rfl⟩ := map_eq_ok.mp hc
  obtain ⟨l, hl, hw⟩ := acks_told_delete (if x.2 then 1 else 0)
  refine .inr ⟨l, ?_, hw, trivial⟩
  rw [← hl]
  have hsaid : Unacked pcc g x.1 := (unacked_refl hg.2 pcc).deleteOne unpicked_isAck hun hx
  exact told_behind (tells_missing unpicked_isAck hsaid missing) hlive hp (ended_performed _ _ _)

theorem served_activate (hS : S.Documented blank ident)
    (hident : ∀ c, ident c = true → isEol c = false) (hg : Linked g ∧ Hushed g)
    (hn : Named blank ident g) (henv : Measured env) (hkey : Identifier blank ident s.fullkey)
    (hst : Standing pcc g s .activate_remote)
    (h : step S B g (.line pcc env (commandLine s .activate)) = some g') :
    Acknowledged .activate pcc g g' s := by
  have hun := noEol_of_identifier hident hkey
  obtain ⟨missing, hcommand⟩ := command_commandLine hS
    (show actOf .activate = some .activate from rfl) hkey hun
  -- the set is scheduled
  have hstanding : Standing pcc g' s .sub_remote := by
    have hspares : Spares S s.fullkey pcc (.line pcc env (commandLine s .activate)) :=
      spares_commandLine hS hkey hun nofun
    have hkeeps := step_keepsSet hS hg.1 hspares h
    obtain ⟨prs, hm⟩ := hst
    obtain ⟨rs, hr, -⟩ := (hkeeps.made hm).lives
    obtain ⟨-, heq⟩ := step_adds hg.1 h prs (.inl ⟨rs, hr⟩)
    refine ⟨prs, hkeeps.made hm, ?_⟩
    have hone : activates S g prs (.line pcc env (commandLine s .activate)) = 1 := by
      show (if lineWord S (commandLine s .activate) = str "activate" then _ else 0) = 1
      rw [if_pos (show _ = str "activate" from lineWord_commandLine hS s .activate),
        idents_commandLine hS (show actOf .activate = some .activate from rfl) hkey hun]
      simp [hm.1]
    have hmore := heq.trans (congrArg (entriesOf prs g.schedule + ·) hone)
    rw [hmore]
    exact Nat.succ_pos _
  obtain ⟨g₁, hc, rfl, hlive, hp, -⟩ := line_cases hg h
  rw [hcommand] at hc
  obtain ⟨x, hx, rfl⟩ := map_eq_ok.mp hc
  have hsaid : Unacked pcc g x.1 :=
    (unacked_refl hg.2 pcc).activateOne unpicked_isAck (records_unacked henv hident hn pcc)
      (fun _ => hun) hx
  obtain ⟨l, hl, hw⟩ := acks_told_activate (if x.2 then 1 else 0)
  refine .inr ⟨l, ?_, hw, hstanding⟩
  rw [← hl]
  exact told_behind (tells_missing unpicked_isAck hsaid missing) hlive hp (ended_performed _ _ _)

theorem served_sub (hS : S.Documented blank ident)
    (hident : ∀ c, ident c = true → isEol c = false) (hg : Linked g ∧ Hushed g)
    (hkey : Identifier blank ident s.fullkey) (hst : Standing pcc g s .sub_remote)
    (h : step S B g (.line pcc env (commandLine s .sub)) = some g') :
    Acknowledged .sub pcc g g' s := by
  have hun := noEol_of_identifier hident hkey
  obtain ⟨missing, hcommand⟩ := command_commandLine hS (show actOf .sub = some .sub from rfl) hkey hun
  have hspares : Spares S s.fullkey pcc (.line pcc env (commandLine s .sub)) :=
    spares_commandLine hS hkey hun nofun
  obtain ⟨prs', hm', he'⟩ := step_standing hS hg.1 hspares h hst
  have hkeeps := step_keepsSet hS hg.1 hspares h
  obtain ⟨prs, hm, -⟩ := hst
  obtain ⟨rs, hr, -⟩ := hm.lives
  obtain rfl : prs = prs' := Option.some.inj ((hkeeps.name prs hm.1).symm.trans hm'.1)
  obtain ⟨g₁, hc, rfl, ⟨t₁, ht₁⟩, hp, m, hsubs⟩ := line_cases hg h
  rw [hcommand] at hc
  obtain ⟨x, hx, rfl⟩ := map_eq_ok.mp hc
  have hsub : subsOne add_subs (str "subscribed to  ") pcc g s.fullkey = .ok x := hx
  unfold subsOne at hsub
  rw [hm.1] at hsub
  obtain ⟨g₂, hg₂, rfl⟩ := map_eq_ok.mp hsub
  -- the subscription is told, and then how many there were
  let line := str "subscribed to  " ++ quoted s.fullkey ++ str "."
  have hline : NoEol line := by
    simp only [line, noEol_append, noEol_quoted, hun]
    decide
  have hw : Command.sub.wait_string <+: line := by
    show str "subscribed" <+: str "subscribed to  " ++ quoted s.fullkey ++ str "."
    rw [List.append_assoc, show str "subscribed to  " = str "subscribed" ++ str " to  " from rfl,
      List.append_assoc]
    exact List.prefix_append _ _
  have hack : isAck line = true := isAck_iff.mpr ⟨.sub, hw⟩
  have hempty : g.out pcc = some [] := out_of_hushed hg.2 (live_iff.mpr ⟨m, hsubs⟩)
  have hsaid : Says pcc (line ++ endl) g (g₂.write pcc (line ++ endl)) := by
    obtain ⟨-, rfl⟩ := add_subs_eq hg₂
    refine says_write_of (by rfl) (by rfl) ?_ _
    exact out_modify_same (fun c => by rfl) pcc pcc g
  have hall := says_performed (str "subscribe") (str "subsription") 1 missing hsaid
  have hended : Lib.Ended isEol (line ++ endl ++ (if missing then missingText else [])) :=
    (ended_endl line).append (unpicked_isAck.missing missing).ended
  have hacks : picks isAck (line ++ endl ++ (if missing then missingText else []) ++
      performed (str "subscribe") (str "subsription") 1) = [line] := by
    have hthree : picks isAck (performed (str "subscribe") (str "subsription") 1) = [] :=
      (clean_told_sub 1).picks
    rw [picks_append isAck_nil hended, picks_append isAck_nil (ended_endl line),
      (unpicked_isAck.missing missing).picks, hthree,
      show line ++ endl = line ++ [10] from rfl, picks_line isAck_nil hline (by decide)]
    simp [hack]
  refine .inr ⟨line, ?_, hw, ?_⟩
  · rw [← hacks]
    refine told_endLine ⟨[], ?_, fun x hx => absurd hx List.not_mem_nil⟩ ?_
      (hended.append (ended_performed _ _ _)) hp
    · rw [List.append_nil]
      exact hall.sent
    · have hout := hall.out
      rw [hempty] at hout
      exact hout
  · -- the connection is a channel behind `add_subs`, and texts change nothing
    refine ⟨prs, hm', he', ?_⟩
    have hchannel : g₂.HasChannel prs pcc := by
      obtain ⟨-, rfl⟩ := add_subs_eq hg₂
      rw [hasChannel_modify (f := fun m => m.insert pcc 1)]
      exact ⟨rs, hr, by rw [if_pos rfl]; exact Lib.OrdMap.contains_insert.mpr (.inl rfl)⟩
    have hsame := (write_sameStores g₂ pcc (line ++ endl)).trans
      (ending_sameStores _ pcc missing (Act.sub.told 1))
    obtain ⟨rs', hr', hc⟩ := hchannel
    exact ⟨rs', hsame.recordsets ▸ hr', hc⟩

/-! ## `create` -/

/-- A set of the configuration that a qigong with these measure functions can make. -/
structure Makeable (blank ident : UInt8 → Bool) (mmpcreators : MmpCreators)
    (cs : Conf.CollectionSet) : Prop where
  askable : Conf.Askable blank ident cs
  interval : 0 < cs.base_interval
  points : cs.lptagmp ≠ []
  known : ∀ t ∈ cs.lptagmp, Conf.Knows mmpcreators t
  nul : ∀ t ∈ cs.lptagmp, 0 ∉ t.params
  length : (Conf.definition cs).length < npos

variable {cs : Conf.CollectionSet}

/-- What the collector asks for is the record set that the declaration stands for. -/
theorem asked_collecting (cs : Conf.CollectionSet) :
    asked cs.collecting = (Conf.recordSetOf cs).core := by
  simp [asked, Conf.CollectionSet.collecting, Conf.recordSetOf, RecordSet.core, Conf.madeOf,
    Function.comp_def]

/-- The line that asks for a set is its definition. -/
theorem commandLine_create (hP : Conf.Punctuated blank ident) {mmpcreators : MmpCreators}
    (hcs : Makeable blank ident mmpcreators cs) :
    commandLine cs.collecting .create = str "create" ++ Conf.definition cs := by
  have hline := Conf.noEol_definition hP hcs.askable hcs.nul
  rw [commandLine, Conf.create_text,
    List.takeWhile_append_of_pos fun c hc => by rw [hline c hc]; rfl]
  simp [eos, isEol]

/-- The names of the set are on one line each. -/
theorem Makeable.noEol (hident : ∀ c, ident c = true → isEol c = false) {mmpcreators : MmpCreators}
    (hcs : Makeable blank ident mmpcreators cs) :
    NoEol (Conf.recordSetOf cs).name ∧ ∀ m ∈ (Conf.recordSetOf cs).lmp, NoEol m.getname := by
  have hword : ∀ {w : Bytes}, Conf.Word blank ident w → NoEol w :=
    fun hw => noEol_of_identifier hident hw.toIdentifier
  refine ⟨hword hcs.askable.fullkey, fun m hm => ?_⟩
  obtain ⟨t, ht, rfl⟩ := List.mem_map.mp hm
  obtain ⟨hfn, hparams, -⟩ := hcs.askable.points t ht
  show NoEol (t.fn ++ str "(" ++ t.params ++ str ")")
  simp only [noEol_append, hword hfn, Conf.noEol_of_unbroken hparams (hcs.nul t ht)]
  decide

/-- **A set is made as it was asked for, or refused.** -/
theorem createrecordset_makeable (hS : S.Documented blank ident) (hD : S.ReadsDigits blank)
    (hP : Conf.Punctuated blank ident) (hcs : Makeable blank ident B.mmpcreators cs)
    (mrecordsets : Lib.OrdMap Bytes SetId) :
    (mrecordsets.find? cs.fullkey = none ∧ createrecordset S B.mmpcreators mrecordsets
      (Conf.definition cs) = .ok ([], some (Conf.recordSetOf cs))) ∨
    ∃ text, Complaint text ∧
      createrecordset S B.mmpcreators mrecordsets (Conf.definition cs) = .ok (text, none) := by
  have hmake : ∀ m : Lib.OrdMap Bytes SetId, m.find? cs.fullkey = none →
      createrecordset S B.mmpcreators m (Conf.definition cs) = .ok ([], some (Conf.recordSetOf cs)) :=
    fun m hfree => Conf.createrecordset_definition hS hD hP hcs.askable hcs.interval hcs.points
      hcs.known hfree hcs.length
  by_cases hfree : mrecordsets.find? cs.fullkey = none
  · exact .inl ⟨hfree, hmake mrecordsets hfree⟩
  · have hline := noEol_append.mp (Conf.noEol_definition hP hcs.askable hcs.nul)
    obtain ⟨text, made, htext, heq, -⟩ := createrecordset_iff hS B.mmpcreators mrecordsets hline.2
    cases made with
    | none => exact .inr ⟨text, htext, heq⟩
    | some rs =>
      -- the name that is read is the full key, and a set that is made has a free one
      have hname : rs.name = cs.fullkey := by
        rw [createrecordset_name heq]
        exact (createrecordset_name (hmake .empty rfl)).symm
      exact absurd (hname ▸ (createrecordset_makes heq).1) hfree

theorem served_create (hS : S.Documented blank ident) (hD : S.ReadsDigits blank)
    (hP : Conf.Punctuated blank ident) (hident : ∀ c, ident c = true → isEol c = false)
    (hg : Linked g ∧ Hushed g) (hcs : Makeable blank ident B.mmpcreators cs)
    (h : step S B g (.line pcc env (commandLine cs.collecting .create)) = some g') :
    Acknowledged .create pcc g g' cs.collecting := by
  obtain ⟨g₁, hc, rfl, hlive, hp, -⟩ := line_cases hg h
  rw [commandLine_create hP hcs, Conf.command_create hS, Globals.createCommand,
    substr_ok (by simp), List.drop_left] at hc
  dsimp only [Except.bind] at hc
  have hrefl := unacked_refl hg.2 pcc
  rcases createrecordset_makeable hS hD hP hcs g.mrecordsets with ⟨hfree, hmake⟩ | ⟨text, htext, hmake⟩
  · rw [hmake] at hc
    obtain rfl := Except.ok.inj hc
    have hdone : picks isAck (str "creation done." ++ endl) = [str "creation done."] := by decide
    have hdump : Clean isAck ((Conf.recordSetOf cs).dump ++ endl) :=
      (unpicked_isAck.dump (hcs.noEol hident).1 (hcs.noEol hident).2).append isAck_nil
        (clean_endl isAck_nil)
    have hsaid : Unacked pcc g (g.register (Conf.recordSetOf cs)) := hrefl.of_eq rfl rfl
    refine .inr ⟨str "creation done.", ?_, List.prefix_rfl, g.nextset, ?_⟩
    · have hended : Lib.Ended isEol ([] ++ ((Conf.recordSetOf cs).dump ++ endl) ++
          (str "creation done." ++ endl)) := hdump.ended.append (ended_endl _)
      rw [told_behind hsaid hlive hp hended, List.nil_append, picks_append isAck_nil hdump.ended,
        hdump.picks, hdone, List.nil_append]
    · have hsame := endLine_sameStores ((g.register (Conf.recordSetOf cs)).write pcc
        ([] ++ ((Conf.recordSetOf cs).dump ++ endl) ++ (str "creation done." ++ endl))) pcc
      constructor
      · rw [hsame.mrecordsets]
        exact Lib.OrdMap.find?_insert_self g.mrecordsets cs.fullkey g.nextset
      · rw [hsame.recordsets, asked_collecting]
        show ((g.recordsets.insert g.nextset (Conf.recordSetOf cs)).find? g.nextset).map _ = _
        rw [Lib.OrdMap.find?_insert_self]
        rfl
  · rw [hmake] at hc
    obtain rfl := Except.ok.inj hc
    have hfailed : Clean isAck (str "creation failed" ++ endl) :=
      clean_of_not isAck_nil (by decide) (by decide)
    have hclean := (unpicked_isAck.complaint htext).append isAck_nil hfailed
    exact .inl ((told_behind hrefl hlive hp hclean.ended).trans hclean.picks)

/-- **How a command of the setup is served**: it is acknowledged once, or not at all; and
where it is, the set goes on from how it stood to how the collector takes it to stand
next. -/
theorem served_command (hS : S.Documented blank ident) (hD : S.ReadsDigits blank)
    (hP : Conf.Punctuated blank ident) (hident : ∀ c, ident c = true → isEol c = false)
    (hg : Linked g ∧ Hushed g) (hn : Named blank ident g) (henv : Measured env)
    (hcs : Makeable blank ident B.mmpcreators cs) {st : CSState} {cmd : Command}
    (hcmd : st.command = some cmd) (hst : Standing pcc g cs.collecting st)
    (h : step S B g (.line pcc env (commandLine cs.collecting cmd)) = some g') :
    Acknowledged cmd pcc g g' cs.collecting := by
  have hkey : Identifier blank ident cs.collecting.fullkey := hcs.askable.fullkey.toIdentifier
  cases st with
  | del_remote_for_create =>
    obtain rfl := Option.some.inj hcmd
    exact served_delete hS hident hg hkey h
  | create_remote =>
    obtain rfl := Option.some.inj hcmd
    exact served_create hS hD hP hident hg hcs h
  | activate_remote =>
    obtain rfl := Option.some.inj hcmd
    exact served_activate hS hident hg hn henv hkey hst h
  | sub_remote =>
    obtain rfl := Option.some.inj hcmd
    exact served_sub hS hident hg hkey hst h
  | collect => cases hcmd
  | unmatched => cases hcmd
  | del_remote => cases hcmd
  | unsub_remote => cases hcmd

/-! ## Greetings -/

/-- A line of the collector that is no command: an empty one, or one that begins as its
greeting does. -/
def Greets (line : Bytes) : Prop := line = [] ∨ NoEol line ∧ str "qiging" <+: line

/-- Of a greeting the qigong reads a word that begins with it. -/
theorem lineWord_greeting (hS : S.Documented blank ident) {line : Bytes} (h : str "qiging" <+: line) :
    str "qiging" <+: lineWord S line := by
  obtain ⟨rest, rfl⟩ := h
  have hword : ∀ c ∈ str "qiging", blank c = false ∧ ident c = true := by
    intro c hc
    have hletters : ∀ c ∈ str "qiging", c ∈ str "abcdefghijklmnopqrstuvwxyz" :=
      forall_mem_of_all (by decide)
    exact hS.letters c (hletters c hc)
  have hhead : (str "qiging" ++ rest).dropWhile blank = str "qiging" ++ rest := by
    show (113 :: (str "iging" ++ rest)).dropWhile blank = _
    rw [List.dropWhile_cons_of_neg]
    · rfl
    · rw [(hword 113 (by decide)).1]
      exact Bool.false_ne_true
  rw [lineWord, hS.getidentifier, scan]
  simp only [List.drop_zero, hhead]
  rw [List.takeWhile_append_of_pos fun c hc => (hword c hc).2]
  exact List.prefix_append _ _

/-- A greeting is answered with the word `qigong.`, or told to be no command. -/
theorem command_greeting (hS : S.Documented blank ident) {p : Bytes → Bool} {Q : Bytes → Prop}
    (hp : Unpicked p) {line : Bytes} (h : Greets line) (hh : Hushed g) (B : Build) (env : Env)
    (pcc : ConnId) : ∃ g₁, g.command S B env pcc line = .ok g₁ ∧ Tells p Q pcc g g₁ := by
  have hrefl : Tells p Q pcc g g := tells_refl hp.nil hh pcc
  obtain ⟨w, n, hget⟩ : ∃ w n, S.getidentifier line 0 = (w, n) := ⟨_, _, rfl⟩
  rcases h with rfl | ⟨hline, hbegins⟩
  · have hempty : w = [] := by
      have hsub := getidentifier_subset hS [] 0
      rw [hget] at hsub
      exact List.subset_nil.mp hsub
    refine ⟨g, ?_, hrefl⟩
    unfold Globals.command
    rw [hget, hempty]
    rfl
  · have hw : str "qiging" <+: w := by
      have hword := lineWord_greeting hS hbegins
      rwa [lineWord, hget] at hword
    have hun : NoEol w := by
      have hsub := getidentifier_subset hS line 0
      rw [hget] at hsub
      exact noEol_of_subset hsub hline
    have hne : ∀ x : Bytes, ¬ str "qiging" <+: x → ¬ w = x := fun x hx heq => hx (heq ▸ hw)
    by_cases hqiging : w = str "qiging"
    · refine ⟨{ g.write pcc (eos ++ str "qigong." ++ eos) with prompt := [] }, ?_, ?_⟩
      · unfold Globals.command
        rw [hget, hqiging]
        rfl
      · have heos : Clean p ([] ++ eos) := clean_concat hp.nil noEol_nil (by decide) hp.nil
        have hanswer : Clean p (str "qigong." ++ eos) :=
          clean_concat hp.nil (by decide) (by decide) (hp.head _ 113 rfl (by decide))
        have hsaid : Tells p Q pcc g (g.write pcc (eos ++ str "qigong." ++ eos)) := by
          refine hrefl.write hp.nil fun _ => ?_
          rw [List.append_assoc]
          exact heos.append hp.nil hanswer
        exact hsaid.of_eq rfl rfl
    · have hanswered : ∀ text, text = str "unknown command : " ++ quoted w ++ endl →
          g.command S B env pcc line = .ok (g.write pcc text) := by
        rintro text rfl
        unfold Globals.command
        rw [hget]
        dsimp only
        rw [if_neg (hne _ (by decide)), if_neg (hne _ (by decide)), if_neg (hne _ (by decide)),
          if_neg (hne _ (by decide)), if_neg (hne _ (by decide)), if_neg (hne _ (by decide)),
          if_neg (hne _ (by decide)), if_neg (hne _ (by decide)),
          if_neg (not_or.mpr ⟨hne _ (by decide), hne _ (by decide)⟩),
          if_neg (not_or.mpr ⟨hne _ (by decide), hne _ (by decide)⟩), if_neg hqiging]
      refine ⟨_, hanswered _ rfl, hrefl.write hp.nil fun _ => ?_⟩
      have htext : NoEol (str "unknown command : " ++ quoted w) := by
        rw [noEol_append, noEol_quoted]
        exact ⟨by decide, hun⟩
      exact hp.line htext rfl (by decide)

/-- **Nothing is picked of what is said behind a greeting.** -/
theorem served_greeting (hS : S.Documented blank ident) {p : Bytes → Bool} {Q : Bytes → Prop}
    (hp : Unpicked p) {line : Bytes} (h : Greets line) (hg : Linked g ∧ Hushed g)
    (hstep : step S B g (.line pcc env line) = some g') : Tells p Q pcc g g' := by
  obtain ⟨g₁, hc, rfl, hlive, hprompt, -⟩ := line_cases hg hstep
  obtain ⟨g₂, hc', htold⟩ := command_greeting hS hp h hg.2 B env pcc
  obtain rfl := Except.ok.inj (hc.symm.trans hc')
  exact htold.endLine hp hprompt hlive

/-- A greeting takes nothing back. -/
theorem spares_greeting (hS : S.Documented blank ident) {line : Bytes} (h : Greets line)
    (n : Bytes) : Spares S n pcc (.line pcc env line) := by
  have hother : ∀ w : Bytes, w ≠ [] → ¬ str "qiging" <+: w → lineWord S line ≠ w := by
    rintro w hne hw rfl
    rcases h with rfl | ⟨-, hbegins⟩
    · exact hne (List.subset_nil.mp (getidentifier_subset hS [] 0))
    · exact hw (lineWord_greeting hS hbegins)
  constructor
  · intro hword
    exact absurd hword (hother _ (by decide) (by decide))
  · intro hword
    have hall : ∀ w ∈ Act.unsub.words, w ≠ [] ∧ ¬ str "qiging" <+: w := by decide
    obtain ⟨hne, hw⟩ := hall _ hword
    exact absurd rfl (hother _ hne hw)

/-- The text a qigong greets with is one line, and begins as no answer does, and no record. -/
structure Greeting (version : Bytes) : Prop where
  noEol : NoEol version
  head : ∃ b, version.head? = some b ∧ b ∉ newsHeads

/-- **Nothing is picked of the greeting of a qigong.** -/
theorem greeted_tells {p : Bytes → Bool} {Q : Bytes → Prop} (hp : Unpicked p)
    (hB : Greeting B.version) (hg : Linked g ∧ Hushed g)
    (h : step S B g (.firstprompt pcc) = some g') : Tells p Q pcc g g' := by
  obtain ⟨hlive, hr⟩ := step_eq_some h
  obtain rfl := Except.ok.inj hr
  let greeting := B.version ++ str " - host:" ++ g.hostname ++ endl ++ endl
  have hclean : Clean p greeting := by
    have hline : NoEol (B.version ++ str " - host:" ++ g.hostname) := by
      simp only [noEol_append, hB.noEol, hg.2.hostname]
      decide
    obtain ⟨b, hb, hother⟩ := hB.head
    have hhead : (B.version ++ str " - host:" ++ g.hostname).head? = some b := by
      rw [List.append_assoc, List.head?_append, hb]
      rfl
    exact (hp.line hline hhead hother).append hp.nil (clean_endl hp.nil)
  -- `firstprompt` ends as `lineread` does
  let g₁ : Globals :=
    { g.write pcc greeting with prompt := str "qigong[" ++ g.hostname ++ str "] : " }
  have hend : g.firstprompt B pcc = g₁.endLine pcc := by
    unfold Globals.endLine
    rw [if_neg (show ¬ g₁.prompt = [] from List.cons_ne_nil _ _)]
    rfl
  have hwritten : Tells p Q pcc g (g.write pcc greeting) :=
    (tells_refl hp.nil hg.2 pcc).write hp.nil fun _ => hclean
  have hout : g₁.out pcc = some ([] ++ greeting) := by
    show (g.write pcc greeting).out pcc = _
    rw [out_write, if_pos rfl, out_of_hushed hg.2 hlive]
    rfl
  have htold : Tells p Q pcc g g₁ := hwritten.of_eq rfl rfl
  rw [hend]
  exact htold.endLine hp (.inr ⟨g.hostname, hg.2.hostname, rfl⟩) ⟨_, hout⟩

end Qigong.Together
