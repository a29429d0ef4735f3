import Qigong.Probe.Texts
import Qigong.Probe.Scanning
import Qigong.Collect.Runs
import Mathlib.Data.List.TakeWhile

/-!
# How the setup commands are answered

For each command of its setup the collector awaits a line that begins with a fixed text.
Here is what begins a line of the answers a qigong gives, in every state it reaches:
`delete` and `activate` are answered so unless the run ends, `create` and `sub` only when
they succeed (`setup_answered_iff`). A collector that does not get the line it awaits
stays in its state `waiting`.
-/

namespace Qigong.Probe

open Globals
open Crypt.CryptConnection (splitRecord)
open Collect (Command CollectionSet CollectingConn)

variable {S : Scanners} {B : Build} {env : Env} {g g' : Globals} {pcc : ConnId}
variable {blank ident : UInt8 → Bool}

/-! ## The commands as they are read -/

/-- The line of a command: its text up to the first line end. -/
def commandLine (s : CollectionSet) (cmd : Command) : Bytes :=
  (cmd.text s).takeWhile fun c => !isEol c

/-- The word of a command. -/
def word : Command → Bytes
  | .delete => str "delete"
  | .create => str "create"
  | .activate => str "activate"
  | .sub => str "sub"

theorem commandLine_eq (s : CollectionSet) (cmd : Command) :
    ∃ rest, NoEol rest ∧ commandLine s cmd = word cmd ++ 32 :: rest := by
  have hword : ∀ {w x : Bytes}, NoEol w →
      ∃ rest, NoEol rest ∧ (w ++ 32 :: x).takeWhile (fun c => !isEol c) = w ++ 32 :: rest := by
    intro w x hw
    refine ⟨x.takeWhile fun c => !isEol c, fun c hc => by simpa using List.mem_takeWhile_imp hc, ?_⟩
    rw [List.takeWhile_append_of_pos fun c hc => by rw [hw c hc]; rfl,
      List.takeWhile_cons_of_pos (by decide)]
  cases cmd with
  | delete => exact hword (w := str "delete") (by decide)
  | create => exact hword (w := str "create") (by decide)
  | activate => exact hword (w := str "activate") (by decide)
  | sub => exact hword (w := str "sub") (by decide)

theorem noEol_commandLine (s : CollectionSet) (cmd : Command) : NoEol (commandLine s cmd) :=
  fun c hc => by simpa using List.mem_takeWhile_imp hc

/-- The qigong reads the word of the command, and what is behind it is left. -/
theorem getidentifier_commandLine (hS : S.Documented blank ident) (s : CollectionSet)
    (cmd : Command) :
    S.getidentifier (commandLine s cmd) 0 = (word cmd, (word cmd).length) ∧
      (word cmd).length ≤ (commandLine s cmd).length := by
  obtain ⟨rest, -, heq⟩ := commandLine_eq s cmd
  have hword : word cmd ≠ [] := by cases cmd <;> decide
  have hletters : (word cmd).all (fun c => c ∈ str "abcdefghijklmnopqrstuvwxyz") = true := by
    cases cmd <;> decide
  rw [heq]
  exact ⟨getidentifier_word hS hword (forall_mem_of_all hletters) rest, by simp⟩

/-! ## Answers -/

/-- The lines a connection is answered when a line of it is read: those of the records
flushed to it. -/
def answers (S : Scanners) (B : Build) (env : Env) (g : Globals) (pcc : ConnId) (bufin : Bytes) :
    List Bytes :=
  match g.lineread S B env pcc bufin with
  | .ok g' =>
    ((g'.sent.drop g.sent.length).filter fun x => x.1 = pcc).flatMap fun x => splitRecord [] x.2
  | .error _ => []

section answers

variable {a : UInt8} {w bufin text : Bytes}

/-- What begins a line of the text left in `out` begins a line of the answers. -/
theorem answered_of_begins (hw : w.head? = some a) (hun : NoEol w)
    (hc : g.command S B env pcc bufin = .ok g') (hsent : g.sent <+: g'.sent)
    (hout : g'.out pcc = some text)
    (hb : Lib.Begins isEol w text) : ∃ l ∈ answers S B env g pcc bufin, w <+: l := by
  have hnil : w ≠ [] := fun h => by rw [h] at hw; cases hw
  obtain ⟨nbp, hrec, -⟩ := endLine_flushes hout
  obtain ⟨new, hnew⟩ := hsent
  have hline : g.lineread S B env pcc bufin = .ok (g'.endLine pcc) := by
    rw [Globals.lineread, hc]
    rfl
  have hmem : (pcc, text ++ promptText g'.prompt nbp) ∈
      ((g'.endLine pcc).sent.drop g.sent.length).filter fun x => x.1 = pcc := by
    rw [hrec, ← hnew, List.append_assoc, List.drop_left]
    exact List.mem_filter.mpr ⟨by simp, by simp⟩
  obtain ⟨l, hl, hwl⟩ := (begins_splitRecord hun hnil noEol_nil).mpr
    (hb.append_right (promptText g'.prompt nbp))
  refine ⟨l, ?_, hwl⟩
  unfold answers
  rw [hline]
  exact List.mem_flatMap.mpr ⟨_, hmem, hl⟩

/-- Where the command says a text and flushes nothing, the lines of the answers begin as
those of the text do. -/
theorem answered_iff_begins (hh : Hushed g) (hlive : g.conns.contains pcc = true)
    (hw : w.head? = some a) (hun : NoEol w) (hq : a ≠ 113)
    (hc : g.command S B env pcc bufin = .ok g') (hsaid : Says pcc text g g')
    (hended : Lib.Ended isEol text) :
    (∃ l ∈ answers S B env g pcc bufin, w <+: l) ↔ Lib.Begins isEol w text := by
  have hnil : w ≠ [] := fun h => by rw [h] at hw; cases hw
  obtain ⟨c, hconn⟩ := Lib.OrdMap.contains_iff.mp hlive
  have hempty : g.out pcc = some [] := by
    have h : g.out pcc = some c.out := by rw [Globals.out, hconn]; rfl
    rw [h, hh.out pcc _ h]
  have hout : g'.out pcc = some text := by rw [hsaid.out, hempty]; rfl
  refine ⟨?_, answered_of_begins hw hun hc (hsaid.sent ▸ List.prefix_rfl) hout⟩
  obtain ⟨nbp, hrec, -⟩ := endLine_flushes hout
  have hline : g.lineread S B env pcc bufin = .ok (g'.endLine pcc) := by
    rw [Globals.lineread, hc]
    rfl
  rintro ⟨l, hl, hwl⟩
  unfold answers at hl
  rw [hline] at hl
  dsimp only at hl
  rw [hrec, hsaid.sent, List.drop_left] at hl
  -- the one record is the text, and the prompt
  obtain ⟨x, hx, hl⟩ := List.mem_flatMap.mp hl
  obtain rfl := List.mem_singleton.mp (List.mem_filter.mp hx).1
  have hb := (begins_splitRecord hun hnil noEol_nil).mp ⟨l, hl, hwl⟩
  rw [List.nil_append] at hb
  refine ((Lib.begins_append hun hended).mp hb).resolve_right ?_
  exact not_begins_promptText hw hun hq (hsaid.prompt ▸ hh.prompt)

theorem not_answered_of_error {x : Exn} (hc : g.command S B env pcc bufin = .error x) :
    ¬ ∃ l ∈ answers S B env g pcc bufin, w <+: l := by
  rintro ⟨l, hl, -⟩
  unfold answers at hl
  rw [Globals.lineread, hc] at hl
  exact absurd hl List.not_mem_nil

end answers

/-! ## Commands over identifiers -/

section identifiers

variable {body : Globals → Bytes → Except Exn (Globals × Bool)} {bufin command unit : Bytes}

/-- The line that ends a command begins with its name. -/
theorem command_performed (command unit : Bytes) (n : Nat) :
    command ++ str ":" <+: performed command unit n := by
  unfold performed
  rw [show str ": " = str ":" ++ str " " from rfl]
  simp only [List.append_assoc, List.prefix_append_right_inj]
  exact List.prefix_append _ _

theorem ended_performed (command unit : Bytes) (n : Nat) :
    Lib.Ended isEol (performed command unit n) := ended_endl _

theorem ended_missing (b : Bool) : Lib.Ended isEol (if b then missingText else []) := by
  cases b
  · exact Lib.ended_nil
  · exact ended_endl _

theorem forIdents_eq (hS : S.Documented blank ident) (bufin : Bytes) (p : Nat) :
    ∃ b : Bool, ∀ (pcc : ConnId) (command unit : Bytes)
      (body : Globals → Bytes → Except Exn (Globals × Bool)) (g : Globals),
      g.forIdents S pcc bufin p command unit body
        = ((identsFrom S bufin (bufin.length + 1) p).foldlM (counted body) (g, 0)).map fun r =>
            (if b then r.1.write pcc missingText else r.1).write pcc (performed command unit r.2) := by
  have hfuel : p = npos ∨ bufin.length - p < bufin.length + 1 := .inr (by omega)
  obtain ⟨b, hb⟩ := overIdents_eq hS hfuel
  refine ⟨b, fun pcc command unit body g => ?_⟩
  rw [Globals.forIdents, hb]
  cases (identsFrom S bufin (bufin.length + 1) p).foldlM (counted body) (g, 0) <;> rfl

/-- What the end of the command says. -/
theorem says_performed {text : Bytes} (command unit : Bytes) (n : Nat) (b : Bool)
    (h : Says pcc text g g') :
    Says pcc (text ++ (if b then missingText else []) ++ performed command unit n) g
      ((if b then g'.write pcc missingText else g').write pcc (performed command unit n)) := by
  cases b with
  | true => exact (h.trans (says_write g' pcc missingText)).trans (says_write _ pcc _)
  | false =>
    have h' := h.trans (says_write g' pcc (performed command unit n))
    simpa using h'

end identifiers

/-! ## `delete` -/

/-- No registered set of this name has a channel. -/
def Unsubscribed (g : Globals) (i : Bytes) : Prop :=
  ∀ prs rs, g.mrecordsets.find? i = some prs → g.recordsets.find? prs = some rs →
    rs.channels.keys = []

/-- What `delete` says of one identifier. -/
theorem deleteOne_cases {i : Bytes} {r : Globals × Bool} (h : deleteOne pcc g i = .ok r) :
    (∃ text, Says pcc text g r.1 ∧ Lib.Ended isEol text) ∧ Unsubscribed g i ∧
      ∀ i', Unsubscribed r.1 i' ↔ Unsubscribed g i' := by
  obtain ⟨x, hs, rfl⟩ := map_eq_ok.mp h
  rcases suppress_cases hs with ⟨hn, rfl⟩ | ⟨prs, rs, hn, hr, hch, rfl⟩
  · refine ⟨⟨_, (says_write g pcc _).trans (says_write _ pcc _), ?_⟩, ?_, fun _ => Iff.rfl⟩
    · exact (ended_endl _).append (ended_endl _)
    · intro prs rs hn'
      rw [hn] at hn'
      cases hn'
  · rw [if_pos rfl]
    refine ⟨⟨deletionTexts, says_write_of (by rfl) (by rfl) (by rfl) _, ?_⟩, ?_,
      fun i' => ⟨fun hu prs' rs' hn' hr' => ?_, fun hu prs' rs' hn' hr' => ?_⟩⟩
    · unfold deletionTexts
      rw [← List.append_assoc]
      exact ended_endl _
    · intro prs' rs' hn' hr'
      rw [hn] at hn'
      obtain rfl := Option.some.inj hn'
      rw [hr] at hr'
      exact Option.some.inj hr' ▸ hch
    · -- the set deleted has no channel either
      by_cases hprs : prs' = prs
      · rw [hprs, hr] at hr'
        exact Option.some.inj hr' ▸ hch
      · refine hu prs' rs' ?_ ?_
        · show (g.mrecordsets.erase i).find? i' = some prs'
          rw [Lib.OrdMap.find?_erase, if_neg]
          · exact hn'
          · rintro rfl
            exact hprs (Option.some.inj (hn'.symm.trans hn))
        · show (g.recordsets.erase prs).find? prs' = some rs'
          rw [Lib.OrdMap.find?_erase, if_neg hprs]
          exact hr'
    · have hn'' : (g.mrecordsets.erase i).find? i' = some prs' := hn'
      have hr'' : (g.recordsets.erase prs).find? prs' = some rs' := hr'
      rw [Lib.OrdMap.find?_erase] at hn'' hr''
      split at hn''
      · cases hn''
      split at hr''
      · cases hr''
      exact hu prs' rs' hn'' hr''

theorem deleteOne_ok (pcc : ConnId) (hl : Linked g) {i : Bytes} (hu : Unsubscribed g i) :
    ∃ r, deleteOne pcc g i = .ok r := by
  unfold Globals.deleteOne Globals.suppressrecordset
  cases hn : g.mrecordsets.find? i with
  | none => exact ⟨_, rfl⟩
  | some prs =>
    obtain ⟨rs, hr, -⟩ := hl.registered i prs hn
    dsimp only
    rw [hr]
    dsimp only
    rw [if_pos (hu prs rs hn hr)]
    exact ⟨_, rfl⟩

/-- **The loop of `delete`**: where it goes through, no set had a channel. -/
theorem deletes_say {l : List Bytes} {r r' : Globals × Nat}
    (h : l.foldlM (counted (deleteOne pcc)) r = .ok r') :
    (∃ text, Says pcc text r.1 r'.1 ∧ Lib.Ended isEol text) ∧ ∀ i ∈ l, Unsubscribed r.1 i := by
  induction l generalizing r with
  | nil =>
    obtain rfl := Except.ok.inj h
    exact ⟨⟨[], says_nothing rfl rfl rfl, Lib.ended_nil⟩, fun _ h => absurd h List.not_mem_nil⟩
  | cons i l ih =>
    rw [List.foldlM_cons] at h
    obtain ⟨r₁, h₁, h⟩ := bind_eq_ok.mp h
    obtain ⟨x, hx, rfl⟩ := map_eq_ok.mp h₁
    obtain ⟨⟨t, ht, hte⟩, hu, hiff⟩ := deleteOne_cases hx
    obtain ⟨⟨u, hu', hue⟩, hall⟩ := ih h
    refine ⟨⟨t ++ u, ht.trans hu', hte.append hue⟩, fun j hj => ?_⟩
    rcases List.mem_cons.mp hj with rfl | hj
    · exact hu
    · exact (hiff j).mp (hall j hj)

/-- Where no set has a channel, it goes through. -/
theorem deletes_ok {l : List Bytes} {r : Globals × Nat} (hl : Linked r.1)
    (hlive : ∃ m, r.1.subs pcc = some m) (hu : ∀ i ∈ l, Unsubscribed r.1 i) :
    ∃ r', l.foldlM (counted (deleteOne pcc)) r = .ok r' := by
  induction l generalizing r with
  | nil => exact ⟨r, rfl⟩
  | cons i l ih =>
    obtain ⟨x, hx⟩ := deleteOne_ok pcc hl (hu i List.mem_cons_self)
    obtain ⟨-, -, hiff⟩ := deleteOne_cases hx
    have hacts := linked_keptByActs ⟨0, fun _ _ => []⟩ pcc
    have hkept := deleteOne_keeps hacts.write hacts.suppress i x hx ⟨hl, hlive⟩
    rw [List.foldlM_cons, show counted (deleteOne pcc) r i = _ from congrArg (Except.map _) hx]
    exact ih hkept.1 hkept.2 fun j hj => (hiff j).mpr (hu j (List.mem_cons_of_mem _ hj))

/-- `delete` is answered exactly when no set it names has a channel. -/
theorem delete_answered_iff (hS : S.Documented blank ident) (hg : Linked g ∧ Hushed g)
    (hlive : g.conns.contains pcc = true) {bufin : Bytes} {p : Nat}
    (hget : S.getidentifier bufin 0 = (str "delete", p)) :
    (∃ l ∈ answers S B env g pcc bufin, str "delete:" <+: l) ↔
      ∀ i ∈ idents S bufin, Unsubscribed g i := by
  have hcommand : g.command S B env pcc bufin
      = g.forIdents S pcc bufin p (str "delete") (str "deletion") (deleteOne pcc) := by
    unfold Globals.command
    rw [hget]
    rfl
  have hidents : idents S bufin = identsFrom S bufin (bufin.length + 1) p := by rw [idents, hget]
  obtain ⟨b, hb⟩ := forIdents_eq hS bufin p
  rw [hidents]
  cases hfold : (identsFrom S bufin (bufin.length + 1) p).foldlM (counted (deleteOne pcc)) (g, 0) with
  | error x =>
    -- a set that still has a channel throws, and nothing is flushed
    refine iff_of_false (not_answered_of_error (x := x) ?_) fun hall => ?_
    · rw [hcommand, hb, hfold]
      rfl
    · obtain ⟨r, hr⟩ := deletes_ok (r := (g, 0)) hg.1 (live_iff.mp hlive) hall
      rw [hfold] at hr
      cases hr
  | ok r =>
    obtain ⟨⟨text, hsaid, hended⟩, hall⟩ := deletes_say hfold
    refine iff_of_true ?_ hall
    have hcommand' := hcommand.trans (hb pcc _ _ _ g)
    rw [hfold] at hcommand'
    have hsaid' := says_performed (str "delete") (str "deletion") r.2 b hsaid
    refine (answered_iff_begins hg.2 hlive rfl (by decide) (by decide) hcommand' hsaid'
      ((hended.append (ended_missing b)).append (ended_performed _ _ _))).mpr ?_
    exact (Lib.begins_of_prefix (command_performed (str "delete") _ _)).append_left
      (hended.append (ended_missing b))

/-! ## `sub` -/

/-- A set of this name is registered. -/
def Registered (g : Globals) (i : Bytes) : Prop := ∃ prs, g.mrecordsets.find? i = some prs

/-- What `sub` says of one identifier. -/
theorem subOne_says (pcc : ConnId) (hl : Linked g) {i : Bytes} (hi : NoEol i) :
    ∃ x text, subsOne add_subs (str "subscribed to  ") pcc g i = .ok x ∧ Says pcc text g x.1 ∧
      Lib.Ended isEol text ∧ (Lib.Begins isEol (str "subscribed") text ↔ Registered g i) ∧
      x.1.mrecordsets = g.mrecordsets := by
  unfold subsOne
  cases hn : g.mrecordsets.find? i with
  | none =>
    refine ⟨_, _, rfl, says_write g pcc _, ended_endl _, iff_of_false ?_ fun ⟨_, h⟩ => ?_, rfl⟩
    · refine not_begins_line rfl (by decide) rfl (by decide : (115 : UInt8) ≠ 82) ?_
      simp only [noEol_append, noEol_quoted, hi]
      decide
    · rw [hn] at h
      cases h
  | some prs =>
    obtain ⟨rs, hr, -⟩ := hl.registered i prs hn
    have hadd : g.add_subs pcc prs = .ok
        { g with conns := g.conns.modify pcc fun c => { c with subs := c.subs.insert prs 1 },
                 recordsets := g.recordsets.modify prs fun rs =>
                   { rs with channels := rs.channels.insert pcc 1 } } :=
      if_pos (Lib.OrdMap.contains_iff.mpr ⟨rs, hr⟩)
    dsimp only
    rw [hadd]
    refine ⟨_, _, rfl, says_write_of (by rfl) (by rfl) ?_ _, ended_endl _,
      iff_of_true ?_ ⟨prs, hn⟩, rfl⟩
    · exact out_modify_same (fun c => by rfl) pcc pcc g
    · exact Lib.begins_of_prefix ⟨str " to  " ++ quoted i ++ str "." ++ endl, by simp [str]⟩

/-- **The loop of `sub`** says that it subscribes where a set is registered. -/
theorem subs_say {pcc : ConnId} {l : List Bytes} (hno : ∀ i ∈ l, NoEol i) {r : Globals × Nat}
    (hl : Linked r.1) (hlive : ∃ m, r.1.subs pcc = some m) :
    ∃ r' text, l.foldlM (counted (subsOne add_subs (str "subscribed to  ") pcc)) r = .ok r' ∧
      Says pcc text r.1 r'.1 ∧ Lib.Ended isEol text ∧
      (Lib.Begins isEol (str "subscribed") text ↔ ∃ i ∈ l, Registered r.1 i) := by
  induction l generalizing r with
  | nil =>
    refine ⟨r, [], rfl, says_nothing rfl rfl rfl, Lib.ended_nil, ?_⟩
    exact iff_of_false (Lib.begins_nil (by decide)) fun ⟨_, h, _⟩ => absurd h List.not_mem_nil
  | cons i l ih =>
    obtain ⟨x, t, hx, ht, hte, hti, hm⟩ := subOne_says pcc hl (hno i List.mem_cons_self)
    have hacts := linked_keptByActs ⟨0, fun _ _ => []⟩ pcc
    have hkept := subsOne_keeps hacts.write (fun prs g' => hacts.add_subs r.1 prs g') i x hx ⟨hl, hlive⟩
    obtain ⟨r', u, hfold, hu, hue, hui⟩ := ih (fun j hj => hno j (List.mem_cons_of_mem _ hj))
      (r := (x.1, if x.2 then r.2 + 1 else r.2)) hkept.1 hkept.2
    refine ⟨r', t ++ u, ?_, ht.trans hu, hte.append hue, ?_⟩
    · rw [List.foldlM_cons, show counted _ r i = _ from congrArg (Except.map _) hx]
      exact hfold
    · have hreg : ∀ j, Registered x.1 j ↔ Registered r.1 j := fun j => by
        unfold Registered
        rw [hm]
      have hword : NoEol (str "subscribed") := by decide
      rw [Lib.begins_append hword hte, hti, hui]
      simp only [hreg, List.exists_mem_cons_iff]

/-- The line that ends `sub` does not begin as those that tell a subscription. -/
theorem not_begins_performed_sub (n : Nat) :
    ¬ Lib.Begins isEol (str "subscribed") (performed (str "subscribe") (str "subsription") n) := by
  have hline : NoEol (str "subscribe" ++ str ": " ++ decimal n ++ str " " ++ str "subsription" ++
      (if n = 1 then [] else str "s") ++ str " performed.") := by
    have hs : NoEol (if n = 1 then [] else str "s") := by
      split
      · exact noEol_nil
      · decide
    simp only [noEol_append, noEol_decimal, hs]
    decide
  have hword : NoEol (str "subscribed") := by decide
  rw [performed, show ∀ x : Bytes, x ++ endl = x ++ [10] from fun _ => rfl,
    Lib.begins_concat hword (by decide) hline (by decide)]
  simp only [List.append_assoc]
  rw [← List.append_assoc (str "subscribe")]
  intro h
  have h' := List.prefix_of_prefix_length_le h (List.prefix_append _ _) (by decide)
  exact absurd h' (by decide)

/-- `sub` is answered exactly when a set it names is registered. -/
theorem sub_answered_iff (hS : S.Documented blank ident) (hg : Linked g ∧ Hushed g)
    (hlive : g.conns.contains pcc = true) {bufin : Bytes} (hline : NoEol bufin) {p : Nat}
    (hget : S.getidentifier bufin 0 = (str "sub", p)) :
    (∃ l ∈ answers S B env g pcc bufin, str "subscribed" <+: l) ↔
      ∃ i ∈ idents S bufin, Registered g i := by
  have hcommand : g.command S B env pcc bufin
      = g.forIdents S pcc bufin p (str "subscribe") (str "subsription")
          (subsOne add_subs (str "subscribed to  ") pcc) := by
    unfold Globals.command
    rw [hget]
    rfl
  have hidents : idents S bufin = identsFrom S bufin (bufin.length + 1) p := by rw [idents, hget]
  obtain ⟨b, hb⟩ := forIdents_eq hS bufin p
  rw [hidents]
  have hno : ∀ i ∈ identsFrom S bufin (bufin.length + 1) p, NoEol i := noEol_identsFrom hS hline
  obtain ⟨r, text, hfold, hsaid, hended, hiff⟩ := subs_say (r := (g, 0)) hno hg.1
    (live_iff.mp hlive)
  have hcommand' := hcommand.trans (hb pcc _ _ _ g)
  rw [hfold] at hcommand'
  have hsaid' := says_performed (str "subscribe") (str "subsription") r.2 b hsaid
  have hword : NoEol (str "subscribed") := by decide
  -- what is said behind the identifiers begins with other words
  have hmissing : ¬ Lib.Begins isEol (str "subscribed") (if b then missingText else []) := by
    cases b with
    | true => exact not_begins_line rfl hword rfl (by decide : (115 : UInt8) ≠ 101) (by decide)
    | false => exact Lib.begins_nil (by decide)
  rw [answered_iff_begins hg.2 hlive rfl hword (by decide) hcommand' hsaid'
    ((hended.append (ended_missing b)).append (ended_performed _ _ _)),
    Lib.begins_append hword (hended.append (ended_missing b)), Lib.begins_append hword hended, hiff]
  simp only [hmissing, not_begins_performed_sub, or_false]

/-! ## `create` -/

theorem Complaint.ended {text : Bytes} (h : Complaint text) : Lib.Ended isEol text := by
  obtain ⟨ts, -, rfl⟩ := h
  induction ts with
  | nil => exact Lib.ended_nil
  | cons t ts ih =>
    rw [List.flatMap_cons]
    exact (ended_endl _).append ih

/-- An error begins with its own word. -/
theorem Complaint.not_begins {text w : Bytes} {a : UInt8} (h : Complaint text)
    (hw : w.head? = some a) (hun : NoEol w) (hne : a ≠ 101) : ¬ Lib.Begins isEol w text := by
  have hnil : w ≠ [] := fun h => by rw [h] at hw; cases hw
  obtain ⟨ts, hts, rfl⟩ := h
  induction ts with
  | nil => exact Lib.begins_nil hnil
  | cons t ts ih =>
    have ht : Lib.Ended isEol (creationError t) := ended_endl _
    rw [List.flatMap_cons, Lib.begins_append hun ht, not_or]
    refine ⟨not_begins_line hw hun rfl hne ?_, ih fun u hu => hts u (List.mem_cons_of_mem _ hu)⟩
    rw [noEol_append]
    exact ⟨by decide, hts t List.mem_cons_self⟩

/-- `create` is answered exactly when the set can be created. -/
theorem create_answered_iff (hS : S.Documented blank ident) (hg : Linked g ∧ Hushed g)
    (hlive : g.conns.contains pcc = true) {bufin : Bytes} (hline : NoEol bufin) {p : Nat}
    (hget : S.getidentifier bufin 0 = (str "create", p)) (hp : p ≤ bufin.length) :
    (∃ l ∈ answers S B env g pcc bufin, str "creation done." <+: l) ↔
      Creatable S B.mmpcreators g.mrecordsets (bufin.drop p) := by
  have hcommand : g.command S B env pcc bufin = g.createCommand S B pcc bufin p := by
    unfold Globals.command
    rw [hget]
    rfl
  obtain ⟨text, made, htext, hmake, hiff⟩ := createrecordset_iff hS B.mmpcreators g.mrecordsets
    (noEol_of_subset (List.drop_subset p bufin) hline)
  rw [Globals.createCommand, substr_ok hp] at hcommand
  dsimp only [Except.bind] at hcommand
  rw [hmake] at hcommand
  have hword : NoEol (str "creation done.") := by decide
  rw [← hiff]
  cases made with
  | none =>
    rw [answered_iff_begins hg.2 hlive rfl hword (by decide) hcommand (says_write g pcc _)
      (htext.ended.append (ended_endl _)), Lib.begins_append hword htext.ended]
    refine iff_of_false (not_or.mpr ⟨htext.not_begins rfl hword (by decide), ?_⟩) Bool.false_ne_true
    -- complaints begin with their own word, and so does the failure
    have hfailed : NoEol (str "creation failed") := by decide
    rw [show str "creation failed" ++ endl = str "creation failed" ++ [10] from rfl,
      Lib.begins_concat hword (by decide) hfailed (by decide)]
    decide
  | some rs =>
    have hdump : Lib.Ended isEol (text ++ (rs.dump ++ endl)) := htext.ended.append (ended_endl _)
    rw [answered_iff_begins hg.2 hlive rfl hword (by decide) hcommand
      (says_write_of (by rfl) (by rfl) (by rfl) _) (hdump.append (ended_endl _)),
      Lib.begins_append hword hdump]
    exact iff_of_true (.inr (Lib.begins_of_prefix (List.prefix_append _ _))) rfl

/-! ## `activate` -/

/-- The next measure of a set of this name, if one is registered, has a time. -/
def InTime (g : Globals) (now : Int) (i : Bytes) : Prop :=
  ∀ prs rs, g.mrecordsets.find? i = some prs → g.recordsets.find? prs = some rs →
    -2 ^ 63 ≤ now + rs.interval ∧ now + rs.interval < 2 ^ 63

theorem tell_ok (text : Bytes) {pccs : List ConnId} (h : ∀ pcc ∈ pccs, g.conns.contains pcc = true) :
    ∃ g', g.tell text pccs = .ok g' := by
  induction pccs generalizing g with
  | nil => exact ⟨g, rfl⟩
  | cons pcc₀ pccs ih =>
    rw [Globals.tell, if_pos (h pcc₀ List.mem_cons_self)]
    refine ih fun pcc hpcc => ?_
    have hkeep := (write_sameStores g pcc₀ (endl ++ text)).trans (flush_sameStores _ pcc₀)
    rw [live_iff, hkeep.subs]
    exact live_iff.mp (h pcc (List.mem_cons_of_mem _ hpcc))

/-- The channels of a set live. -/
theorem Linked.channel_lives {rs : RecordSet} {prs : SetId} (hl : Linked g)
    (hr : g.recordsets.find? prs = some rs) {pcc' : ConnId} (h : pcc' ∈ rs.channels.keys) :
    g.conns.contains pcc' = true := by
  obtain ⟨m, hm, -⟩ := (hl.channels prs pcc').mp ⟨rs, hr, Lib.OrdMap.mem_keys_iff.mp h⟩
  exact live_iff.mpr ⟨m, hm⟩

/-- A set is measured: its channels live, and its next measure has a time. -/
theorem measure_ok {rs : RecordSet} {prs : SetId} {t : Int}
    (hr : g.recordsets.find? prs = some rs)
    (hch : ∀ pcc ∈ rs.channels.keys, g.conns.contains pcc = true)
    (ht : -2 ^ 63 ≤ t + rs.interval ∧ t + rs.interval < 2 ^ 63) :
    ∃ g', g.measure env t prs = .ok ((t + rs.interval, prs), g') := by
  obtain ⟨g', htell⟩ := tell_ok (g.sample env rs) hch
  refine ⟨g', ?_⟩
  unfold Globals.measure
  rw [hr]
  dsimp only
  rw [timeAdd, if_pos ht]
  dsimp only [Except.bind]
  rw [htell]
  rfl

/-- A registered set is measured. -/
theorem activateOne_ok (pcc : ConnId) (hl : Linked g) {i : Bytes} (ht : InTime g env.now i) :
    ∃ x, activateOne env pcc g i = .ok x := by
  unfold activateOne activaterecordset
  cases hn : g.mrecordsets.find? i with
  | none => exact ⟨_, rfl⟩
  | some prs =>
    obtain ⟨rs, hr, -⟩ := hl.registered i prs hn
    obtain ⟨g₁, hmeasure⟩ := measure_ok hr (fun _ => hl.channel_lives hr) (ht prs rs hn hr)
    dsimp only
    rw [hmeasure]
    exact ⟨_, rfl⟩

/-- What `activate` does with one identifier: its set was in time, the sets stay, and what
is left in `out` ends its last line. -/
theorem activateOne_cases {i : Bytes} {x : Globals × Bool} (h : activateOne env pcc g i = .ok x) :
    InTime g env.now i ∧ (∀ now j, InTime x.1 now j ↔ InTime g now j) ∧ g.sent <+: x.1.sent ∧
      ∀ t, g.out pcc = some t → Lib.Ended isEol t →
        ∃ t', x.1.out pcc = some t' ∧ Lib.Ended isEol t' := by
  -- whatever is written behind it, the last line is ended
  have hwrite : ∀ (g₁ : Globals) (s : Bytes),
      (∀ t, g.out pcc = some t → Lib.Ended isEol t →
        ∃ t', g₁.out pcc = some t' ∧ Lib.Ended isEol t') →
      ∀ t, g.out pcc = some t → Lib.Ended isEol t →
        ∃ t', (g₁.write pcc (s ++ endl)).out pcc = some t' ∧ Lib.Ended isEol t' := by
    intro g₁ s hg₁ t hout hended
    obtain ⟨t', hout', hended'⟩ := hg₁ t hout hended
    refine ⟨t' ++ (s ++ endl), ?_, hended'.append (ended_endl _)⟩
    rw [out_write, if_pos rfl, hout']
    rfl
  obtain ⟨y, hy, rfl⟩ := map_eq_ok.mp h
  rcases activate_cases hy with ⟨hn, rfl⟩ | ⟨prs, e, g₁, hn, hm, rfl⟩
  · refine ⟨fun prs rs hn' => ?_, fun _ _ => Iff.rfl, List.prefix_rfl, ?_⟩
    · rw [hn] at hn'
      cases hn'
    · exact hwrite _ _ (hwrite g _ fun t hout hended => ⟨t, hout, hended⟩)
  · obtain ⟨rs, hr, ⟨next, hnext⟩, htell⟩ := measure_tells hm
    obtain ⟨hsame, -, -⟩ := measure_stores hm
    obtain ⟨-, -, hsent, hout⟩ := tell_texts htell
    have htime : -2 ^ 63 ≤ env.now + rs.interval ∧ env.now + rs.interval < 2 ^ 63 := by
      unfold timeAdd at hnext
      split at hnext
      case isTrue hin => exact hin
      case isFalse => cases hnext
    refine ⟨fun prs' rs' hn' hr' => ?_, fun now j => ?_, hsent, ?_⟩
    · obtain rfl := Option.some.inj (hn.symm.trans hn')
      obtain rfl := Option.some.inj (hr.symm.trans hr')
      exact htime
    · show (∀ prs rs, g₁.mrecordsets.find? j = some prs → g₁.recordsets.find? prs = some rs → _) ↔ _
      rw [hsame.mrecordsets, hsame.recordsets]
      exact Iff.rfl
    · refine hwrite _ _ fun t ht hended => ?_
      rcases hout pcc with h' | h'
      · exact ⟨t, h'.trans ht, hended⟩
      · exact ⟨[], h', Lib.ended_nil⟩

/-- **The loop of `activate`**: where it goes through, every set was in time. -/
theorem activates_say {l : List Bytes} {r r' : Globals × Nat}
    (h : l.foldlM (counted (activateOne env pcc)) r = .ok r') :
    (∀ i ∈ l, InTime r.1 env.now i) ∧ r.1.sent <+: r'.1.sent ∧
      ∀ t, r.1.out pcc = some t → Lib.Ended isEol t →
        ∃ t', r'.1.out pcc = some t' ∧ Lib.Ended isEol t' := by
  induction l generalizing r with
  | nil =>
    obtain rfl := Except.ok.inj h
    exact ⟨fun _ h => absurd h List.not_mem_nil, List.prefix_rfl, fun t ht he => ⟨t, ht, he⟩⟩
  | cons i l ih =>
    rw [List.foldlM_cons] at h
    obtain ⟨r₁, h₁, h⟩ := bind_eq_ok.mp h
    obtain ⟨x, hx, rfl⟩ := map_eq_ok.mp h₁
    obtain ⟨hi, hiff, hsent, hout⟩ := activateOne_cases hx
    obtain ⟨hall, hsent', hout'⟩ := ih h
    refine ⟨fun j hj => ?_, hsent.trans hsent', fun t ht he => ?_⟩
    · rcases List.mem_cons.mp hj with rfl | hj
      · exact hi
      · exact (hiff _ j).mp (hall j hj)
    · obtain ⟨t', ht', he'⟩ := hout t ht he
      exact hout' t' ht' he'

/-- Where every set is in time, it goes through. -/
theorem activates_ok {l : List Bytes} {r : Globals × Nat} (hl : Linked r.1)
    (hlive : ∃ m, r.1.subs pcc = some m) (ht : ∀ i ∈ l, InTime r.1 env.now i) :
    ∃ r', l.foldlM (counted (activateOne env pcc)) r = .ok r' := by
  induction l generalizing r with
  | nil => exact ⟨r, rfl⟩
  | cons i l ih =>
    obtain ⟨x, hx⟩ := activateOne_ok pcc hl (ht i List.mem_cons_self)
    obtain ⟨-, hiff, -⟩ := activateOne_cases hx
    have hkept := (linked_keptByActs env pcc).activateOne i x hx ⟨hl, hlive⟩
    rw [List.foldlM_cons, show counted (activateOne env pcc) r i = _ from congrArg (Except.map _) hx]
    exact ih hkept.1 hkept.2 fun j hj => (hiff _ j).mpr (ht j (List.mem_cons_of_mem _ hj))

/-- `activate` is answered exactly when every set it names has a next time. -/
theorem activate_answered_iff (hS : S.Documented blank ident) (hg : Linked g ∧ Hushed g)
    (hlive : g.conns.contains pcc = true) {bufin : Bytes} {p : Nat}
    (hget : S.getidentifier bufin 0 = (str "activate", p)) :
    (∃ l ∈ answers S B env g pcc bufin, str "activate:" <+: l) ↔
      ∀ i ∈ idents S bufin, InTime g env.now i := by
  have hcommand : g.command S B env pcc bufin
      = g.forIdents S pcc bufin p (str "activate") (str "activation") (activateOne env pcc) := by
    unfold Globals.command
    rw [hget]
    rfl
  have hidents : idents S bufin = identsFrom S bufin (bufin.length + 1) p := by rw [idents, hget]
  obtain ⟨b, hb⟩ := forIdents_eq hS bufin p
  rw [hidents]
  cases hfold : (identsFrom S bufin (bufin.length + 1) p).foldlM
      (counted (activateOne env pcc)) (g, 0) with
  | error x =>
    refine iff_of_false (not_answered_of_error (x := x) ?_) fun hall => ?_
    · rw [hcommand, hb, hfold]
      rfl
    · obtain ⟨r, hr⟩ := activates_ok (r := (g, 0)) hg.1 (live_iff.mp hlive) hall
      rw [hfold] at hr
      cases hr
  | ok r =>
    obtain ⟨hall, hsent, hout⟩ := activates_say hfold
    refine iff_of_true ?_ hall
    have hcommand' := hcommand.trans (hb pcc _ _ _ g)
    rw [hfold] at hcommand'
    obtain ⟨c, hconn⟩ := Lib.OrdMap.contains_iff.mp hlive
    have hout₀ : g.out pcc = some c.out := by rw [Globals.out, hconn]; rfl
    obtain ⟨t, ht, hended⟩ := hout c.out hout₀ (hg.2.out pcc _ hout₀ ▸ Lib.ended_nil)
    -- the record flushed last ends with the line awaited
    have hnothing : Says pcc [] r.1 r.1 := says_nothing rfl rfl rfl
    have hsaid := says_performed (str "activate") (str "activation") r.2 b hnothing
    rw [List.nil_append] at hsaid
    refine answered_of_begins rfl (by decide) hcommand' (hsaid.sent ▸ hsent)
      (hsaid.out.trans (congrArg _ ht)) ?_
    exact ((Lib.begins_of_prefix (command_performed (str "activate") _ _)).append_left
      (ended_missing b)).append_left hended

/-! ## The collector that waits -/

section waiting

variable {P : Crypt.Platform} {c c' : CollectingConn P}

/-- A connection reads lines, each at its time. -/
def readLines (S : Scanners) (c : CollectingConn P) (lines : List (Int × Bytes)) :
    Except Exn (CollectingConn P) :=
  lines.foldlM (fun c l => (c.lineread S l.1 l.2).map Prod.fst) c

/-- One line read in state `waiting` or `ready`. -/
theorem lineread_waiting {now : Int} {bufin : Bytes} {effs : List (Collect.Effect P)}
    (h : c.lineread S now bufin = .ok (c', effs)) :
    (c.state = .ready → c'.state = .ready) ∧
      (c.state = .waiting → c.wait_string <+: bufin → c'.state = .ready) ∧
      (c.state = .waiting → ¬ c.wait_string <+: bufin →
        c'.state = .waiting ∧ c'.wait_string = c.wait_string) := by
  obtain ⟨d, meas, rfl, -, hd⟩ := Collect.lineread_eq h
  -- a measure line changes neither the state nor what is awaited
  have hsame : d.state = c.state ∧ d.wait_string = c.wait_string := by
    rcases hd with ⟨-, -, hm⟩ | ⟨-, rfl, -⟩
    · obtain ⟨-, -, rfl, -⟩ := Collect.measureLine_eq rfl hm
      exact ⟨rfl, rfl⟩
    · exact ⟨rfl, rfl⟩
  rw [← hsame.1, ← hsame.2]
  refine ⟨fun hr => ?_, fun hw hp => ?_, fun hw hp => ?_⟩
  · simp only [CollectingConn.onLine, hr]
  · simp only [CollectingConn.onLine, hw, if_pos (startsWith_iff.mpr hp)]
  · have hno : ¬ startsWith d.wait_string bufin = true := mt startsWith_iff.mp hp
    simp only [CollectingConn.onLine, hw, if_neg hno, and_self]

theorem readLines_ready {lines : List (Int × Bytes)} (hc : c.state = .ready)
    (h : readLines S c lines = .ok c') : c'.state = .ready := by
  induction lines generalizing c with
  | nil =>
    obtain rfl := Except.ok.inj h
    exact hc
  | cons l lines ih =>
    rw [readLines, List.foldlM_cons] at h
    obtain ⟨c₁, h₁, h⟩ := bind_eq_ok.mp h
    obtain ⟨⟨c₂, effs⟩, h₂, rfl⟩ := map_eq_ok.mp h₁
    exact ih ((lineread_waiting h₂).1 hc) h

/-- **A connection that waits goes on waiting** exactly until it reads the line awaited. -/
theorem readLines_waiting {lines : List (Int × Bytes)} (hc : c.state = .waiting)
    (h : readLines S c lines = .ok c') :
    c'.state = .waiting ↔ ¬ ∃ l ∈ lines.map Prod.snd, c.wait_string <+: l := by
  induction lines generalizing c with
  | nil =>
    obtain rfl := Except.ok.inj h
    exact iff_of_true hc fun ⟨_, h, _⟩ => absurd h List.not_mem_nil
  | cons l lines ih =>
    rw [readLines, List.foldlM_cons] at h
    obtain ⟨c₁, h₁, h⟩ := bind_eq_ok.mp h
    obtain ⟨⟨c₂, effs⟩, h₂, rfl⟩ := map_eq_ok.mp h₁
    obtain ⟨-, hready, hwait⟩ := lineread_waiting h₂
    rw [List.map_cons, List.exists_mem_cons_iff]
    by_cases hp : c.wait_string <+: l.2
    · refine iff_of_false ?_ (not_not.mpr (.inl hp))
      rw [readLines_ready (hready hc hp) h]
      exact fun h => (nomatch h)
    · obtain ⟨hc₂, hw₂⟩ := hwait hc hp
      rw [ih hc₂ h, hw₂, or_iff_right hp]

end waiting

/-! ## The setup commands -/

/-- When a setup command is answered as awaited: `delete`, if no set named has a
subscriber; `create`, if the set can be created; `activate`, if the sets named have a next
time; `sub`, if a set named is registered. -/
def Answerable (S : Scanners) (B : Build) (now : Int) (g : Globals) (line : Bytes) : Command → Prop
  | .delete => ∀ i ∈ idents S line, Unsubscribed g i
  | .create => Creatable S B.mmpcreators g.mrecordsets (line.drop (S.getidentifier line 0).2)
  | .activate => ∀ i ∈ idents S line, InTime g now i
  | .sub => ∃ i ∈ idents S line, Registered g i

/-- **The setup commands are answered as the collector awaits it exactly when they are
answerable**, in every state a qigong reaches, whatever is compiled in: and a collector
that reads the answers leaves its state `waiting` exactly then. -/
theorem setup_answered_iff (hS : S.Documented blank ident) {es : List Event}
    (h : Lib.run (step S B) boot es = some g) (hlive : g.conns.contains pcc = true) (env : Env)
    (s : CollectionSet) (cmd : Command) :
    ((∃ l ∈ answers S B env g pcc (commandLine s cmd), cmd.wait_string <+: l) ↔
      Answerable S B env.now g (commandLine s cmd) cmd) ∧
    ∀ (P : Crypt.Platform) (S' : Scanners) (c c' : CollectingConn P) (lines : List (Int × Bytes)),
      c.state = .waiting → c.wait_string = cmd.wait_string →
      lines.map Prod.snd = answers S B env g pcc (commandLine s cmd) →
      readLines S' c lines = .ok c' →
      (c'.state = .waiting ↔ ¬ Answerable S B env.now g (commandLine s cmd) cmd) := by
  have hg := hushed_of_run h
  obtain ⟨hget, hlen⟩ := getidentifier_commandLine hS s cmd
  have hline := noEol_commandLine s cmd
  have hiff : (∃ l ∈ answers S B env g pcc (commandLine s cmd), cmd.wait_string <+: l) ↔
      Answerable S B env.now g (commandLine s cmd) cmd := by
    cases cmd with
    | delete => exact delete_answered_iff hS hg hlive hget
    | create =>
      rw [Answerable, hget]
      exact create_answered_iff hS hg hlive hline hget hlen
    | activate => exact activate_answered_iff hS hg hlive hget
    | sub => exact sub_answered_iff hS hg hlive hline hget
  refine ⟨hiff, fun P S' c c' lines hw hwait hlines hread => ?_⟩
  rw [← hiff, ← hlines, ← hwait]
  exact readLines_waiting hw hread

/-- The collector that has asked for the sample set. -/
def sampleWaiting : CollectingConn Collect.plainPlatform :=
  { CollectingConn.construct 1000 Collect.plainSupplicant with
    state := .waiting, wait_string := Command.create.wait_string }

/-- Where the function is known the sample set is created, and the collector goes on. -/
theorem setup_answered_iff_create :
    ∃ g, Lib.run (step sampleScanners sampleBuild) boot sampleGreeting = some g ∧
      (∃ l ∈ answers sampleScanners sampleBuild sampleEnv g 0
        (commandLine Collect.sampleSet .create), Command.create.wait_string <+: l) ∧
      Answerable sampleScanners sampleBuild sampleEnv.now g
        (commandLine Collect.sampleSet .create) .create ∧
      ∃ c', readLines sampleScanners sampleWaiting
          ((answers sampleScanners sampleBuild sampleEnv g 0
            (commandLine Collect.sampleSet .create)).map fun l => (1000, l)) = .ok c' ∧
        c'.state ≠ .waiting := by
  -- the answers, and that the collector reads them, are computed
  have hany : (Lib.run (step sampleScanners sampleBuild) boot sampleGreeting).any (fun g =>
      let lines := answers sampleScanners sampleBuild sampleEnv g 0
        (commandLine Collect.sampleSet .create)
      g.conns.contains 0 && lines.any (startsWith Command.create.wait_string) &&
        (readLines sampleScanners sampleWaiting (lines.map fun l => (1000, l))).toBool) = true := by
    decide +kernel
  obtain ⟨g, h, hg⟩ := (Option.any_eq_true _ _).mp hany
  simp only [Bool.and_eq_true, List.any_eq_true, startsWith_iff] at hg
  obtain ⟨⟨hlive, l, hl, hp⟩, hread⟩ := hg
  obtain ⟨hiff, hwait⟩ := setup_answered_iff sampleScanners_documented h hlive sampleEnv
    Collect.sampleSet .create
  have hanswerable := hiff.mp ⟨l, hl, hp⟩
  cases hc : readLines sampleScanners sampleWaiting
      ((answers sampleScanners sampleBuild sampleEnv g 0
        (commandLine Collect.sampleSet .create)).map fun l => ((1000 : Int), l)) with
  | error x => rw [hc] at hread; cases hread
  | ok c' =>
    have hlines := hwait Collect.plainPlatform sampleScanners sampleWaiting c' _ rfl rfl
      (by rw [List.map_map]; exact List.map_id _) hc
    exact ⟨g, h, ⟨l, hl, hp⟩, hanswerable, c', hc, mt hlines.mp (not_not.mpr hanswerable)⟩

/-- **A set whose function is not compiled in is not answered as awaited**: a qigong that
knows no measure point refuses `create`, and no line of its answers begins with the text
the collector waits for. -/
theorem create_unanswered :
    ¬ ∀ (S : Scanners) (blank ident : UInt8 → Bool) (B : Build) (es : List Event) (g : Globals)
      (pcc : ConnId) (env : Env) (s : CollectionSet) (cmd : Command),
      S.Documented blank ident → Lib.run (step S B) boot es = some g →
      g.conns.contains pcc = true →
      ∃ l ∈ answers S B env g pcc (commandLine s cmd), cmd.wait_string <+: l := by
  intro hall
  have hany : (Lib.run (step sampleScanners { sampleBuild with mmpcreators := .empty }) boot
      sampleGreeting).any (fun g => g.conns.contains 0 &&
        !(answers sampleScanners { sampleBuild with mmpcreators := .empty } sampleEnv g 0
          (commandLine Collect.sampleSet .create)).any (startsWith Command.create.wait_string))
      = true := by
    decide +kernel
  obtain ⟨g, h, hg⟩ := (Option.any_eq_true _ _).mp hany
  obtain ⟨hlive, hno⟩ := (Bool.and_eq_true _ _).mp hg
  obtain ⟨l, hl, hp⟩ := hall _ _ _ _ _ g 0 sampleEnv Collect.sampleSet .create
    sampleScanners_documented h hlive
  have hyes := List.any_eq_true.mpr ⟨l, hl, startsWith_iff.mpr hp⟩
  rw [hyes] at hno
  exact absurd hno (by decide)

end Qigong.Probe
