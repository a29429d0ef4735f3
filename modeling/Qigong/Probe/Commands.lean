import Qigong.Lib.Machine
import Qigong.Probe.Unsubscribing

/-!
# What a line comes to

Which command a line is, and the identifiers it names, depend on the line alone
(`command_form`), whatever the state and the connection. A line is returned from exactly
where its command is defined: where no pointer dangles, no time overflows, and `create` has
a definition (`command_ok_iff`).
-/

namespace Qigong.Probe

open Globals

variable {S : Scanners} {B : Build} {blank ident : UInt8 → Bool} {env : Env}
variable {g g' : Globals} {pcc : ConnId} {bufin : Bytes}

/-- The word a line begins with. -/
def lineWord (S : Scanners) (bufin : Bytes) : Bytes := (S.getidentifier bufin 0).1

/-- The commands over identifiers. -/
inductive Act where
  | delete
  | activate
  | sub
  | unsub

namespace Act

/-- What a command does with one identifier. -/
def one : Act → Env → ConnId → Globals → Bytes → Except Exn (Globals × Bool)
  | .delete, _ => deleteOne
  | .activate, env => activateOne env
  | .sub, _ => subsOne add_subs (str "subscribed to  ")
  | .unsub, _ => unsubOne

/-- The words a command goes by. -/
def words : Act → List Bytes
  | .delete => [str "delete"]
  | .activate => [str "activate"]
  | .sub => [str "subscribe", str "sub"]
  | .unsub => [str "unsubscribe", str "unsub"]

/-- The words of all of them. -/
def allWords : List Bytes := [delete, activate, sub, unsub].flatMap words

theorem mem_allWords {a : Act} {w : Bytes} (h : w ∈ a.words) : w ∈ allWords :=
  List.mem_flatMap.mpr ⟨a, by cases a <;> simp, h⟩

/-- What is told of how often it was performed. -/
def told : Act → Nat → Bytes
  | .delete => performed (str "delete") (str "deletion")
  | .activate => performed (str "activate") (str "activation")
  | .sub => performed (str "subscribe") (str "subsription")
  | .unsub => performed (str "unsubscribe") (str "unsubsription")

end Act

/-- What a line comes to, `list` apart. -/
inductive Form where
  | silent
  | tells (text : Bytes)
  | qiging
  | create (p : Nat)
  | act (a : Act) (is : List Bytes) (missing : Bool)

namespace Form

/-- What it does. -/
def run (S : Scanners) (B : Build) (env : Env) (pcc : ConnId) (bufin : Bytes) (g : Globals) :
    Form → Except Exn Globals
  | .silent => .ok g
  | .tells text => .ok (g.write pcc text)
  | .qiging => .ok { g.write pcc (eos ++ str "qigong." ++ eos) with prompt := [] }
  | .create p => g.createCommand S B pcc bufin p
  | .act a is missing => (is.foldlM (counted (a.one env pcc)) (g, 0)).map fun r =>
      (if missing then r.1.write pcc missingText else r.1).write pcc (a.told r.2)

/-- The words whose commands do more than say something. -/
def busy : List Bytes :=
  [str "create", str "delete", str "activate", str "subscribe", str "sub", str "unsubscribe",
    str "unsub", str "qiging"]

/-- The line is spelled so. -/
def Spelled (S : Scanners) (bufin : Bytes) : Form → Prop
  | .silent => lineWord S bufin ∉ busy
  | .tells _ => lineWord S bufin ∉ busy
  | .qiging => lineWord S bufin = str "qiging"
  | .create p => S.getidentifier bufin 0 = (str "create", p)
  | .act a is _ => lineWord S bufin ∈ a.words ∧ is = idents S bufin

end Form

/-- A command over identifiers, by its word. -/
theorem act_form (hS : S.Documented blank ident) (a : Act) {w : Bytes} {p : Nat} (hw : w ∈ a.words)
    (hget : S.getidentifier bufin 0 = (w, p))
    (hcommand : ∀ (B : Build) (env : Env) (pcc : ConnId) (g : Globals),
      ∃ command unit, a.told = performed command unit ∧
        g.command S B env pcc bufin = g.forIdents S pcc bufin p command unit (a.one env pcc)) :
    ∃ f : Form, f.Spelled S bufin ∧ ∀ (B : Build) (env : Env) (pcc : ConnId) (g : Globals),
      g.command S B env pcc bufin = f.run S B env pcc bufin g := by
  obtain ⟨b, hb⟩ := forIdents_eq hS bufin p
  refine ⟨.act a (idents S bufin) b, ⟨by rw [lineWord, hget]; exact hw, rfl⟩,
    fun B env pcc g => ?_⟩
  obtain ⟨command, unit, htold, heq⟩ := hcommand B env pcc g
  rw [heq, hb, Form.run, htold, idents, hget]

/-- **A line comes to one form**, for every state and every connection. -/
theorem command_form (hS : S.Documented blank ident) (hlist : lineWord S bufin ≠ str "list") :
    ∃ f : Form, f.Spelled S bufin ∧ ∀ (B : Build) (env : Env) (pcc : ConnId) (g : Globals),
      g.command S B env pcc bufin = f.run S B env pcc bufin g := by
  obtain ⟨w, p, hget⟩ : ∃ w p, S.getidentifier bufin 0 = (w, p) := ⟨_, _, rfl⟩
  have hword : lineWord S bufin = w := by rw [lineWord, hget]
  rw [hword] at hlist
  have hquiet : ∀ w', w' ∉ Form.busy → w = w' → lineWord S bufin ∉ Form.busy := by
    rintro w' hbusy rfl
    rw [hword]
    exact hbusy
  -- the words that only say something
  by_cases hnil : w = []
  · refine ⟨.silent, hquiet [] (by decide) hnil, fun B env pcc g => ?_⟩
    unfold Globals.command
    rw [hget, hnil]
    rfl
  by_cases hhelp : w = str "help"
  · refine ⟨.tells helpText, hquiet _ (by decide) hhelp, fun B env pcc g => ?_⟩
    unfold Globals.command
    rw [hget, hhelp]
    rfl
  by_cases hquit : w = str "quit"
  · refine ⟨.tells (str "ending connection" ++ endl), hquiet _ (by decide) hquit,
      fun B env pcc g => ?_⟩
    unfold Globals.command
    rw [hget, hquit]
    rfl
  by_cases hturnoff : w = str "turnoff"
  · refine ⟨.tells (str "entering turnoff" ++ endl), hquiet _ (by decide) hturnoff,
      fun B env pcc g => ?_⟩
    unfold Globals.command
    rw [hget, hturnoff]
    rfl
  by_cases hqiging : w = str "qiging"
  · refine ⟨.qiging, hword.trans hqiging, fun B env pcc g => ?_⟩
    unfold Globals.command
    rw [hget, hqiging]
    rfl
  by_cases hcreate : w = str "create"
  · refine ⟨.create p, by rw [Form.Spelled, hget, hcreate], fun B env pcc g => ?_⟩
    unfold Globals.command
    rw [hget, hcreate]
    rfl
  by_cases hdelete : w = str "delete"
  · refine act_form hS .delete (by rw [hdelete]; decide) hget fun B env pcc g => ⟨_, _, rfl, ?_⟩
    unfold Globals.command
    rw [hget, hdelete]
    rfl
  by_cases hactivate : w = str "activate"
  · refine act_form hS .activate (by rw [hactivate]; decide) hget
      fun B env pcc g => ⟨_, _, rfl, ?_⟩
    unfold Globals.command
    rw [hget, hactivate]
    rfl
  by_cases hsub : w = str "subscribe" ∨ w = str "sub"
  · refine act_form hS .sub ?_ hget fun B env pcc g => ⟨_, _, rfl, ?_⟩
    · rcases hsub with rfl | rfl <;> decide
    · unfold Globals.command
      rw [hget]
      rcases hsub with rfl | rfl <;> rfl
  by_cases hunsub : w = str "unsubscribe" ∨ w = str "unsub"
  · refine act_form hS .unsub ?_ hget fun B env pcc g => ⟨_, _, rfl, ?_⟩
    · rcases hunsub with rfl | rfl <;> decide
    · unfold Globals.command
      rw [hget]
      rcases hunsub with rfl | rfl <;> rfl
  · refine ⟨.tells (str "unknown command : " ++ quoted w ++ endl), ?_, fun B env pcc g => ?_⟩
    · show lineWord S bufin ∉ Form.busy
      rw [hword, Form.busy]
      simp only [List.mem_cons, List.not_mem_nil, not_or, or_false]
      exact ⟨hcreate, hdelete, hactivate, fun h => hsub (.inl h), fun h => hsub (.inr h),
        fun h => hunsub (.inl h), fun h => hunsub (.inr h), hqiging⟩
    · unfold Globals.command
      rw [hget]
      dsimp only
      rw [if_neg hnil, if_neg hhelp, if_neg hquit, if_neg hturnoff, if_neg hcreate, if_neg hlist,
        if_neg hdelete, if_neg hactivate, if_neg hsub, if_neg hunsub, if_neg hqiging]
      rfl

/-- The record sets a line names. -/
def named (S : Scanners) (bufin : Bytes) : List Bytes :=
  if lineWord S bufin = str "create" then
    [(S.getidentifier (bufin.drop (S.getidentifier bufin 0).2) 0).1]
  else if lineWord S bufin ∈ Act.allWords then idents S bufin
  else []

theorem named_create {p : Nat} (h : (Form.create p).Spelled S bufin) :
    named S bufin = [(S.getidentifier (bufin.drop p) 0).1] := by
  have hget : S.getidentifier bufin 0 = (str "create", p) := h
  unfold named lineWord
  rw [hget, if_pos rfl]

theorem named_act {a : Act} {is : List Bytes} {missing : Bool}
    (h : (Form.act a is missing).Spelled S bufin) : named S bufin = is := by
  obtain ⟨hw, rfl⟩ := h
  have hne : ∀ w ∈ Act.allWords, w ≠ str "create" := by decide
  unfold named
  rw [if_neg (hne _ (Act.mem_allWords hw)), if_pos (Act.mem_allWords hw)]

/-! ## Where a command is defined -/

/-- What a command needs: `create` a definition, `delete` sets without channels, `activate`
times that do not overflow, and `unsub` sets that are subscribed to, each once. -/
def Defined (S : Scanners) (g : Globals) (pcc : ConnId) (now : Int) (bufin : Bytes) : Prop :=
  if lineWord S bufin = str "create" then (S.getidentifier bufin 0).2 ≤ bufin.length
  else if lineWord S bufin ∈ Act.delete.words then ∀ i ∈ idents S bufin, Unsubscribed g i
  else if lineWord S bufin ∈ Act.activate.words then ∀ i ∈ idents S bufin, InTime g now i
  else if lineWord S bufin ∈ Act.unsub.words then
    (setsNamed g (idents S bufin)).Nodup ∧
      ∀ prs ∈ setsNamed g (idents S bufin), g.Subscribes pcc prs
  else True

/-- What a command over identifiers needs. -/
def Act.Defined (g : Globals) (pcc : ConnId) (now : Int) (is : List Bytes) : Act → Prop
  | .delete => ∀ i ∈ is, Unsubscribed g i
  | .activate => ∀ i ∈ is, InTime g now i
  | .sub => True
  | .unsub => (setsNamed g is).Nodup ∧ ∀ prs ∈ setsNamed g is, g.Subscribes pcc prs

theorem defined_act {a : Act} {now : Int} (hw : lineWord S bufin ∈ a.words) :
    Defined S g pcc now bufin ↔ a.Defined g pcc now (idents S bufin) := by
  have hne : ∀ w ∈ Act.allWords, w ≠ str "create" := by decide
  unfold Probe.Defined
  rw [if_neg (hne _ (Act.mem_allWords hw))]
  -- the words of the commands differ
  cases a with
  | delete => rw [if_pos hw, Act.Defined]
  | activate =>
    have hdelete : ∀ w ∈ Act.activate.words, w ∉ Act.delete.words := by decide
    rw [if_neg (hdelete _ hw), if_pos hw, Act.Defined]
  | sub =>
    have hothers : ∀ w ∈ Act.sub.words, w ∉ Act.delete.words ∧ w ∉ Act.activate.words ∧
        w ∉ Act.unsub.words := by decide
    obtain ⟨h₁, h₂, h₃⟩ := hothers _ hw
    rw [if_neg h₁, if_neg h₂, if_neg h₃, Act.Defined]
  | unsub =>
    have hothers : ∀ w ∈ Act.unsub.words, w ∉ Act.delete.words ∧ w ∉ Act.activate.words := by
      decide
    obtain ⟨h₁, h₂⟩ := hothers _ hw
    rw [if_neg h₁, if_neg h₂, if_pos hw, Act.Defined]

theorem defined_quiet {now : Int} (hcreate : lineWord S bufin ≠ str "create")
    (hacts : lineWord S bufin ∉ Act.allWords) : Defined S g pcc now bufin := by
  have hnot : ∀ a : Act, lineWord S bufin ∉ a.words := fun a h => hacts (Act.mem_allWords h)
  unfold Defined
  rw [if_neg hcreate, if_neg (hnot .delete), if_neg (hnot .activate), if_neg (hnot .unsub)]
  trivial

/-- `sub` always goes through. -/
theorem subs_ok {told : Bytes} {l : List Bytes} {r : Globals × Nat}
    (hr : Linked r.1 ∧ ∃ m, r.1.subs pcc = some m) :
    ∃ r', l.foldlM (counted (subsOne add_subs told pcc)) r = .ok r' := by
  refine Lib.foldlM_returns (I := fun r => Linked r.1 ∧ ∃ m, r.1.subs pcc = some m)
    (fun i _ r hr => ?_) hr
  obtain ⟨x, hx⟩ : ∃ x, subsOne add_subs told pcc r.1 i = .ok x := by
    unfold subsOne
    cases hn : r.1.mrecordsets.find? i with
    | none => exact ⟨_, rfl⟩
    | some prs =>
      obtain ⟨rs, hrs, -⟩ := hr.1.registered i prs hn
      dsimp only
      rw [Globals.add_subs, Globals.add_channel, if_pos (Lib.OrdMap.contains_iff.mpr ⟨rs, hrs⟩)]
      exact ⟨_, rfl⟩
  have hacts := linked_keptByActs ⟨0, fun _ _ => []⟩ pcc
  have hkept := subsOne_keeps hacts.write (fun prs g' => hacts.add_subs r.1 prs g') i x hx hr
  exact ⟨_, congrArg (Except.map _) hx, hkept⟩

/-- **The loop of a command goes through exactly where the command is defined.** -/
theorem Act.loop_ok_iff (a : Act) (hl : Linked g) (hlive : ∃ m, g.subs pcc = some m)
    (is : List Bytes) :
    (∃ r, is.foldlM (counted (a.one env pcc)) (g, 0) = .ok r) ↔ a.Defined g pcc env.now is := by
  cases a with
  | delete =>
    constructor
    · rintro ⟨r, hr⟩
      exact (deletes_say hr).2
    · exact fun h => deletes_ok (r := (g, 0)) hl hlive h
  | activate =>
    constructor
    · rintro ⟨r, hr⟩
      exact (activates_say hr).1
    · exact fun h => activates_ok (r := (g, 0)) hl hlive h
  | sub => exact iff_of_true (subs_ok ⟨hl, hlive⟩) trivial
  | unsub =>
    constructor
    · rintro ⟨r, hr⟩
      obtain ⟨-, hnodup, hall, -⟩ := unsubs_cases hr
      exact ⟨hnodup, hall⟩
    · exact fun h => unsubs_ok (r := (g, 0)) hl hlive h.1 h.2

/-- `create` takes a `substr` of the line, and is returned from. -/
theorem createCommand_ok_iff (hS : S.Documented blank ident) {p : Nat} :
    (∃ g', g.createCommand S B pcc bufin p = .ok g') ↔ p ≤ bufin.length := by
  constructor
  · rintro ⟨g', h⟩
    obtain ⟨s, hs, -⟩ := bind_eq_ok.mp h
    unfold substr at hs
    split at hs
    case isTrue => cases hs
    case isFalse hle => exact Nat.not_lt.mp hle
  · intro hp
    obtain ⟨r, hr⟩ := createrecordset_returns hS B.mmpcreators g.mrecordsets (bufin.drop p)
    unfold Globals.createCommand
    rw [substr_ok hp]
    dsimp only [Except.bind]
    rw [hr]
    exact ⟨_, rfl⟩

/-- **A command is returned from exactly where it is defined.** -/
theorem command_ok_iff (hS : S.Documented blank ident) (hlist : lineWord S bufin ≠ str "list")
    (hl : Linked g) (hlive : ∃ m, g.subs pcc = some m) :
    (∃ g', g.command S B env pcc bufin = .ok g') ↔ Defined S g pcc env.now bufin := by
  obtain ⟨f, hf, hrun⟩ := command_form hS hlist
  rw [hrun]
  have hquiet : lineWord S bufin ∉ Form.busy → Defined S g pcc env.now bufin := by
    intro hnot
    have hbusy : ∀ w ∈ Act.allWords, w ∈ Form.busy := by decide
    refine defined_quiet (fun heq => hnot ?_) fun hact => hnot (hbusy _ hact)
    rw [heq]
    decide
  cases f with
  | silent => exact iff_of_true ⟨_, rfl⟩ (hquiet hf)
  | tells text => exact iff_of_true ⟨_, rfl⟩ (hquiet hf)
  | qiging =>
    refine iff_of_true ⟨_, rfl⟩ (defined_quiet ?_ ?_)
    · rw [show lineWord S bufin = str "qiging" from hf]
      decide
    · rw [show lineWord S bufin = str "qiging" from hf]
      decide
  | create p =>
    have hget : S.getidentifier bufin 0 = (str "create", p) := hf
    show (∃ g', g.createCommand S B pcc bufin p = .ok g') ↔ _
    rw [createCommand_ok_iff hS, Defined, if_pos (by rw [lineWord, hget]), hget]
  | act a is missing =>
    obtain ⟨hw, rfl⟩ := hf
    rw [defined_act hw, ← a.loop_ok_iff hl hlive (idents S bufin)]
    constructor
    · rintro ⟨g', h⟩
      obtain ⟨r, hr, -⟩ := map_eq_ok.mp h
      exact ⟨r, hr⟩
    · rintro ⟨r, hr⟩
      rw [Form.run, hr]
      exact ⟨_, rfl⟩

end Qigong.Probe
